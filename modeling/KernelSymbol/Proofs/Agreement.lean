import KernelSymbol.Proofs.Interning

/-!
# A pool does not influence what a symbol means

A decoder works on nodes of its pool. Two decoders in two pools that read the same text hold
different nodes at every point, but nodes of the same types, and a decoder never asks a pool for
anything but a node of a type: whether it is a new one makes no difference. So the two runs stay
related step by step, where two nodes are related if their types are equal, and two outcomes are
related if both are the same fault or both are related nodes.

The text of a parameter is read before anything is built, without a decoder, so the runs have to
be compared for what is built only.

## Main definitions

* `Decoder.Alike` — two decoders that have read the same components
* `Decoder.Twins` — two nodes of one type, each of them stored in its own pool
* `Decoder.Agree` — two outcomes that are the same fault, or two related values

## Main results

* `Decoder.Alike.resolve`, `Decoder.Alike.closeOne`, `Decoder.Alike.readParams` — alike decoders
  agree on stems, on what is built around a node, and on parameters
* `Session.Reachable.decode_agrees` — a symbol means the same in all pools
-/

namespace KernelSymbol

namespace Decoder

/-! ### Two runs -/

/-- Two decoders that have read the same components, maybe in different pools. -/
structure Alike (d d' : Decoder) : Prop where
  left : d.Valid
  right : d'.Valid
  types_eq : d.types = d'.types

/-- Two nodes of one type, each of them stored in the pool of its decoder, where the decoders have
read the same components. -/
structure Twins (r r' : Handle × Decoder) : Prop where
  alike : Alike r.2 r'.2
  left : r.1 ∈ r.2.pool.nodes
  right : r'.1 ∈ r'.2.pool.nodes
  type_eq : r.1.type = r'.1.type

/-- Two outcomes that agree: the same fault, or values that are related. -/
inductive Agree {α : Type} (R : α × Decoder → α × Decoder → Prop) :
    Except Fault α × Decoder → Except Fault α × Decoder → Prop where
  | ok {a a' : α} {d d' : Decoder} (h : R (a, d) (a', d')) : Agree R (.ok a, d) (.ok a', d')
  | error (e : Fault) (d d' : Decoder) : Agree R (.error e, d) (.error e, d')

variable {d d' : Decoder} {g g' : Handle}

/-- What was built for one type, with the same table, are nodes of that type. -/
theorem Builds.twins {t : ArgType} {table : List (Component ArgType)} {r r' : Handle × Decoder}
    (h : Builds d t table r) (h' : Builds d' t table r') : Twins r r' :=
  ⟨⟨h.valid, h'.valid, h.types_eq.trans h'.types_eq.symm⟩, h.yields.mem, h'.yields.mem,
    h.yields.type_eq.trans h'.yields.type_eq.symm⟩

/-- Recording the same attributes in front of nodes of one type. -/
theorem Twins.record (h : Twins (g, d) (g', d')) (a : PointerAttrs) :
    Twins (g, d.record (.qualified a g)) (g', d'.record (.qualified a g')) := by
  refine ⟨⟨h.alike.left.record (c := .qualified a g) h.left,
    h.alike.right.record (c := .qualified a g') h.right, ?_⟩, h.left, h.right, h.type_eq⟩
  rw [types_record, types_record, h.alike.types_eq, Component.map_qualified,
    Component.map_qualified, show g.type = g'.type from h.type_eq]

/-! ### The steps -/

theorem Alike.builtin (h : Alike d d') (b : Builtin) : Twins (d.builtin b) (d'.builtin b) := by
  have hb := h.left.builtin b
  rw [h.types_eq] at hb
  exact hb.twins (h.right.builtin b)

theorem Twins.pointer (h : Twins (g, d) (g', d')) (a : PointerAttrs) :
    Twins (d.pointer a g) (d'.pointer a g') := by
  have hb := h.alike.left.pointer a h.left
  rw [h.alike.types_eq, show g.type = g'.type from h.type_eq] at hb
  exact hb.twins (h.alike.right.pointer a h.right)

/-- Vectors of nodes of one type are built or refused for the same reason. -/
theorem Twins.vector (h : Twins (g, d) (g', d')) (n : UInt32) (place : List Char) :
    Agree Twins (d.vector n place g) (d'.vector n place g') := by
  have ht : g.type = g'.type := h.type_eq
  cases hc : ArgType.checkVector n g.type with
  | error e =>
    rw [vector_of_error place hc, vector_of_error place (ht ▸ hc)]
    exact .error _ _ _
  | ok =>
    obtain ⟨hn, hs⟩ := ArgType.checkVector_eq_ok_iff.1 hc
    obtain ⟨r, hr, hb⟩ := h.alike.left.vector h.left hn hs
    obtain ⟨r', hr', hb'⟩ := h.alike.right.vector h.right hn (ht ▸ hs)
    rw [h.alike.types_eq, ht] at hb
    rw [hr, hr']
    exact .ok (hb.twins hb')

/-- Nodes of one named type, unless the name is missing. -/
theorem Alike.named (h : Alike d d') (name : String) (place : List Char) :
    Agree Twins (d.named name place) (d'.named name place) := by
  cases hc : ArgType.checkName name with
  | error e =>
    rw [named_of_error place hc, named_of_error place hc]
    exact .error _ _ _
  | ok =>
    have hne := ArgType.checkName_eq_ok_iff.1 hc
    obtain ⟨r, hr, hb⟩ := h.left.named hne
    obtain ⟨r', hr', hb'⟩ := h.right.named hne
    rw [h.types_eq] at hb
    rw [hr, hr']
    exact .ok (hb.twins hb')

/-- A place of the table holds nodes of one type in both decoders, or attributes of a pointer to
such nodes, or nothing in either. -/
theorem Alike.component (h : Alike d d') (i : Nat) (place : List Char) :
    (∃ g g', d.component i place = .ok (.whole g) ∧ d'.component i place = .ok (.whole g') ∧
      Twins (g, d) (g', d')) ∨
    (∃ a g g', d.component i place = .ok (.qualified a g) ∧
      d'.component i place = .ok (.qualified a g') ∧ Twins (g, d) (g', d')) ∨
    (d.component i place = .error (.invalidReference place) ∧
      d'.component i place = .error (.invalidReference place)) := by
  have ht : d.types[i]? = d'.types[i]? := by rw [h.types_eq]
  rw [types_getElem?, types_getElem?] at ht
  rw [Decoder.component, Decoder.component]
  cases hc : d.table[i]? with
  | none =>
    rw [hc, Option.map_none, eq_comm, Option.map_eq_none_iff] at ht
    rw [ht]
    exact .inr (.inr ⟨rfl, rfl⟩)
  | some c =>
    rw [hc, Option.map_some, eq_comm, Option.map_eq_some_iff] at ht
    obtain ⟨c', hc', ht⟩ := ht
    have hm := h.left.mem c (Array.mem_of_getElem? hc)
    have hm' := h.right.mem c' (Array.mem_of_getElem? hc')
    rw [hc']
    cases c with
    | whole g =>
      cases c' with
      | whole g' => exact .inl ⟨g, g', rfl, rfl, h, hm, hm', (Component.whole.inj ht).symm⟩
      | qualified a' g' => simp at ht
    | qualified a g =>
      cases c' with
      | whole g' => simp at ht
      | qualified a' g' =>
        obtain ⟨rfl, htype⟩ := Component.qualified.inj ht
        exact .inr (.inl ⟨a', g, g', rfl, rfl, h, hm, hm', htype.symm⟩)

theorem Alike.resolve (h : Alike d d') (stem : Stem) :
    Agree Twins (d.resolve stem) (d'.resolve stem) := by
  cases stem with
  | builtin b => exact .ok (h.builtin b)
  | named name place => exact h.named name place
  | reference i place =>
    obtain ⟨g, g', hc, hc', hT⟩ | ⟨a, g, g', hc, hc', -⟩ | ⟨hc, hc'⟩ := h.component i place <;>
      simp only [Decoder.resolve, hc, hc']
    · exact .ok hT
    · exact .error _ _ _
    · exact .error _ _ _
  | pointerTo i place =>
    obtain ⟨g, g', hc, hc', hT⟩ | ⟨a, g, g', hc, hc', hT⟩ | ⟨hc, hc'⟩ := h.component i place <;>
      simp only [Decoder.resolve, hc, hc']
    · exact .ok (hT.pointer .plain)
    · exact .ok (hT.pointer a)
    · exact .error _ _ _

/-- Around nodes of one type, alike decoders agree on a pointer or a vector. -/
theorem Twins.closeOne (h : Twins (g, d) (g', d')) (opening : Opening) :
    Agree Twins (d.closeOne g opening) (d'.closeOne g' opening) := by
  cases opening with
  | pointer a spelled =>
    cases spelled with
    | false => exact .ok (h.pointer a)
    | true => exact .ok ((h.record a).pointer a)
  | vector n place => exact h.vector n place

/-- And so they do on several of them. -/
theorem Twins.close (h : Twins (g, d) (g', d')) (openings : List Opening) :
    Agree Twins (d.close g openings) (d'.close g' openings) := by
  induction openings generalizing d d' g g' with
  | nil => exact .ok h
  | cons opening openings ih =>
    have hA := h.closeOne opening
    rw [Decoder.close, Decoder.close]
    generalize d.closeOne g opening = r, d'.closeOne g' opening = r' at hA ⊢
    cases hA with
    | ok h => exact ih h
    | error e => exact .error _ _ _

theorem Alike.build (h : Alike d d') (lexeme : Lexeme) :
    Agree Twins (d.build lexeme) (d'.build lexeme) := by
  have hA := h.resolve lexeme.stem
  rw [Decoder.build, Decoder.build]
  generalize d.resolve lexeme.stem = r, d'.resolve lexeme.stem = r' at hA ⊢
  cases hA with
  | ok hT => exact hT.close lexeme.openings
  | error e => exact .error _ _ _

/-- Alike decoders agree on a parameter, and on the text that is left behind it. -/
theorem Alike.param (h : Alike d d') (cs : List Char) :
    Agree (fun r r' => Twins (r.1.1, r.2) (r'.1.1, r'.2) ∧ r.1.2 = r'.1.2) (d.param cs)
      (d'.param cs) := by
  rw [Decoder.param, Decoder.param]
  rcases readLexeme [] cs with e | ⟨lexeme, rest⟩
  · exact .error _ _ _
  · have hA := h.build lexeme
    simp only
    generalize d.build lexeme = r, d'.build lexeme = r' at hA ⊢
    cases hA with
    | ok hT => exact .ok ⟨hT, rfl⟩
    | error e => exact .error _ _ _

theorem Alike.readParams (h : Alike d d') {gs gs' : List Handle}
    (ht : gs.map Handle.type = gs'.map Handle.type) (cs : List Char) :
    Agree (fun r r' => r.1.map Handle.type = r'.1.map Handle.type) (d.readParams gs cs)
      (d'.readParams gs' cs) := by
  fun_induction Decoder.readParams d gs cs generalizing d' gs' with
  | case1 d gs cs he =>
    rw [Decoder.readParams.eq_def, if_pos he]
    refine .ok ?_
    rw [List.map_reverse, ht, ← List.map_reverse]
  | case2 d gs cs he e d₁ hp =>
    have hA := h.param cs
    rw [hp] at hA
    rw [readParams_of_not_isEmpty he]
    generalize d'.param cs = r at hA ⊢
    cases hA
    exact .error _ _ _
  | case3 d gs cs he g rest d₁ hp ih =>
    have hA := h.param cs
    rw [hp] at hA
    rw [readParams_of_not_isEmpty he]
    generalize d'.param cs = r at hA ⊢
    cases hA with
    | ok h =>
      obtain ⟨hT, rfl⟩ := h
      refine ih hT.alike ?_
      rw [List.map_cons, List.map_cons, ht, show g.type = _ from hT.type_eq]

end Decoder

/-! ### Whole symbols -/

variable {p p' : Pool}

theorem Pool.Valid.map_decodeParams (hp : p.Valid) (hp' : p'.Valid) (cs : List Char) :
    (decodeParams cs p).1.map (List.map Handle.type) =
      (decodeParams cs p').1.map (List.map Handle.type) := by
  rw [decodeParams, decodeParams]
  split
  · rfl
  · split
    · rfl
    · have h : (Decoder.start p).Alike (.start p') :=
        ⟨Decoder.valid_start hp, Decoder.valid_start hp', rfl⟩
      have hA := h.readParams (rfl : [].map Handle.type = [].map Handle.type) cs
      generalize (Decoder.start p).readParams [] cs = r at hA
      generalize (Decoder.start p').readParams [] cs = r' at hA
      cases hA with
      | ok h => exact congrArg Except.ok h
      | error e => rfl

theorem Pool.Valid.map_decode (hp : p.Valid) (hp' : p'.Valid) (text : String) :
    (decode text p).1.map (Signature.map Handle.type) =
      (decode text p').1.map (Signature.map Handle.type) := by
  rw [decode, decode, decodeText, decodeText]
  rcases readHead text.toList with e | ⟨name, rest⟩
  · rfl
  · have h := hp.map_decodeParams hp' rest
    simp only
    generalize decodeParams rest p = r, decodeParams rest p' = r' at h ⊢
    obtain ⟨e | gs, q⟩ := r <;> obtain ⟨e' | gs', q'⟩ := r'
    · cases h
      rfl
    · cases h
    · cases h
    · exact congrArg (fun ts => Except.ok (Signature.mk name ts)) (Except.ok.inj h)

namespace Session

variable {s s' : Session}

/-- A symbol means the same in all pools, whatever they hold: any two pools that sessions can get
to decode a text to the same name and parameters of the same types, or refuse it with the same
error. Every node of a parameter that a pool returns, at any depth, is its own. -/
theorem Reachable.decode_agrees (hs : s.Reachable) (hs' : s'.Reachable) {i j : Nat} {p p' : Pool}
    (hp : s.pools[i]? = some p) (hp' : s'.pools[j]? = some p') (text : String) :
    (KernelSymbol.decode text p).1.map (Signature.map Handle.type) =
        (KernelSymbol.decode text p').1.map (Signature.map Handle.type) ∧
      ∀ (f : Signature Handle) (q : Pool), KernelSymbol.decode text p = (.ok f, q) →
        ∀ h ∈ f.params, ∀ g ∈ h.subchains, g ∈ q.nodes ∧ q.owns g.tag = true := by
  have hv := (hs.valid.pool hp).1
  refine ⟨hv.map_decode (hs'.valid.pool hp').1 text, fun f q hf h hh g hg => ?_⟩
  obtain ⟨-, -, hY⟩ := symbolText_of_decode hv hf
  have hm : g ∈ q.nodes := hY.valid.mem_subchains (hY.mem h hh) hg
  exact ⟨hm, hY.valid.owns_of_mem hm⟩

/-- A pool that stores a part of the parameter already agrees with an empty one. -/
theorem decode_agrees_twoPointers : ∃ p p' : Pool, twoPointers.pools[0]? = some p ∧
    p.isEmpty = true ∧ (twoPointers.step (.intern 0)).2.pools[0]? = some p' ∧
    (∃ h, h ∈ p'.nodes) ∧
    (KernelSymbol.decode "_Z1fPPbS_" p).1.map (Signature.map Handle.type) =
      (KernelSymbol.decode "_Z1fPPbS_" p').1.map (Signature.map Handle.type) := by
  obtain ⟨p, hp⟩ : ∃ p, twoPointers.pools[0]? = some p := ⟨_, rfl⟩
  have he : p.isEmpty = true := by
    cases hp
    rfl
  obtain ⟨a, ha⟩ : ∃ a, twoPointers.interned? (.intern 0) = some a := ⟨_, rfl⟩
  obtain ⟨-, p', h, hstep, -⟩ := reachable_twoPointers.valid.exists_poolStep ha
  have hp' := hstep.getElem?_current reachable_twoPointers.valid
  have hh : h ∈ p'.nodes := (hstep.mem h (List.mem_singleton_self h)).1
  have hagree := reachable_twoPointers.decode_agrees (reachable_twoPointers.step (.intern 0)) hp hp'
    "_Z1fPPbS_"
  exact ⟨p, p', hp, he, hp', ⟨h, hh⟩, hagree.1⟩

end Session

end KernelSymbol
