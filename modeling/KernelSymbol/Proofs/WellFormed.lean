import KernelSymbol.ArgType.Ending
import KernelSymbol.Proofs.Closure
import KernelSymbol.Proofs.Invariant
import KernelSymbol.Proofs.Refinement

/-!
# Every type is well formed

Contracts are checked where a vector or a named type is asked for, and nowhere else. A pool rebuilds
the nodes above a child of its own without checking them again, a decoder closes pointers and
vectors around whatever it read, and an encoder interns what it is given into its own pool. Still no
node comes into existence whose type is not well formed. Rebuilding a node keeps its data and the
type below it, so what is stored for a type is a sub-chain of that type, and sub-chains of
well-formed types are well formed.

Besides its requests, a session may be asked for a pointer like one that is there, with its
attributes edited outside every pool. That is how attributes are set before a pointer is interned.

## Main definitions

* `ArgType.pointers`, `ArgType.EndsChain` — pointers around a type, and the types that pointers may
  lead to
* `Pool.WellFormed` — a pool that stores well-formed types only
* `Session.Move`, `Session.afterMoves` — requests and edits, and the state after them
* `Session.Arises` — the types of all nodes that there are in a session

## Main results

* `ArgType.wellFormed_iff_pointers`, `ArgType.WellFormed.vector_last` — a well-formed type as a
  chain
* `Session.Sound.move` — what one request or edit keeps
* `Session.chain_of_arises` — the types that come into existence
-/

namespace KernelSymbol

/-! ### Chains -/

namespace ArgType

variable {s t : ArgType}

theorem WellFormed.of_mem_subchains (h : t.WellFormed) (hs : s ∈ t.subchains) : s.WellFormed := by
  induction t using ind with
  | leaf l =>
    obtain rfl := List.mem_singleton.1 hs
    exact h
  | cons l t ih =>
    rw [subchains_cons, List.mem_cons] at hs
    rcases hs with rfl | hs
    · exact h
    · exact ih (h.child (child?_cons l t)) hs

/-- Pointers with certain attributes around a type, the outermost of which comes first. -/
def pointers (as : List PointerAttrs) (t : ArgType) : ArgType := as.foldr pointer t

/-- A builtin, a named type with a name, or a vector of positive length whose element is a scalar
builtin. -/
inductive EndsChain : ArgType → Prop where
  | builtin (b : Builtin) : EndsChain (.builtin b)
  | named {name : String} (h : name ≠ "") : EndsChain ⟨[], .named name⟩
  | vector {n : UInt32} {b : Builtin} (hn : n ≠ 0) (hb : b.isScalar = true) :
    EndsChain (.cons (.vector n) (.builtin b))

@[simp] theorem links_pointers (as : List PointerAttrs) (t : ArgType) :
    (pointers as t).links = as.map Link.pointer ++ t.links := by
  induction as with
  | nil => rfl
  | cons a as ih => exact congrArg (Link.pointer a :: ·) ih

@[simp] theorem leaf_pointers (as : List PointerAttrs) (t : ArgType) :
    (pointers as t).leaf = t.leaf := by
  induction as with
  | nil => rfl
  | cons a as ih => exact ih

theorem EndsChain.wellFormed (h : t.EndsChain) : t.WellFormed := by
  cases h with
  | builtin b => exact .builtin b
  | named h => exact .named h
  | vector hn hb => exact .vector hn hb

/-- The well-formed types are the pointers to the ends of chains. -/
theorem wellFormed_iff_pointers : t.WellFormed ↔ ∃ as e, t = pointers as e ∧ e.EndsChain := by
  constructor
  · intro h
    induction h with
    | builtin b => exact ⟨[], _, rfl, .builtin b⟩
    | named h => exact ⟨[], _, rfl, .named h⟩
    | vector hn hb => exact ⟨[], _, rfl, .vector hn hb⟩
    | pointer a h ih =>
      obtain ⟨as, e, rfl, he⟩ := ih
      exact ⟨a :: as, e, rfl, he⟩
  · rintro ⟨as, e, rfl, he⟩
    induction as with
    | nil => exact he.wellFormed
    | cons a as ih => exact .pointer a ih

theorem WellFormed.exists_ending (h : t.WellFormed) :
    ∃ (as : List PointerAttrs) (e : Ending), t = pointers as e.type := by
  obtain ⟨as, e, rfl, he⟩ := wellFormed_iff_pointers.1 h
  cases he with
  | builtin b => exact ⟨as, .builtin b, rfl⟩
  | named h => exact ⟨as, .named _, rfl⟩
  | vector hn hb => exact ⟨as, .vector _ _, rfl⟩

/-- The end of a chain is one node deeper if it is a vector. -/
theorem EndsChain.depth_eq (h : t.EndsChain) : t.depth = if t.kind = .vector then 1 else 0 := by
  cases h <;> rfl

theorem depth_pointers (as : List PointerAttrs) (t : ArgType) :
    (pointers as t).depth = as.length + t.depth := by
  simp [depth]

/-- A vector of a well-formed type is its last link. -/
theorem WellFormed.vector_last (h : t.WellFormed) {i : Nat} {n : UInt32}
    (hi : t.links[i]? = some (.vector n)) : i + 1 = t.links.length := by
  induction h generalizing i with
  | builtin b | named h => cases hi
  | vector hn hb =>
    cases i with
    | zero => rfl
    | succ i => cases hi
  | pointer a h ih =>
    cases i with
    | zero => cases hi
    | succ i => exact congrArg (· + 1) (ih hi)

end ArgType

/-! ### Pools -/

namespace Pool

variable {p q : Pool}

/-- The pool stores well-formed types only. -/
def WellFormed (p : Pool) : Prop := ∀ t ∈ p.types, t.WellFormed

/-- Storing what is missing of a well-formed type stores well-formed types only. -/
theorem WellFormed.of_missing (hw : p.WellFormed) {t : ArgType} (ht : t.WellFormed)
    (hq : q.types = p.types ++ p.missing t) : q.WellFormed := by
  intro u hu
  rw [hq, List.mem_append] at hu
  rcases hu with hu | hu
  · exact hw u hu
  · exact ht.of_mem_subchains (mem_missing_iff.1 hu).1

theorem WellFormed.of_mem (hw : p.WellFormed) {g : Handle} (hg : g ∈ p.nodes) :
    g.type.WellFormed := hw _ (mem_types_iff.2 ⟨g, hg, rfl⟩)

end Pool

/-! ### Decoders -/

namespace Decoder

variable {d : Decoder}

/-- A pointer to a stored node keeps the pool well formed, whatever was recorded before. -/
private theorem wellFormed_pointer (hd : d.Valid) (hw : d.pool.WellFormed) (a : PointerAttrs)
    {h : Handle} (hm : h ∈ d.pool.nodes) : (d.pointer a h).2.pool.WellFormed :=
  hw.of_missing (.pointer a (hw.of_mem hm))
    (hd.pool.types_wrap (.pointer a) (hd.pool.knows_of_mem hm))

/-- A decoder never stores a type that is not well formed. -/
theorem invariant_wellFormed : Invariant fun d => d.Valid ∧ d.pool.WellFormed where
  valid h := h.1
  builtin {d} b h :=
    ⟨(h.1.builtin b).valid, h.2.of_missing (.builtin b) (h.1.pool.types_leaf (.builtin b))⟩
  named {d name} place h hne := by
    obtain ⟨r, hr, hB⟩ := h.1.named hne
    refine ⟨by rw [hr]; exact hB.valid, ?_⟩
    have hc : ArgType.checkName name = .ok () := ArgType.checkName_eq_ok_iff.2 hne
    simp only [Decoder.named, Pool.named, hc]
    exact h.2.of_missing (.named hne) (h.1.pool.types_leaf (.named name))
  vector {d n} place {g} h hm hn hs := by
    obtain ⟨r, hr, hB⟩ := h.1.vector hm hn hs
    refine ⟨by rw [hr]; exact hB.valid, ?_⟩
    have hc : ArgType.checkVector n g.type = .ok () := ArgType.checkVector_eq_ok_iff.2 ⟨hn, hs⟩
    simp only [Decoder.vector, Pool.vector, hc]
    exact h.2.of_missing (ArgType.wellFormed_cons_vector hn hs)
      (h.1.pool.types_wrap (.vector n) (h.1.pool.knows_of_mem hm))
  pointer {d} a {g} h hm := ⟨(h.1.pointer a hm).valid, wellFormed_pointer h.1 h.2 a hm⟩
  spelled {d} a {g} h hm := by
    have hrec : (d.record (.qualified a g)).Valid := h.1.record (c := .qualified a g) hm
    exact ⟨(hrec.pointer a hm).valid, wellFormed_pointer hrec h.2 a hm⟩

end Decoder

/-! ### Encoders -/

namespace Encoder

variable {e : Encoder} {s : Transcript}

/-- A step interns what it writes, if anything, into the encoder's own pool. -/
theorem Tells.wellFormed_step (h : Tells e s) (hw : e.pool.WellFormed) {st : Step}
    (hf : st.handle.Foreign .encoder) (ht : st.handle.type.WellFormed) :
    (e.step st).pool.WellFormed := by
  have hk := h.knows hf
  rcases e.pool_step st with hp | hp | hp <;> rw [hp]
  · exact hw
  · exact hw.of_missing ht (h.valid.types_canon hk)
  · exact hw.of_missing ht (h.valid.types_intern hk)

/-- The pool of an encoder that was given well-formed types stores well-formed types only. -/
theorem wellFormed_run (text : String) {steps : List Encoder.Step}
    (hf : ∀ st ∈ steps, st.handle.Foreign .encoder)
    (ht : ∀ st ∈ steps, st.handle.type.WellFormed) : (run text steps).pool.WellFormed := by
  induction steps using List.reverseRecOn with
  | nil => exact fun t h => by cases h
  | append_singleton steps st ih =>
    rw [List.forall_mem_append, List.forall_mem_singleton] at hf ht
    have hT := tells_run text hf.1
    rw [run, List.foldl_append]
    exact hT.wellFormed_step (ih hf.1 ht.1) hf.2 ht.2

end Encoder

/-! ### Sessions -/

/-- The attributes after edits. An edit that fails changes nothing. -/
def PointerAttrs.applyAll (a : PointerAttrs) (edits : List Edit) : PointerAttrs :=
  edits.foldl (fun a edit => (a.apply edit).toOption.getD a) a

namespace Session

variable {s : Session}

/-- A fresh pointer, outside every pool, that is like a node but for its attributes, which are
edited. Other nodes than pointers have no attributes. -/
def edit (s : Session) (h : Handle) (edits : List PointerAttrs.Edit) : Session :=
  match h.links with
  | (.pointer a, _) :: rest =>
    (s.makeOutside (.pointer (a.applyAll edits)) { h with links := rest }).2
  | _ => s

/-- What can happen in a session: a request, or an edit of a pointer outside every pool. -/
inductive Move where
  | ask (r : Request)
  | edit (handle : Nat) (edits : List PointerAttrs.Edit)

/-- The state after a move. -/
def move (s : Session) : Move → Session
  | .ask r => (s.step r).2
  | .edit n edits =>
    match s.handles[n]? with
    | some h => s.edit h edits
    | none => s

/-- The state after several moves. -/
def afterMoves (s : Session) (moves : List Move) : Session := moves.foldl move s

/-- The types of the nodes that there are in a session: those that a handle reaches, those that a
pool stores, and those that an encoder stores in its own pool when it is given handles. -/
inductive Arises (s : Session) : ArgType → Prop where
  | handle {g : Handle} (hg : s.Has g) : Arises s g.type
  | pool {i : Nat} {p : Pool} {g : Handle} (hp : s.pools[i]? = some p) (hg : g ∈ p.nodes) :
    Arises s g.type
  | encoder {text : String} {steps : List Encoder.Step} {g : Handle}
    (hs : ∀ st ∈ steps, st.handle ∈ s.handles) (hg : g ∈ (Encoder.run text steps).pool.nodes) :
    Arises s g.type

/-- What holds of every session, with the types that its pools store. -/
structure Sound (s : Session) : Prop where
  valid : s.Valid
  stored : ∀ {i : Nat} {p : Pool}, s.pools[i]? = some p → p.WellFormed

theorem Valid.wellFormed_requested (hs : s.Valid) {r : Request} {t : ArgType}
    (h : s.requested? r = some t) : t.WellFormed := by
  have handle : ∀ {n : Nat} {k : Handle}, s.handles[n]? = some k → k.type.WellFormed := fun hk =>
    hs.wellFormed _ (Array.mem_of_getElem? hk)
  have edited : ∀ {f : PointerAttrs → PointerAttrs} {u : ArgType}, u.WellFormed →
      u.editAttrs? f = some t → t.WellFormed := by
    intro f u hu he
    cases hu with
    | pointer a hu =>
      cases he
      exact .pointer (f a) hu
    | _ => cases he
  have ok : ∀ {value : Except BuildError ArgType}, value.toOption = some t → value = .ok t := by
    rintro (e | u) hv
    · cases hv
    · cases hv
      rfl
  cases r with
  | internType d => exact Description.wellFormed_build (ok h)
  | intern n | canon n =>
    obtain ⟨k, hk, rfl⟩ := Option.map_eq_some_iff.1 h
    exact handle hk
  | builtin n | builtinNamed name =>
    obtain ⟨b, -, rfl⟩ := Option.map_eq_some_iff.1 h
    exact .builtin b
  | pointer n =>
    obtain ⟨k, hk, rfl⟩ := Option.map_eq_some_iff.1 h
    exact .pointer .plain (handle hk)
  | pointerWith n | pointerRetaining n =>
    obtain ⟨k, hk, h⟩ := Option.bind_eq_some_iff.1 h
    obtain ⟨a, -, rfl⟩ := Option.map_eq_some_iff.1 h
    exact .pointer a (handle hk)
  | vector n length =>
    obtain ⟨k, hk, h⟩ := Option.bind_eq_some_iff.1 h
    exact ArgType.wellFormed_vector (ok h)
  | named name => exact ArgType.wellFormed_named (ok h)
  | withSpace n space | withQualifier n slot on =>
    obtain ⟨k, hk, h⟩ := Option.bind_eq_some_iff.1 h
    obtain ⟨a, -, h⟩ := Option.bind_eq_some_iff.1 h
    exact edited (handle hk) h
  | _ => cases h

theorem pools_step_decode (s : Session) (text : String) :
    (s.step (.decode text)).2.pools = (s.setPool (KernelSymbol.decode text s.pool).2).pools := by
  simp only [step, inPool_eq]
  rcases KernelSymbol.decode text s.pool with ⟨e | f, q⟩
  · rfl
  · simp only [addAll_snd, pools_putAll]

/-- A request for nodes of the current pool stores well-formed types there. -/
theorem Sound.wellFormed_current (hs : s.Sound) {r : Request} (hr : r.asksPool = true) {q : Pool}
    (hq : (s.step r).2.pools[s.current]? = some q) : q.WellFormed := by
  have hcur := hs.valid.getElem?_pool
  have hw : s.pool.WellFormed := hs.stored hcur
  by_cases hd : ∃ text, r = .decode text
  · obtain ⟨text, rfl⟩ := hd
    obtain ⟨d, hd, he⟩ := Decoder.invariant_wellFormed.decode
      ⟨Decoder.valid_start (hs.valid.pool hcur).1, hw⟩ text
    rw [pools_step_decode, getElem?_setPool hs.valid.current_lt, he] at hq
    cases hq
    exact hd.2
  · obtain ⟨q', hq', ht⟩ := hs.valid.fills_step hr (not_exists.1 hd)
    rw [hq'] at hq
    cases hq
    cases hreq : s.requested? r with
    | none =>
      rw [hreq, Option.elim_none, List.append_nil] at ht
      exact fun t hm => hw t (ht ▸ hm)
    | some t =>
      rw [hreq] at ht
      exact hw.of_missing (hs.valid.wellFormed_requested hreq) ht

/-- One request. -/
theorem Sound.step (hs : s.Sound) (r : Request) : (s.step r).2.Sound := by
  refine ⟨(hs.valid.step r).valid, fun {i q} hq => ?_⟩
  by_cases hr : r.asksPool = true
  · by_cases hi : i = s.current
    · subst hi
      exact hs.wellFormed_current hr hq
    · obtain ⟨_, _, h⟩ := hs.valid.poolStep hr
      rw [h.getElem?_of_ne hi] at hq
      exact hs.stored hq
  · by_cases hu : ∃ n, r = .usePool n
    · obtain ⟨n, rfl⟩ := hu
      rcases getElem?_usePool hq with hq | rfl
      · exact hs.stored hq
      · exact fun t ht => by cases ht
    · rw [pools_step (Bool.not_eq_true _ ▸ hr) (not_exists.1 hu)] at hq
      exact hs.stored hq

/-- One edit. The edited pointer is a fresh node above the node that the pointer points to. -/
theorem Sound.edit (hs : s.Sound) {h : Handle} (hm : h ∈ s.handles)
    (edits : List PointerAttrs.Edit) : (s.edit h edits).Sound := by
  have hw := hs.valid.wellFormed h hm
  induction h using Handle.ind with
  | leaf l t => exact hs
  | cons l t h =>
    cases l with
    | vector n => exact hs
    | pointer a =>
      have hh : s.Has h := by
        refine (has_of_mem hm).subchains ?_
        rw [Handle.subchains_cons]
        exact List.mem_cons_of_mem _ h.mem_subchains_self
      have hb : (ArgType.cons (.pointer (a.applyAll edits)) h.type).WellFormed :=
        .pointer _ (hw.child (ArgType.child?_cons _ h.type))
      exact ⟨(hs.valid.makeOutside hh hb).valid, hs.stored⟩

theorem Sound.move (hs : s.Sound) (m : Move) : (s.move m).Sound := by
  cases m with
  | ask r => exact hs.step r
  | edit n edits =>
    rw [Session.move]
    split
    next h hh => exact hs.edit (Array.mem_of_getElem? hh) edits
    next => exact hs

theorem sound_start : start.Sound := by
  refine ⟨valid_start, fun {i p} hp => ?_⟩
  cases i with
  | zero =>
    cases hp
    exact fun t ht => by cases ht
  | succ i => cases hp

/-- Several moves. -/
theorem Sound.afterMoves (hs : s.Sound) (moves : List Move) : (s.afterMoves moves).Sound := by
  induction moves generalizing s with
  | nil => exact hs
  | cons m moves ih => exact ih (hs.move m)

theorem Sound.wellFormed (hs : s.Sound) {t : ArgType} (h : s.Arises t) : t.WellFormed := by
  cases h with
  | handle hg =>
    obtain ⟨h, hm, hg⟩ := hg
    refine (hs.valid.wellFormed h hm).of_mem_subchains ?_
    rw [← Handle.map_type_subchains]
    exact List.mem_map_of_mem hg
  | pool hp hg => exact (hs.stored hp).of_mem hg
  | encoder hsteps hg =>
    refine (Encoder.wellFormed_run _ (fun st hst => ?_) fun st hst => ?_).of_mem hg
    · exact hs.valid.foreign (hsteps st hst)
    · exact hs.valid.wellFormed _ (hsteps st hst)

/-- Every type that comes into existence is well formed, whatever is asked of a session and however
pointers are edited outside its pools: the types of all nodes that handles reach, that pools store,
after failures too, and that encoders intern for themselves. Such a type is a row of pointers that
ends in a builtin, in a named type with a name, or in a vector of positive length whose element is a
scalar builtin. So a vector is the last link of a chain, and a type is as deep as it has pointers,
and one node deeper if it ends in a vector. -/
theorem chain_of_arises (moves : List Move) {t : ArgType}
    (h : (start.afterMoves moves).Arises t) :
    (∃ (as : List PointerAttrs) (e : ArgType), t = .pointers as e ∧ e.EndsChain ∧
      t.depth = as.length + if e.kind = .vector then 1 else 0) ∧
    ∀ (i : Nat) (n : UInt32), t.links[i]? = some (.vector n) → i + 1 = t.links.length := by
  have hw : t.WellFormed := (sound_start.afterMoves moves).wellFormed h
  obtain ⟨as, e, rfl, he⟩ := ArgType.wellFormed_iff_pointers.1 hw
  refine ⟨⟨as, e, rfl, he, ?_⟩, fun i n hi => hw.vector_last hi⟩
  rw [ArgType.depth_pointers, he.depth_eq]

/-- A global pointer to a vector, and the same pointer edited to be a constant one into the local
space. -/
def editedPointer : List Move :=
  [.ask (.outside ⟨.builtin 10, [.vector 4, .pointers 1 [] 1]⟩),
    .edit 0 [.space 3, .qualifier 2 true]]

/-- Where the edited pointer is interned, the pool rebuilds it above a vector of its own, and what
it stores is a pointer to a vector still. -/
theorem chain_of_arises_editedPointer : ∃ (p : Pool) (g : Handle) (e : ArgType),
    (start.afterMoves (editedPointer ++ [.ask (.intern 1)])).pools[0]? = some p ∧ g ∈ p.nodes ∧
      g.type.depth = 2 ∧ g.type = .pointers [⟨.localSpace, .ofList [.const]⟩] e ∧
      e.EndsChain := by
  have hs : (start.afterMoves editedPointer).Sound := sound_start.afterMoves editedPointer
  obtain ⟨h, hh⟩ : ∃ h, (start.afterMoves editedPointer).handles[1]? = some h := ⟨_, rfl⟩
  have ht : h.type = ⟨[.pointer ⟨.localSpace, .ofList [.const]⟩, .vector 4], .builtin .float⟩ := by
    cases hh
    rfl
  obtain ⟨-, q, g, hstep, hgt⟩ := hs.valid.exists_poolStep (r := .intern 1) hh
  have hq : (start.afterMoves (editedPointer ++ [.ask (.intern 1)])).pools[0]? = some q :=
    hstep.getElem?_current hs.valid
  have hg : g ∈ q.nodes := (hstep.mem g (List.mem_singleton_self g)).1
  obtain ⟨⟨as, e, he, hend, hdepth⟩, -⟩ := chain_of_arises _ (.pool hq hg)
  have hlinks := congrArg ArgType.links he
  rw [hgt, ht, ArgType.links_pointers] at hlinks
  -- the first link is a pointer and the second one is none
  cases as with
  | nil =>
    obtain rfl : g.type = e := he
    rw [hgt, ht] at hend
    cases hend
  | cons a as =>
    cases as with
    | nil =>
      obtain rfl := Link.pointer.inj (List.cons.inj hlinks).1
      exact ⟨q, g, e, hq, hg, by rw [hgt, ht]; rfl, he, hend⟩
    | cons b as => cases hlinks

end Session

end KernelSymbol
