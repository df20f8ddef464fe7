import KernelSymbol.Proofs.Lockstep
import KernelSymbol.Proofs.Overload

/-!
# Attributes travel with their pointer

When a pointer with attributes is complete, two components enter the table: the attributes together
with what the pointer points to, and right behind them the pointer. An encoder records the second
one whenever it records the first one, and in no other way, so the two are always next to each
other. It looks for the attributes only if it did not find the pointer, and then it does not find
them either. So whatever it refers to is a type, and a `P` alone in front of a reference is a private
pointer that has none of the qualifiers.

A decoder also meets pointers that were made from the attributes of another pointer, and these enter
the table alone. But where the attributes are, their pointer is the next component; and a pointer
that is made from them again is that very node.

## Main definitions

* `AdjacentTable` — tables in which attributes and their pointers come as pairs
* `Decoder.Paired` — a decoder that has, behind attributes, their pointer

## Main results

* `AdjacentTable.getElem?_iff` — attributes are in front of their pointer, and only there
* `Transcript.adjacent_type`, `Decoder.invariant_paired` — one more type on either side
* `Transcript.exists_text` — the text of a type, up to the reference in it
* `Decoder.Valid.resolve_qualified` — a pointer that is made from attributes again
* `Session.Reachable.attributes_with_pointer` — both sides, in all states of a session
-/

namespace KernelSymbol

theorem ArgType.cons_inj {l m : Link} {t u : ArgType} : cons l t = cons m u ↔ l = m ∧ t = u := by
  refine ⟨fun h => ?_, by rintro ⟨rfl, rfl⟩; rfl⟩
  obtain ⟨hl, hls⟩ := List.cons.inj (congrArg links h)
  have hleaf := congrArg leaf h
  rw [leaf_cons, leaf_cons] at hleaf
  exact ⟨hl, ArgType.ext hls hleaf⟩

theorem ArgType.pointer_inj {a b : PointerAttrs} {t u : ArgType} :
    pointer a t = pointer b u ↔ a = b ∧ t = u := by
  rw [pointer, pointer, cons_inj, Link.pointer.injEq]

/-! ### Tables of pairs -/

/-- A table in which the attributes of a pointer stand right in front of it, and a pointer with
attributes right behind them. -/
inductive AdjacentTable : List (Component ArgType) → Prop where
  | nil : AdjacentTable []
  | whole {table : List (Component ArgType)} {t : ArgType}
    (ht : ∀ a u, t = .pointer a u → a = .plain)
    (h : AdjacentTable table) : AdjacentTable (.whole t :: table)
  | pointer {table : List (Component ArgType)} {a : PointerAttrs} (ha : a ≠ .plain) (t : ArgType)
    (h : AdjacentTable table) : AdjacentTable (.qualified a t :: .whole (.pointer a t) :: table)

namespace AdjacentTable

variable {table table' : List (Component ArgType)} {a : PointerAttrs} {t : ArgType}

theorem append (h : AdjacentTable table) (h' : AdjacentTable table') :
    AdjacentTable (table ++ table') := by
  induction h with
  | nil => exact h'
  | whole ht _ ih => exact .whole ht ih
  | pointer ha t _ ih => exact .pointer ha t ih

/-- A pointer with attributes is not the first component. -/
theorem head?_ne (h : AdjacentTable table) (ha : a ≠ .plain) :
    table[0]? ≠ some (.whole (.pointer a t)) := by
  rintro he
  cases h with
  | nil | pointer => cases he
  | whole ht => exact ha (ht a t (Component.whole.inj (Option.some.inj he)))

/-- Attributes are at a place if and only if their pointer is at the next. -/
theorem getElem?_iff (h : AdjacentTable table) (i : Nat) (a : PointerAttrs) (t : ArgType) :
    table[i]? = some (.qualified a t) ↔
      a ≠ .plain ∧ table[i + 1]? = some (.whole (.pointer a t)) := by
  induction h generalizing i with
  | nil => simp
  | whole _ h ih =>
    cases i with
    | zero => exact iff_of_false nofun fun ⟨ha, he⟩ => h.head?_ne ha he
    | succ i => exact ih i
  | @pointer table b hb u h ih =>
    rcases i with _ | _ | i
    · simp only [List.getElem?_cons_zero, List.getElem?_cons_succ, Option.some.injEq,
        Component.qualified.injEq, Component.whole.injEq]
      constructor
      · rintro ⟨rfl, rfl⟩
        exact ⟨hb, rfl⟩
      · rintro ⟨-, he⟩
        obtain ⟨rfl, rfl⟩ := ArgType.pointer_inj.1 he
        exact ⟨rfl, rfl⟩
    · exact iff_of_false nofun fun ⟨ha, he⟩ => h.head?_ne ha he
    · exact ih i

end AdjacentTable

/-! ### Transcripts -/

namespace Transcript

theorem adjacent_type {s : Transcript} (h : AdjacentTable s.table) (t : ArgType) :
    AdjacentTable (s.type t).table := by
  induction t using ArgType.ind generalizing s with
  | leaf l =>
    cases l with
    | builtin b => exact h
    | named name =>
      rcases table_named s name with ht | ⟨-, ht⟩ <;> rw [ht]
      · exact h
      · exact h.append (.whole (fun a u he => nomatch congrArg ArgType.links he) .nil)
  | cons l t ih =>
    cases l with
    | vector n =>
      rcases table_vector s n t with ht | ⟨-, ht⟩ <;> rw [ht]
      · exact h
      · have hne : ∀ a u, ArgType.cons (.vector n) t = .pointer a u → a = .plain := fun a u he =>
          nomatch (ArgType.cons_inj.1 he).1
        exact (ih (s := s.write _) h).append (.whole hne .nil)
    | pointer a =>
      rw [show ArgType.cons (.pointer a) t = .pointer a t from rfl]
      rcases table_pointer s a t with ht | ⟨-, ht⟩ <;> rw [ht]
      · exact h
      · have hin := ih (s := s.write ("P" ++ a.code)) h
        rw [PointerAttrs.component, List.append_assoc]
        split
        next hp =>
          have hplain : ∀ b u, ArgType.pointer a t = .pointer b u → b = .plain := fun b u he =>
            (ArgType.pointer_inj.1 he).1.symm.trans (PointerAttrs.isPlain_iff.1 hp)
          exact hin.append (.whole hplain .nil)
        next hp => exact hin.append (.pointer (mt PointerAttrs.isPlain_iff.2 hp) t .nil)

theorem adjacent_run (text : String) (ts : List ArgType) : AdjacentTable (run text ts).table :=
  run_ind (I := fun s => AdjacentTable s.table) text ts .nil adjacent_type

end Transcript

/-- What is written for a leaf, unless it is referred to. -/
def Leaf.code : Leaf → String
  | .builtin b => b.code
  | .named name => sourceName name

/-- The text behind another one, with links in between. -/
def Link.codes (text : String) (links : List Link) : String :=
  links.foldl (fun text l => text ++ l.code) text

/-- Only a private pointer without qualifiers is written as a `P` alone. Its set may have other
bits, because they are not written. -/
theorem Link.exists_pointer_of_code {l : Link} (h : l.code = "P") :
    ∃ a, l = .pointer a ∧ a.space = .privateSpace ∧ a.qualifiers.toList = [] := by
  cases l with
  | vector n =>
    rw [← String.toList_inj, toList_code_vector] at h
    cases h
  | pointer a =>
    rw [← String.toList_inj, toList_code_pointer] at h
    obtain ⟨hs, hq⟩ := List.append_eq_nil_iff.1 (List.cons.inj h).2
    refine ⟨a, rfl, ?_, List.map_eq_nil_iff.1 hq⟩
    rw [← AddressSpace.getD_spelled? a.space]
    cases hsp : a.space.spelled? with
    | none => rfl
    | some s =>
      rw [hsp] at hs
      cases hs

/-- What is written for a type are links from the outermost on, and then either all that is left is
referred to, as a whole, or no link is left and the leaf is written. -/
theorem Transcript.exists_text (s : Transcript) (t : ArgType) :
    ∃ front back, t.links = front ++ back ∧
      ((∃ i, s.table[i]? = some (.whole ⟨back, t.leaf⟩) ∧
          (s.type t).text = Link.codes s.text front ++ backReference i) ∨
        (back = [] ∧ (s.type t).text = Link.codes s.text front ++ t.leaf.code)) := by
  induction t using ArgType.ind generalizing s with
  | leaf l =>
    refine ⟨[], [], rfl, ?_⟩
    cases l with
    | builtin b => exact .inr ⟨rfl, rfl⟩
    | named name =>
      rw [type_named]
      rcases refer_cases s ⟨[], .named name⟩ _ with ⟨i, hi, h⟩ | ⟨-, h⟩ <;> rw [h]
      · exact .inl ⟨i, hi, rfl⟩
      · exact .inr ⟨rfl, rfl⟩
  | cons l t ih =>
    by_cases hm : .whole (.cons l t) ∈ s.table
    · obtain ⟨i, hi⟩ := Option.isSome_iff_exists.1 (List.isSome_idxOf?.2 hm)
      obtain ⟨hlt, he, -⟩ := List.idxOf?_eq_some_iff.1 hi
      refine ⟨[], l :: t.links, rfl, .inl ⟨i, ?_, ?_⟩⟩
      · rw [List.getElem?_eq_getElem hlt, he]
        rfl
      · rw [type_cons_of_some hi]
        rfl
    · have hnone := List.idxOf?_eq_none_iff.2 hm
      have htext : (s.type (.cons l t)).text = ((s.write l.code).type t).text := by
        cases l with
        | vector n =>
          rw [type_vector, refer_of_none hnone]
          rfl
        | pointer a =>
          rw [show ArgType.cons (.pointer a) t = .pointer a t from rfl] at hnone ⊢
          rw [type_pointer, refer_of_none hnone]
          dsimp only
          split <;> rfl
      obtain ⟨front, back, hlinks, h⟩ := ih (s.write l.code)
      refine ⟨l :: front, back, congrArg (l :: ·) hlinks, ?_⟩
      rw [htext]
      exact h

/-! ### Encoders -/

namespace Encoder

variable {e : Encoder} {s : Transcript}

/-- A step adds nodes to the encoder's pool. -/
theorem Tells.extends_step (h : Tells e s) {st : Step} (hf : st.handle.Foreign .encoder) :
    e.pool.Extends (e.step st).pool := by
  have hk := h.knows hf
  rcases e.pool_step st with hp | hp | hp <;> rw [hp]
  · exact .refl _
  · exact (h.valid.canon hk).grows
  · exact (h.valid.intern hk).grows

/-- An encoder that does not find a pointer does not find its attributes. -/
theorem Tells.getElem?_qualified (h : Tells e s) (hp : PairedTable s.table) {a : PointerAttrs}
    {g : Handle} {u : Tag} (hg : g.cons (.pointer a) u ∈ e.pool.nodes)
    (hn : e.table[Component.whole u]? = none) : e.table[Component.qualified a g.tag]? = none := by
  have hc : g ∈ e.pool.nodes := h.valid.mem_child hg (Handle.child?_cons _ u g)
  have hwhole := h.find_eq (c := .whole (g.cons (.pointer a) u)) hg
  have hqual := h.find_eq (c := .qualified a g) hc
  simp only [Component.map_whole, Component.map_qualified, Handle.tag_cons] at hwhole hqual
  rw [hwhole, List.idxOf?_eq_none_iff] at hn
  rw [hqual, List.idxOf?_eq_none_iff]
  exact fun hm => hn (hp a g.type hm)

end Encoder

/-! ### Decoders -/

namespace Decoder

variable {d : Decoder}

/-- Attributes of a pointer are in front of a node for that pointer. -/
def Paired (d : Decoder) : Prop :=
  ∀ (k : Nat) (a : PointerAttrs) (h : Handle), d.table[k]? = some (.qualified a h) →
    ∃ u, d.table[k + 1]? = some (.whole (h.cons (.pointer a) u))

/-- A whole type may follow. -/
theorem Paired.push {p q : Pool} {table : Array (Component Handle)} (hd : Paired ⟨p, table⟩)
    (g : Handle) : Paired ⟨q, table.push (.whole g)⟩ := by
  intro k a h hk
  simp only [Array.getElem?_push] at hk ⊢
  split at hk
  · cases hk
  · obtain ⟨u, hu⟩ := hd k a h hk
    have hlt := (Array.getElem?_eq_some_iff.1 hu).1
    exact ⟨u, (if_neg (Nat.ne_of_lt hlt)).trans hu⟩

/-- Attributes and their pointer may follow. -/
theorem Paired.pushBoth {p : Pool} {table : Array (Component Handle)} (hd : Paired ⟨p, table⟩)
    (q : Pool) (a : PointerAttrs) (h : Handle) (u : Tag) :
    Paired ⟨q, (table.push (.qualified a h)).push (.whole (h.cons (.pointer a) u))⟩ := by
  intro k b g hk
  simp only [Array.getElem?_push, Array.size_push] at hk ⊢
  split at hk
  · cases hk
  · split at hk
    next hk' =>
      cases hk
      exact ⟨u, if_pos (congrArg (· + 1) hk')⟩
    next =>
      obtain ⟨v, hv⟩ := hd k b g hk
      have hlt : k + 1 < table.size := (Array.getElem?_eq_some_iff.1 hv).1
      exact ⟨v, by rw [if_neg (by omega), if_neg (by omega), hv]⟩

/-- A pointer to a stored node is one more node above it. -/
theorem Valid.exists_pointer (hd : d.Valid) (a : PointerAttrs) {h : Handle}
    (hm : h ∈ d.pool.nodes) :
    ∃ u, d.pointer a h = (h.cons (.pointer a) u,
      ⟨(d.pointer a h).2.pool, d.table.push (.whole (h.cons (.pointer a) u))⟩) := by
  have hB := hd.pointer a hm
  have htable : (d.pointer a h).2.table = d.table.push (.whole (d.pointer a h).1) := rfl
  rcases hr : d.pointer a h with ⟨g, q, table⟩
  rw [hr] at hB htable
  obtain rfl : table = d.table.push (.whole g) := htable
  have hg : g ∈ q.nodes := hB.yields.mem
  have ht : g.type = .pointer a h.type := hB.yields.type_eq
  induction g using Handle.ind with
  | leaf l t => exact nomatch congrArg ArgType.links ht
  | cons l t g =>
    rw [Handle.type_cons, ArgType.pointer, ArgType.cons_inj] at ht
    obtain ⟨rfl, ht⟩ := ht
    have hc := hB.yields.valid.mem_child hg (Handle.child?_cons _ t g)
    obtain rfl := hB.yields.valid.eq_of_type_eq hc (hB.yields.grows.mem hm) ht
    exact ⟨t, rfl⟩

theorem invariant_paired : Invariant fun d => d.Valid ∧ d.Paired where
  valid := And.left
  builtin b h := ⟨invariant_valid.builtin b h.1, h.2⟩
  named place h hne := by
    refine ⟨invariant_valid.named place h.1 hne, ?_⟩
    rw [Decoder.named]
    split
    · exact h.2.push _
    · exact h.2
  vector place g h hm hn hs := by
    refine ⟨invariant_valid.vector place h.1 hm hn hs, ?_⟩
    rw [Decoder.vector]
    split
    · exact h.2.push _
    · exact h.2
  pointer a _ h hm := ⟨invariant_valid.pointer a h.1 hm, h.2.push _⟩
  spelled a g h hm := by
    refine ⟨invariant_valid.spelled a h.1 hm, ?_⟩
    obtain ⟨u, hu⟩ := (h.1.record (c := .qualified a g) hm).exists_pointer a hm
    rw [hu]
    exact h.2.pushBoth _ a g u

/-- A pointer that is made from attributes again is the node behind them. -/
theorem Valid.resolve_qualified (hd : d.Valid) (hp : d.Paired) {k : Nat} {a : PointerAttrs}
    {h : Handle} (hk : d.table[k]? = some (.qualified a h)) :
    ∃ g d', d.table[k + 1]? = some (.whole g) ∧
      ∀ place, d.resolve (.pointerTo k place) = (.ok g, d') := by
  have hm : h ∈ d.pool.nodes := hd.mem _ (Array.mem_of_getElem? hk)
  obtain ⟨u, hu⟩ := hp k a h hk
  have hB := hd.pointer a hm
  -- both are nodes of the pool with the same type
  have hg : h.cons (.pointer a) u ∈ (d.pointer a h).2.pool.nodes :=
    hB.yields.grows.mem (hd.mem _ (Array.mem_of_getElem? hu))
  have he : (d.pointer a h).1 = h.cons (.pointer a) u :=
    hB.yields.valid.eq_of_type_eq hB.yields.mem hg hB.yields.type_eq
  refine ⟨h.cons (.pointer a) u, (d.pointer a h).2, hu, fun place => ?_⟩
  simp only [Decoder.resolve, Decoder.component, hk, he]

end Decoder

/-! ### Sessions -/

namespace Session

variable {s : Session}

/-- The attributes of a pointer travel with it, and no encoder refers to them. Of whatever handles
an encoder was given, after every step it has attributes together with what they are about at a
place of its table if and only if these are attributes that have to be spelled out, and the next
place has the pointer with them. When it writes one more handle, it looks up everything before it
records anything, and it does not find the attributes of a pointer that it did not find; what it
writes are links and then a reference to a complete type, or all links and then the leaf; and if the
link in front of the reference is written as a `P` alone, then it is a private pointer and no
qualifier is in its set. A decoder has, in any pool and behind any text, right behind the attributes
of a pointer the node of that pointer; and a `P` in front of a reference to attributes yields that
node again, alone or with openings around it. -/
theorem Reachable.attributes_with_pointer (hs : s.Reachable) :
    (∀ (text : String) (steps : List Encoder.Step), (∀ st ∈ steps, st.handle ∈ s.handles) →
      (Encoder.run text steps).components.length = (Encoder.run text steps).candidates ∧
      (∀ (i : Nat) (a : PointerAttrs) (t : ArgType),
        (Encoder.run text steps).components[i]? = some (.qualified a t) ↔
          (a.space ≠ .privateSpace ∨ a.qualifiers ≠ .empty) ∧
            (Encoder.run text steps).components[i + 1]? = some (.whole (.pointer a t))) ∧
      ∀ st : Encoder.Step, st.handle ∈ s.handles →
        (∀ (g : Handle) (a : PointerAttrs) (u : Tag),
          g.cons (.pointer a) u ∈ (Encoder.run text (steps ++ [st])).pool.nodes →
          (Encoder.run text steps).table[Component.whole u]? = none →
            (Encoder.run text steps).table[Component.qualified a g.tag]? = none) ∧
        ∃ front back, st.handle.type.links = front ++ back ∧
          (∀ l, front.getLast? = some l → l.code = "P" → ∃ b : PointerAttrs,
            l = .pointer b ∧ b.space = .privateSpace ∧ b.qualifiers.toList = []) ∧
          ((∃ i, (Encoder.run text steps).components[i]?
                = some (.whole ⟨back, st.handle.type.leaf⟩) ∧
              (Encoder.run text (steps ++ [st])).text
                = Link.codes (Encoder.run text steps).text front ++ backReference i) ∨
            (back = [] ∧ (Encoder.run text (steps ++ [st])).text
                = Link.codes (Encoder.run text steps).text front ++ st.handle.type.leaf.code))) ∧
    (∀ (i : Nat) (p : Pool), s.pools[i]? = some p → ∀ (cs rest : List Char) (d : Decoder),
      Decoder.Reading (.start p) cs d rest →
      (∀ d' ∈ [d, (d.param rest).2], ∀ (k : Nat) (a : PointerAttrs) (h : Handle),
        d'.table[k]? = some (.qualified a h) →
          ∃ u, d'.table[k + 1]? = some (.whole (h.cons (.pointer a) u))) ∧
      ∀ (k : Nat) (a : PointerAttrs) (h : Handle), d.table[k]? = some (.qualified a h) →
        ∃ g d', d.table[k + 1]? = some (.whole g) ∧
          (∀ place, d.resolve (.pointerTo k place) = (.ok g, d')) ∧
          ∀ front tail, ReferenceText .lenient k front → rest = 'P' :: front ++ tail →
            d.param rest = (.ok (g, tail), d')) := by
  have hsv := hs.valid
  refine ⟨fun text steps hm => ?_, fun i p hp cs rest d hd => ?_⟩
  · have hT := hsv.tells_run text hm
    obtain ⟨hC, hn⟩ := hsv.components_run text hm
    refine ⟨hn, fun i a t => ?_, fun st hst => ?_⟩
    · have hplain : (a.space ≠ .privateSpace ∨ a.qualifiers ≠ .empty) ↔ a ≠ .plain := by
        rw [Ne, Ne, ← Classical.not_and_iff_not_or_not]
        refine not_congr ⟨fun ⟨hsp, hq⟩ => ?_, fun h => h ▸ ⟨rfl, rfl⟩⟩
        obtain ⟨sp, qs⟩ := a
        obtain rfl : sp = .privateSpace := hsp
        obtain rfl : qs = .empty := hq
        rfl
      rw [hC, hplain]
      exact (Transcript.adjacent_run text _).getElem?_iff i a t
    · have hf := hsv.foreign hst
      have hT' := hT.step (Transcript.paired_run text _) hf
      have hrun : Encoder.run text (steps ++ [st]) = (Encoder.run text steps).step st :=
        List.foldl_append
      rw [hrun, hT'.text_eq]
      refine ⟨fun g a u hg hnone => ?_, ?_⟩
      · exact (hT.grow hT'.valid (hT.extends_step hf)).getElem?_qualified
          (Transcript.paired_run text _) hg hnone
      · rw [hC, hT.text_eq]
        obtain ⟨front, back, hlinks, h⟩ := Transcript.exists_text (.run text _) st.handle.type
        exact ⟨front, back, hlinks, fun l _ hl => Link.exists_pointer_of_code hl, h⟩
  · have hstart : (Decoder.start p).Valid ∧ (Decoder.start p).Paired :=
      ⟨Decoder.valid_start (hsv.pool hp).1, fun k a h hk => by simp [Decoder.start] at hk⟩
    have hI := Decoder.invariant_paired.reading hstart hd
    refine ⟨fun d' hd' => ?_, fun k a h hk => ?_⟩
    · have hI' := Decoder.invariant_paired.param hI rest
      rcases List.mem_cons.1 hd' with rfl | hd'
      · exact hI.2
      · obtain rfl := List.mem_singleton.1 hd'
        exact hI'.2
    · obtain ⟨g, d', hg, hr⟩ := hI.1.resolve_qualified hI.2 hk
      refine ⟨g, d', hg, hr, ?_⟩
      rintro front tail hfront rfl
      rw [Decoder.param_eq_descend, Decoder.descend_pointerTo hfront, hr]

/-- A pointer to a named type, whose attributes are written first and then referred to by another
text. -/
theorem attributes_with_pointer_forkedPointers :
    ∃ (g h k : Handle) (p : Pool) (d d' : Decoder),
      forkedPointers.handles[0]? = some g ∧ forkedPointers.handles[1]? = some h ∧
      forkedPointers.pools[0]? = some p ∧
      (Encoder.run "" [.visit h]).components[1]?
        = some (.qualified ⟨.globalSpace, .ofList [.const]⟩ g.type) ∧
      (Encoder.run "" [.visit h]).components[2]? = some (.whole h.type) ∧
      Decoder.Reading (.start p) "PU3AS1K5pointPS0_".toList d "PS0_".toList ∧
      d.table[2]? = some (.whole k) ∧ d.param "PS0_".toList = (.ok (k, []), d') := by
  have hs : forkedPointers.Reachable := ⟨_, rfl⟩
  obtain ⟨g, hg⟩ : ∃ g, forkedPointers.handles[0]? = some g := ⟨_, rfl⟩
  obtain ⟨h, hh⟩ : ∃ h, forkedPointers.handles[1]? = some h := ⟨_, rfl⟩
  obtain ⟨p, hp⟩ : ∃ p, forkedPointers.pools[0]? = some p := ⟨_, rfl⟩
  have hgt : g.type = ⟨[], .named "point"⟩ := by cases hg; rfl
  have hht : h.type = .pointer ⟨.globalSpace, .ofList [.const]⟩ g.type := by
    cases hg; cases hh; rfl
  have hm : ∀ st ∈ [Encoder.Step.visit h], st.handle ∈ forkedPointers.handles := by
    simp [Encoder.Step.handle, Array.mem_of_getElem? hh]
  have hnames : ∀ st ∈ [Encoder.Step.visit h], ∀ name, st.handle.type.leaf = .named name →
      ¬StartsWithDigit name ∧ name ∉ opaqueNames ∧ name.utf8ByteSize < textBound := by
    simp only [List.forall_mem_singleton, Encoder.Step.handle, hht, hgt]
    rintro name ⟨⟩
    decide
  have htext : (Encoder.run "" [.visit h]).text = "PU3AS1K5point" := by
    rw [(hs.valid.tells_run "" hm).text_eq]
    simp only [List.map_cons, List.map_nil, Encoder.Step.handle, hht, hgt]
    decide +kernel
  have htable : (Encoder.run "" [.visit h]).components[1]?
      = some (.qualified ⟨.globalSpace, .ofList [.const]⟩ g.type) := by
    rw [(hs.valid.components_run "" hm).1]
    simp only [List.map_cons, List.map_nil, Encoder.Step.handle, hht, hgt]
    decide +kernel
  have hknown : ∀ st ∈ [Encoder.Step.visit h], st.handle.type.Known := by
    rw [List.forall_mem_singleton, Encoder.Step.handle, hht, hgt]
    decide
  obtain ⟨w, hw, hreading⟩ := hs.lockstep_run "" hm hnames hknown (by rw [htext]; decide) hp
  obtain rfl : "PU3AS1K5point" = w := by rw [← htext, hw]; simp
  obtain ⟨d, hd, hv, htypes⟩ := hreading "PS0_".toList
  rw [← htypes] at htable
  obtain ⟨k, -, hk, -⟩ := hv.exists_qualified htable
  rw [htypes] at htable
  have hr : ReferenceText .lenient 1 (backReference 1).toList :=
    (referenceText_backReference (by decide)).lenient
  obtain ⟨-, hiff, -⟩ := hs.attributes_with_pointer.1 "" _ hm
  have hnext := ((hiff _ _ _).1 htable).2
  obtain ⟨k', d', hk', -, hparam⟩ := (hs.attributes_with_pointer.2 0 p hp _ _ d hd).2 1 _ k hk
  rw [← hht] at hnext
  exact ⟨g, h, k', p, d, d', hg, hh, hp, htable, hnext, hd, hk',
    hparam _ [] hr (by decide +kernel)⟩

/-- A `P` in front of a reference is also written for a pointer whose set has only bits that belong
to no qualifier, though such a pointer does not go without attributes. -/
theorem attributes_with_pointer_sparePointer : ∃ g h : Handle,
    sparePointer.handles[0]? = some g ∧ sparePointer.handles[1]? = some h ∧
      (Encoder.run "" [.param g]).components[0]? = some (.whole g.type) ∧
      (Encoder.run "" [.param g, .param h]).text
        = (Encoder.run "" [.param g]).text ++ "P" ++ backReference 0 ∧
      h.type = .pointer ⟨.privateSpace, ⟨8⟩⟩ g.type ∧ (⟨8⟩ : QualifierSet) ≠ .empty ∧
      .qualified ⟨.privateSpace, ⟨8⟩⟩ g.type
        ∈ (Encoder.run "" [.param g, .param h]).components := by
  obtain ⟨g, h, p, hg, hh, -, hgt, hht⟩ := exists_sparePointer
  obtain ⟨htext, hcomponents, htext', hcomponents'⟩ := run_sparePointer hg hh
  refine ⟨g, h, hg, hh, by rw [hcomponents]; rfl, by rw [htext, htext']; rfl, ?_, by decide, ?_⟩
  · rw [hht, hgt]
    rfl
  · rw [hcomponents']
    exact List.mem_cons_of_mem _ List.mem_cons_self

end Session

end KernelSymbol
