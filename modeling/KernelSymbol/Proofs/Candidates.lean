import KernelSymbol.Proofs.Closure
import KernelSymbol.Proofs.Pairing

/-!
# What enters the table of an encoder

A component is recorded when its text is complete, in a recursion that a reference may cut short on
any level. Nothing is missed by that: with every type, a transcript has recorded all components of
that type, so those of a type that is referred to were recorded before. After any types, the table
holds the components of these types, each of them once.

What they are can be said without the table. Every sub-chain that is not a builtin is one, and so
are the attributes of every pointer that has some to spell out. A step refers to its type, and does
nothing else, if and only if the type is such a sub-chain of an earlier one.

Places are never given up, whatever the encoder is asked to write. This needs no invariant: a
component is recorded only where there is none.

## Main definitions

* `ArgType.isQualified` — pointers whose attributes are spelled out
* `Component.owner`, `Component.Due` — the type that a component is recorded with, and whether it is
* `Encoder.Continues` — a later state of an encoder
* `Encoder.subchains` — the sub-chains of what some steps write

## Main results

* `ArgType.mem_components_iff` — the components of a type, by its sub-chains
* `Transcript.mem_table_run_iff`, `Transcript.length_table_run_eq` — the table after some types
* `Transcript.refers_iff` — when a type is referred to
* `Encoder.continues_foldl` — texts are continued, and places are kept
* `Session.Reachable.table_closed_form` — the table of an encoder, in all states of a session
-/

namespace KernelSymbol

/-! ### Components and sub-chains -/

/-- Whether a type is a pointer that leaves the private space or has a qualifier. -/
def ArgType.isQualified (t : ArgType) : Bool :=
  match t.links with
  | .pointer a :: _ => a.space ≠ .privateSpace || a.qualifiers ≠ .empty
  | _ => false

theorem ArgType.isQualified_pointer (a : PointerAttrs) (t : ArgType) :
    (pointer a t).isQualified = !a.isPlain := by
  rw [Bool.eq_iff_iff]
  simp [isQualified, pointer, PointerAttrs.isPlain, ← Bool.not_eq_true,
    Classical.or_iff_not_imp_left]

theorem PointerAttrs.mem_component_iff {a : PointerAttrs} {t : ArgType} {c : Component ArgType} :
    c ∈ a.component t ↔ a.isPlain = false ∧ c = .qualified a t := by
  cases h : a.isPlain <;> simp [component, h]

theorem ArgType.exists_of_isQualified {t : ArgType} (h : t.isQualified = true) :
    ∃ a u, t = pointer a u := by
  rcases t with ⟨_ | ⟨a | n, ls⟩, l⟩
  · cases h
  · exact ⟨a, ⟨ls, l⟩, rfl⟩
  · cases h

theorem ArgType.exists_of_kind_eq_primitive {t : ArgType} (h : t.kind = .primitive) :
    ∃ b, t = builtin b := by
  rcases t with ⟨_ | ⟨a | n, ls⟩, b | name⟩
  · exact ⟨b, rfl⟩
  all_goals cases h

theorem ArgType.kind_cons_ne_primitive (l : Link) (t : ArgType) : (cons l t).kind ≠ .primitive := by
  rw [kind_cons]
  cases l <;> simp [Link.kind]

/-- No builtin is written like a reference. -/
theorem Builtin.code_ne_backReference (b : Builtin) (i : Nat) : b.code ≠ backReference i := by
  intro h
  have hS : (backReference i).toList.head? = some 'S' := by
    rw [toList_backReference]
    rfl
  have hne : ∀ b ∈ all, b.code.toList.head? ≠ some 'S' := by decide +kernel
  exact hne b b.mem_all (h ▸ hS)

namespace Component

/-- Whether a component is recorded when its owner is written out. -/
def Due : Component ArgType → Prop
  | whole t => t.kind ≠ .primitive
  | qualified a t => (ArgType.pointer a t).isQualified = true

/-- Whether a component is a type, and not the attributes of one. -/
def isWhole : Component ArgType → Bool
  | whole _ => true
  | qualified .. => false

/-- A component is known by its sort and its owner. -/
theorem eq_of_owner_eq {c d : Component ArgType} (hw : c.isWhole = d.isWhole)
    (h : c.owner = d.owner) : c = d := by
  cases c with
  | whole t =>
    cases d with
    | whole u => exact congrArg whole h
    | qualified b u => cases hw
  | qualified a t =>
    cases d with
    | whole u => cases hw
    | qualified b u =>
      obtain ⟨rfl, rfl⟩ := ArgType.pointer_inj.1 h
      rfl

/-- Among components of one sort, as many types have some as there are components. -/
theorem card_image_owner {A : Finset (Component ArgType)} {w : Bool}
    (hA : ∀ c ∈ A, c.isWhole = w) : (A.image owner).card = A.card :=
  Finset.card_image_of_injOn fun c hc d hd h =>
    eq_of_owner_eq ((hA c hc).trans (hA d hd).symm) h

end Component

namespace ArgType

/-- One more node adds the components that are recorded with it. -/
theorem mem_components_cons_iff {c : Component ArgType} {l : Link} {t : ArgType} :
    c ∈ (cons l t).components ↔ c ∈ t.components ∨ (c.owner = cons l t ∧ c.Due) := by
  cases l with
  | vector n =>
    rw [components_vector, List.mem_append, List.mem_singleton]
    constructor
    · rintro (h | rfl)
      · exact .inl h
      · exact .inr ⟨rfl, kind_cons_ne_primitive _ t⟩
    · rintro (h | ⟨ho, -⟩)
      · exact .inl h
      · cases c with
        | whole u => exact .inr (congrArg Component.whole ho)
        | qualified a u => cases (cons_inj.1 ho).1
  | pointer a =>
    change c ∈ (pointer a t).components ↔ _
    rw [components_pointer, List.mem_append, List.mem_append, List.mem_singleton]
    constructor
    · rintro ((h | h) | rfl)
      · exact .inl h
      · obtain ⟨hp, rfl⟩ := PointerAttrs.mem_component_iff.1 h
        exact .inr ⟨rfl, by rw [Component.Due, isQualified_pointer, hp]; rfl⟩
      · exact .inr ⟨rfl, kind_cons_ne_primitive _ t⟩
    · rintro (h | ⟨ho, hd⟩)
      · exact .inl (.inl h)
      · cases c with
        | whole u => exact .inr (congrArg Component.whole ho)
        | qualified b u =>
          obtain ⟨rfl, rfl⟩ := pointer_inj.1 ho
          rw [Component.Due, isQualified_pointer, Bool.not_eq_true'] at hd
          exact .inl (.inr (PointerAttrs.mem_component_iff.2 ⟨hd, rfl⟩))

/-- The components of a type are recorded with its sub-chains. -/
theorem mem_components_iff {c : Component ArgType} {t : ArgType} :
    c ∈ t.components ↔ c.owner ∈ t.subchains ∧ c.Due := by
  induction t using ind with
  | leaf l =>
    rw [subchains_leaf, List.mem_singleton]
    cases l with
    | builtin b =>
      refine iff_of_false List.not_mem_nil fun ⟨ho, hd⟩ => ?_
      cases c with
      | whole u => exact hd (congrArg kind ho)
      | qualified a u => cases congrArg links ho
    | named name =>
      rw [components_named, List.mem_singleton]
      refine ⟨?_, fun ⟨ho, _⟩ => ?_⟩
      · rintro rfl
        exact ⟨rfl, nofun⟩
      · cases c with
        | whole u => exact congrArg Component.whole ho
        | qualified a u => cases congrArg links ho
  | cons l t ih =>
    rw [mem_components_cons_iff, ih, subchains_cons, List.mem_cons, or_and_right, or_comm]

end ArgType

/-! ### Transcripts -/

namespace Transcript

variable {s : Transcript} {t : ArgType}

/-- A closed table stays closed, and holds all components of a type that is referred to or spelled
and then recorded. -/
theorem closed_refer {spell : Transcript → Transcript} (h : ClosedTable s.table)
    (hin : ClosedTable (spell s).table)
    (ht : t.components ⊆ (spell s).table ++ [.whole t]) :
    ClosedTable (s.refer t spell).table ∧ t.components ⊆ (s.refer t spell).table := by
  rcases refer_cases s t spell with ⟨i, hi, he⟩ | ⟨-, he⟩ <;> rw [he]
  · exact ⟨h, h _ (List.mem_of_getElem? hi)⟩
  · exact ⟨hin.whole ht, ht⟩

theorem closed_type (h : ClosedTable s.table) (t : ArgType) :
    ClosedTable (s.type t).table ∧ t.components ⊆ (s.type t).table := by
  induction t using ArgType.ind generalizing s with
  | leaf l =>
    cases l with
    | builtin b => exact ⟨h, List.nil_subset _⟩
    | named name => exact closed_refer h h (List.subset_append_right ..)
  | cons l t ih =>
    cases l with
    | vector n =>
      obtain ⟨hin, ht⟩ := ih (s := s.write (vectorCode n)) h
      rw [type_vector]
      exact closed_refer h hin (ArgType.components_vector_subset ht)
    | pointer a =>
      obtain ⟨hin, ht⟩ := ih (s := s.write ("P" ++ a.code)) h
      rw [show ArgType.cons (.pointer a) t = .pointer a t from rfl, type_pointer]
      by_cases hp : a.isPlain = true
      · have ha : a.component t = [] := if_pos hp
        have hsub := ArgType.components_pointer_subset ht (ha ▸ List.nil_subset _)
        simp only [hp, if_true]
        exact closed_refer h hin hsub
      · have hsub := ArgType.components_pointer_subset (List.subset_append_of_subset_left _ ht)
          (List.subset_append_of_subset_right _ (a.component_subset t))
        simp only [hp]
        exact closed_refer h (hin.qualified ht) hsub

theorem components_subset_foldl {ts : List ArgType} (h : ClosedTable s.table) :
    ∀ t ∈ ts, t.components ⊆ (ts.foldl type s).table := by
  induction ts generalizing s with
  | nil => exact List.forall_mem_nil _
  | cons t ts ih =>
    obtain ⟨hclosed, ht⟩ := closed_type h t
    exact List.forall_mem_cons.2
      ⟨List.Subset.trans ht table_prefix_foldl.subset, ih hclosed⟩

section

variable (text : String) (ts : List ArgType)

theorem closed_run : ClosedTable (run text ts).table :=
  run_ind (I := fun s => ClosedTable s.table) text ts closedTable_nil fun h t => (closed_type h t).1

theorem mem_table_run_iff {c : Component ArgType} :
    c ∈ (run text ts).table ↔ c.owner ∈ ts.flatMap ArgType.subchains ∧ c.Due := by
  have hmem : c ∈ (run text ts).table ↔ ∃ t ∈ ts, c ∈ t.components := by
    refine ⟨fun h => (mem_table_foldl h).resolve_left List.not_mem_nil, fun ⟨t, ht, hc⟩ => ?_⟩
    exact components_subset_foldl (s := start text) closedTable_nil t ht hc
  rw [hmem, List.mem_flatMap]
  simp only [ArgType.mem_components_iff]
  exact ⟨fun ⟨t, ht, ho, hd⟩ => ⟨⟨t, ht, ho⟩, hd⟩, fun ⟨⟨t, ht, ho⟩, hd⟩ => ⟨t, ht, ho, hd⟩⟩

/-- The components are the sub-chains that are not builtins and the attributes of the pointers that
have some, each of them once. -/
theorem length_table_run_eq : (run text ts).table.length =
    ((ts.flatMap ArgType.subchains).toFinset.filter fun t => t.kind ≠ .primitive).card +
      ((ts.flatMap ArgType.subchains).toFinset.filter fun t => t.isQualified = true).card := by
  rw [← List.toFinset_card_of_nodup (nodup_run text ts),
    ← Finset.card_filter_add_card_filter_not fun c : Component ArgType => c.isWhole = true,
    ← Component.card_image_owner (w := true) (by simp),
    ← Component.card_image_owner (w := false) (by simp)]
  congr 2
  · ext t
    simp only [Finset.mem_image, Finset.mem_filter, List.mem_toFinset, mem_table_run_iff]
    constructor
    · rintro ⟨c, ⟨⟨ho, hd⟩, hw⟩, rfl⟩
      cases c with
      | whole u => exact ⟨ho, hd⟩
      | qualified a u => cases hw
    · rintro ⟨ht, hk⟩
      exact ⟨.whole t, ⟨⟨ht, hk⟩, rfl⟩, rfl⟩
  · ext t
    simp only [Finset.mem_image, Finset.mem_filter, List.mem_toFinset, mem_table_run_iff]
    constructor
    · rintro ⟨c, ⟨⟨ho, hd⟩, hw⟩, rfl⟩
      cases c with
      | whole u => cases hw rfl
      | qualified a u => exact ⟨ho, hd⟩
    · rintro ⟨ht, hq⟩
      obtain ⟨a, u, rfl⟩ := ArgType.exists_of_isQualified hq
      exact ⟨.qualified a u, ⟨⟨ht, hq⟩, nofun⟩, rfl⟩

/-- A type is referred to, and nothing is recorded, if and only if it is in the table. -/
theorem refers_iff (t : ArgType) :
    ((∃ i, ((run text ts).type t).text = (run text ts).text ++ backReference i) ∧
        ((run text ts).type t).table = (run text ts).table) ↔
      .whole t ∈ (run text ts).table := by
  constructor
  · rintro ⟨⟨i, htext⟩, htable⟩
    by_cases hk : t.kind = .primitive
    · -- a builtin is written in full, and no builtin is written like a reference
      obtain ⟨b, rfl⟩ := ArgType.exists_of_kind_eq_primitive hk
      rw [type_builtin, text_write, String.append_right_inj] at htext
      exact absurd htext (b.code_ne_backReference i)
    · rw [← htable]
      exact (closed_type (closed_run text ts) t).2
        (ArgType.mem_components_iff.2 ⟨t.mem_subchains_self, hk⟩)
  · intro hm
    have hk : t.kind ≠ .primitive := ((mem_table_run_iff text ts).1 hm).2
    obtain ⟨i, hi⟩ := Option.isSome_iff_exists.1 (List.isSome_idxOf?.2 hm)
    rw [type_of_some (fun b he => hk (congrArg ArgType.kind he)) hi]
    exact ⟨⟨i, rfl⟩, rfl⟩

end

end Transcript

/-! ### Encoders -/

namespace Encoder

/-- An encoder that has written on: the text goes on, and whatever had a place has it still. -/
structure Continues (e e' : Encoder) : Prop where
  text : ∃ w, e'.text = e.text ++ w
  place : ∀ {k : Component Tag} {i : Nat}, e.table[k]? = some i → e'.table[k]? = some i

variable {e e' e'' : Encoder}

theorem Continues.refl (e : Encoder) : Continues e e := ⟨⟨"", (String.append_empty).symm⟩, id⟩

theorem Continues.trans (h : Continues e e') (h' : Continues e' e'') : Continues e e'' := by
  obtain ⟨v, hv⟩ := h.text
  obtain ⟨w, hw⟩ := h'.text
  exact ⟨⟨v ++ w, by rw [hw, hv, String.append_assoc]⟩, fun hk => h'.place (h.place hk)⟩

theorem continues_write (e : Encoder) (text : String) : Continues e (e.write text) :=
  ⟨⟨text, rfl⟩, id⟩

/-- A component that has a place is not recorded again. -/
theorem continues_record (e : Encoder) (c : Component Tag) : Continues e (e.record c) := by
  refine ⟨⟨"", (String.append_empty).symm⟩, fun {k i} hk => ?_⟩
  have hm : k ∈ e.table := Std.HashMap.mem_iff_isSome_getElem?.2 (by rw [hk]; rfl)
  rw [record, Std.HashMap.getElem?_insertIfNew, if_neg, hk]
  rintro ⟨hck, hn⟩
  exact hn (eq_of_beq hck ▸ hm)

theorem continues_recordAll (e : Encoder) (cs : List (Component Tag)) :
    Continues e (e.recordAll cs) := by
  induction cs generalizing e with
  | nil => exact .refl e
  | cons c cs ih => exact (continues_record e c).trans (ih (e.record c))

theorem continues_emit (leaf : Leaf) (leafTag : Tag) (e : Encoder)
    (pending : List (Component Tag)) (links : List (Link × Tag)) :
    Continues e (emit leaf leafTag e pending links) := by
  have written : ∀ (e : Encoder) (text : String) (cs : List (Component Tag)),
      Continues e ((e.write text).recordAll cs) := fun e text cs =>
    (continues_write e text).trans (continues_recordAll _ cs)
  induction links generalizing e pending with
  | nil =>
    rw [emit.eq_def]
    dsimp only
    split
    next => exact written ..
    next => split <;> exact written ..
  | cons l links ih =>
    obtain ⟨link, tag⟩ := l
    have further : ∀ (text : String) (cs : List (Component Tag)),
        Continues e (emit leaf leafTag (e.write text) cs links) := fun text cs =>
      (continues_write e text).trans (ih _ cs)
    rw [emit.eq_def]
    dsimp only
    split
    next => exact written ..
    next =>
      split
      next => exact further ..
      next =>
        split
        next => exact further ..
        next =>
          split
          next => exact written ..
          next => exact further ..

/-- Steps continue what was written, whatever it was and whatever they write. -/
theorem continues_step (e : Encoder) (st : Step) : Continues e (e.step st) := by
  have node : ∀ (p : Pool) (h : Handle), Continues e (Encoder.node ⟨e.text, p, e.table⟩ h) :=
    fun p h => ⟨(continues_emit ..).text, (continues_emit _ _ ⟨e.text, p, e.table⟩ [] _).place⟩
  cases st with
  | param g => exact node ..
  | visit g =>
    obtain ⟨_ | ⟨l, ls⟩, b | name, t⟩ := g
    · exact continues_write e b.code
    all_goals exact node ..

theorem continues_foldl (e : Encoder) (steps : List Step) :
    Continues e (steps.foldl Encoder.step e) := by
  induction steps generalizing e with
  | nil => exact .refl e
  | cons st steps ih => exact (continues_step e st).trans (ih (e.step st))

theorem run_append (text : String) (steps more : List Step) :
    run text (steps ++ more) = more.foldl Encoder.step (run text steps) := List.foldl_append

variable {s : Transcript}

theorem node_of_some {h : Handle} {i : Nat} (hk : h.type.kind ≠ .primitive)
    (hi : e.table[Component.whole h.tag]? = some i) : e.node h = e.write (backReference i) := by
  cases h using Handle.ind with
  | leaf l t =>
    cases l with
    | builtin b => exact absurd rfl hk
    | named name => exact node_named_of_some hi
  | cons l t h => exact node_cons_of_some hi

/-- A node whose type is in the table of the transcript is referred to. -/
theorem Tells.table_node (h : Tells e s) {g : Handle} (hg : g ∈ e.pool.nodes)
    (hk : g.type.kind ≠ .primitive) (hm : .whole g.type ∈ s.table) :
    (e.node g).table = e.table := by
  obtain ⟨i, hi⟩ := Option.isSome_iff_exists.1 (List.isSome_idxOf?.2 hm)
  rw [node_of_some hk ((h.find_eq (c := .whole g) hg).trans hi)]
  rfl

/-- A step records nothing when its type is in the table of the transcript. -/
theorem Tells.table_step (h : Tells e s) {st : Step} (hf : st.handle.Foreign .encoder)
    (hk : st.handle.type.kind ≠ .primitive) (hm : .whole st.handle.type ∈ s.table) :
    (e.step st).table = e.table := by
  have hknows := h.knows hf
  cases st with
  | param g =>
    have hc := h.valid.canon hknows
    rw [← hc.type_eq] at hk hm
    exact (h.grow hc.valid hc.grows).table_node hc.mem hk hm
  | visit g =>
    have hi := h.valid.intern hknows
    rw [← hi.type_eq] at hk hm
    have hn := (h.grow hi.valid hi.grows).table_node hi.mem hk hm
    obtain ⟨_ | ⟨l, ls⟩, b | name, t⟩ := g
    · rfl
    all_goals exact hn

/-- The sub-chains of what some steps write, each of them once. -/
def subchains (steps : List Step) : Finset ArgType :=
  (steps.flatMap fun st => st.handle.type.subchains).toFinset

end Encoder

/-! ### Sessions -/

namespace Session

variable {s : Session}

/-- The table of an encoder in closed form. Whatever handles it was given, and behind any text, the
places in its table are the numbers below the number of candidates, and each of them is taken once.
There are as many candidates as there are different pointers, vectors and named types among the
sub-chains of what was written, and one more for each of those pointers that leaves the private
space or has a qualifier. Further steps only add text at the end, and leave every place as it is.
And a step adds a single reference and leaves the table as it is if and only if its type is a
pointer, a vector or a named type, and a sub-chain of the type of an earlier step. -/
theorem Reachable.table_closed_form (hs : s.Reachable) (text : String)
    {steps : List Encoder.Step} (hm : ∀ st ∈ steps, st.handle ∈ s.handles) :
    (∀ i, (∃ k : Component Tag, (Encoder.run text steps).table[k]? = some i) ↔
      i < (Encoder.run text steps).candidates) ∧
    (∀ (k k' : Component Tag) (i : Nat), (Encoder.run text steps).table[k]? = some i →
      (Encoder.run text steps).table[k']? = some i → k = k') ∧
    (Encoder.run text steps).candidates =
      ((Encoder.subchains steps).filter fun t => t.kind ≠ .primitive).card +
        ((Encoder.subchains steps).filter fun t => t.isQualified = true).card ∧
    (∀ more : List Encoder.Step,
      (∃ w, (Encoder.run text (steps ++ more)).text = (Encoder.run text steps).text ++ w) ∧
      ∀ (k : Component Tag) (i : Nat), (Encoder.run text steps).table[k]? = some i →
        (Encoder.run text (steps ++ more)).table[k]? = some i) ∧
    ∀ st : Encoder.Step, st.handle ∈ s.handles →
      (((∃ i, (Encoder.run text (steps ++ [st])).text
            = (Encoder.run text steps).text ++ backReference i) ∧
          (Encoder.run text (steps ++ [st])).table = (Encoder.run text steps).table) ↔
        st.handle.type.kind ≠ .primitive ∧
          ∃ st' ∈ steps, st.handle.type ∈ st'.handle.type.subchains) := by
  have hT := hs.valid.tells_run text hm
  have hd := Transcript.nodup_run text (steps.map fun st => st.handle.type)
  refine ⟨hT.exists_place_iff hd, fun k k' i => hT.eq_of_place_eq hd, ?_, fun more => ?_,
    fun st hst => ?_⟩
  · rw [Encoder.candidates, hT.size_eq, Transcript.length_table_run_eq, List.flatMap_map]
    rfl
  · rw [Encoder.run_append]
    have hc := Encoder.continues_foldl (Encoder.run text steps) more
    exact ⟨hc.text, fun k i => hc.place⟩
  · have hf := hs.valid.foreign hst
    have hT' := hT.step (Transcript.paired_run text _) hf
    have hmem : .whole st.handle.type ∈
          (Transcript.run text (steps.map fun st => st.handle.type)).table ↔
        st.handle.type.kind ≠ .primitive ∧
          ∃ st' ∈ steps, st.handle.type ∈ st'.handle.type.subchains := by
      rw [Transcript.mem_table_run_iff, List.flatMap_map, List.mem_flatMap, and_comm]
      rfl
    have hrun : Encoder.run text (steps ++ [st]) = (Encoder.run text steps).step st :=
      Encoder.run_append text steps [st]
    rw [hrun, ← hmem, hT'.text_eq, hT.text_eq, ← Transcript.refers_iff]
    refine and_congr_right fun hi => ⟨fun htable => ?_, fun htable => ?_⟩
    · -- the transcript records nothing if its table does not get longer
      have hlen := congrArg Std.HashMap.size htable
      rw [hT'.size_eq, hT.size_eq] at hlen
      exact ((Transcript.table_prefix_type _ _).eq_of_length hlen.symm).symm
    · have hw := (Transcript.refers_iff text _ _).1 ⟨hi, htable⟩
      exact hT.table_step hf (hmem.1 hw).1 hw

/-- Two nodes for one pointer: the first is written with two types and the attributes of one of
them, and the second is a reference. -/
theorem table_closed_form_forkedPointers : ∃ g h : Handle,
    forkedPointers.handles[1]? = some g ∧ forkedPointers.handles[2]? = some h ∧
      g.sameNode h = false ∧ (Encoder.run "" [.param g]).candidates = 3 ∧
      (∃ k : Component Tag, (Encoder.run "" [.param g]).table[k]? = some 2) ∧
      (∃ i, (Encoder.run "" [.param g, .visit h]).text
        = (Encoder.run "" [.param g]).text ++ backReference i) ∧
      (Encoder.run "" [.param g, .visit h]).table = (Encoder.run "" [.param g]).table := by
  have hs : forkedPointers.Reachable := ⟨_, rfl⟩
  obtain ⟨g, hg⟩ : ∃ g, forkedPointers.handles[1]? = some g := ⟨_, rfl⟩
  obtain ⟨h, hh⟩ : ∃ h, forkedPointers.handles[2]? = some h := ⟨_, rfl⟩
  have hn : g.sameNode h = false := by
    cases hg
    cases hh
    rfl
  have hgt : g.type = ⟨[.pointer ⟨.globalSpace, .ofList [.const]⟩], .named "point"⟩ := by
    cases hg
    rfl
  have hht : h.type = g.type := by
    cases hg
    cases hh
    rfl
  have hm : ∀ st ∈ [Encoder.Step.param g], st.handle ∈ forkedPointers.handles := by
    simp [Encoder.Step.handle, Array.mem_of_getElem? hg]
  obtain ⟨hplace, -, hsize, -, hstep⟩ := hs.table_closed_form "" hm
  have hcard : (Encoder.run "" [.param g]).candidates = 3 := by
    rw [hsize]
    simp only [Encoder.subchains, List.flatMap_cons, List.flatMap_nil, Encoder.Step.handle, hgt]
    decide +kernel
  have hiff := hstep (.visit h) (Array.mem_of_getElem? hh)
  obtain ⟨href, htable⟩ := hiff.2 ⟨by rw [Encoder.Step.handle, hht, hgt]; decide,
    .param g, List.mem_singleton_self _, hht ▸ g.type.mem_subchains_self⟩
  exact ⟨g, h, hg, hh, hn, hcard, (hplace 2).2 (by rw [hcard]; decide), href, htable⟩

end Session

end KernelSymbol
