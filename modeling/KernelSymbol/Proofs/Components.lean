import KernelSymbol.ArgType.WellFormed
import KernelSymbol.Symbol.Component

/-!
# The components of a type

What a type adds to a table of components if it is written out in full: its pointers, its vector
and its named type, from the innermost outwards, and in front of each pointer its attributes
unless it is plain. A table that holds, with every component, the components below it answers
every look-up that a part of one of its types can ask.

## Main definitions

* `ArgType.components` — what a type adds to a table
* `ClosedTable` — a table that holds the components below its own
* `PairedTable` — a table that holds, with the attributes of a pointer, the pointer

## Main results

* `ArgType.depth_of_mem_components` — a component is no deeper than its type
* `ArgType.whole_cons_not_mem_components` — a type is no component of what is below it
-/

namespace KernelSymbol

/-- The component that the attributes of a pointer make, unless they go without saying. -/
def PointerAttrs.component (a : PointerAttrs) (t : ArgType) : List (Component ArgType) :=
  if a.isPlain then [] else [.qualified a t]

@[simp] theorem PointerAttrs.component_plain (t : ArgType) : plain.component t = [] := rfl

theorem PointerAttrs.component_subset (a : PointerAttrs) (t : ArgType) :
    a.component t ⊆ [.qualified a t] := by
  rw [component]
  split
  · exact List.nil_subset _
  · exact List.Subset.refl _

namespace ArgType

/-- The components of a type, in the order in which they are completed. -/
def components (t : ArgType) : List (Component ArgType) := go t.links
where
  /-- The components above a suffix of the links. -/
  go : List Link → List (Component ArgType)
    | [] =>
      match t.leaf with
      | .builtin _ => []
      | .named _ => [.whole ⟨[], t.leaf⟩]
    | .vector n :: rest => go rest ++ [.whole ⟨.vector n :: rest, t.leaf⟩]
    | .pointer a :: rest =>
      go rest ++ a.component ⟨rest, t.leaf⟩ ++ [.whole ⟨.pointer a :: rest, t.leaf⟩]

private theorem components_go {s t : ArgType} (h : s.leaf = t.leaf) (ls : List Link) :
    components.go s ls = components.go t ls := by
  induction ls with
  | nil => simp only [components.go, h]
  | cons l ls ih => cases l <;> simp only [components.go, h, ih]

@[simp] theorem components_builtin (b : Builtin) : components (builtin b) = [] := rfl

@[simp] theorem components_named (name : String) :
    components ⟨[], .named name⟩ = [.whole ⟨[], .named name⟩] := rfl

theorem components_vector (n : UInt32) (t : ArgType) :
    (cons (.vector n) t).components = t.components ++ [.whole (cons (.vector n) t)] := by
  rw [components, links_cons, components.go, components_go (leaf_cons _ t)]
  rfl

theorem components_pointer (a : PointerAttrs) (t : ArgType) :
    (pointer a t).components = t.components ++ a.component t ++ [.whole (pointer a t)] := by
  rw [components, pointer, links_cons, components.go, components_go (leaf_cons _ t)]
  rfl

theorem components_vector_subset {n : UInt32} {t : ArgType} {table : List (Component ArgType)}
    (ht : t.components ⊆ table) :
    (cons (.vector n) t).components ⊆ table ++ [.whole (cons (.vector n) t)] := by
  rw [components_vector]
  exact List.append_subset.2
    ⟨List.subset_append_of_subset_left _ ht, List.subset_append_right ..⟩

theorem components_pointer_subset {a : PointerAttrs} {t : ArgType}
    {table : List (Component ArgType)} (ht : t.components ⊆ table) (ha : a.component t ⊆ table) :
    (pointer a t).components ⊆ table ++ [.whole (pointer a t)] := by
  rw [components_pointer]
  exact List.append_subset.2
    ⟨List.subset_append_of_subset_left _ (List.append_subset.2 ⟨ht, ha⟩),
      List.subset_append_right ..⟩

/-- A component is no deeper than its type, and attributes are those of a pointer that is a
component too. -/
theorem depth_of_mem_components {t : ArgType} {c : Component ArgType} (h : c ∈ t.components) :
    c.node.depth ≤ t.depth ∧ ∀ a s, c = .qualified a s → .whole (pointer a s) ∈ t.components := by
  induction t using ind with
  | leaf l =>
    cases l with
    | builtin b => cases h
    | named name =>
      obtain rfl := List.mem_singleton.1 h
      exact ⟨Nat.le_refl _, by simp⟩
  | cons l t ih =>
    have below : c ∈ t.components → c.node.depth ≤ t.depth + 1 ∧
        ∀ a s, c = .qualified a s → .whole (pointer a s) ∈ t.components :=
      fun hc => ⟨Nat.le_succ_of_le (ih hc).1, (ih hc).2⟩
    cases l with
    | vector n =>
      rw [components_vector, List.mem_append, List.mem_singleton] at h
      rw [components_vector]
      rcases h with h | rfl
      · exact ⟨(below h).1, fun a s e => List.mem_append_left _ ((below h).2 a s e)⟩
      · exact ⟨Nat.le_refl _, by simp⟩
    | pointer b =>
      rw [show cons (.pointer b) t = pointer b t from rfl] at h ⊢
      rw [components_pointer, List.mem_append, List.mem_append, List.mem_singleton] at h
      rw [components_pointer]
      rcases h with (h | h) | rfl
      · exact ⟨(below h).1, fun a s e => by simp [(below h).2 a s e]⟩
      · obtain rfl : c = .qualified b t := by
          rw [PointerAttrs.component] at h
          split at h
          · cases h
          · exact List.mem_singleton.1 h
        refine ⟨Nat.le_succ _, fun a s e => ?_⟩
        cases e
        simp
      · exact ⟨Nat.le_refl _, by simp⟩

theorem builtin_not_mem_components (b : Builtin) (t : ArgType) :
    .whole (builtin b) ∉ t.components := by
  induction t using ind with
  | leaf l => cases l <;> simp [builtin, components, components.go]
  | cons l t ih =>
    have hne : builtin b ≠ cons l t := fun h => List.cons_ne_nil _ _ (congrArg links h).symm
    cases l with
    | vector n => simpa [components_vector, hne] using ih
    | pointer a =>
      have ha : .whole (builtin b) ∉ a.component t := fun h => by
        simpa using a.component_subset t h
      have hne : builtin b ≠ pointer a t := hne
      rw [show cons (.pointer a) t = pointer a t from rfl, components_pointer]
      simp [ih, ha, hne]

theorem whole_cons_not_mem_components (l : Link) (t : ArgType) :
    .whole (cons l t) ∉ t.components := fun h =>
  absurd (depth_of_mem_components h).1 (Nat.not_succ_le_self _)

theorem qualified_not_mem_components (a : PointerAttrs) (t : ArgType) :
    .qualified a t ∉ t.components := fun h =>
  whole_cons_not_mem_components (.pointer a) t ((depth_of_mem_components h).2 a t rfl)

end ArgType

/-- In a table without repetitions, a component is found where it is. -/
theorem idxOf?_eq_some_iff_of_nodup {table : List (Component ArgType)} (hd : table.Nodup) {i : Nat}
    {c : Component ArgType} : table.idxOf? c = some i ↔ table[i]? = some c := by
  constructor
  · intro h
    obtain ⟨hi, he, -⟩ := List.idxOf?_eq_some_iff.1 h
    rw [List.getElem?_eq_getElem hi, he]
  · intro h
    obtain ⟨hi, he⟩ := List.getElem?_eq_some_iff.1 h
    refine List.idxOf?_eq_some_iff.2 ⟨hi, he, fun j hj hje => ?_⟩
    have hij := (List.getElem?_inj hi hd (j := j)).1 (by
      rw [h, List.getElem?_eq_getElem (Nat.lt_trans hj hi), hje])
    exact absurd hij (Nat.ne_of_gt hj)

/-- A table that holds, with every component, the components of what the component is about. -/
def ClosedTable (table : List (Component ArgType)) : Prop :=
  ∀ c ∈ table, c.node.components ⊆ table

theorem closedTable_nil : ClosedTable [] := List.forall_mem_nil _

/-- A closed table stays closed under a type whose components it then holds. -/
theorem ClosedTable.append {table new : List (Component ArgType)} (h : ClosedTable table)
    (hnew : ∀ c ∈ new, c.node.components ⊆ table ++ new) : ClosedTable (table ++ new) := by
  intro c hc
  rcases List.mem_append.1 hc with hc | hc
  · exact fun k hk => List.mem_append_left _ (h c hc hk)
  · exact hnew c hc

/-- A type can be put behind the rest of its components. -/
theorem ClosedTable.whole {table : List (Component ArgType)} {t : ArgType} (h : ClosedTable table)
    (ht : t.components ⊆ table ++ [.whole t]) : ClosedTable (table ++ [.whole t]) := by
  refine h.append fun c hc => ?_
  obtain rfl := List.mem_singleton.1 hc
  exact ht

/-- The attributes of a pointer can be put behind the components of what it points to. -/
theorem ClosedTable.qualified {table : List (Component ArgType)} {a : PointerAttrs} {t : ArgType}
    (h : ClosedTable table) (ht : t.components ⊆ table) :
    ClosedTable (table ++ [.qualified a t]) := by
  refine h.append fun c hc => ?_
  obtain rfl := List.mem_singleton.1 hc
  exact List.subset_append_of_subset_left _ ht

/-- A table that holds, with the attributes of a pointer, the pointer. -/
def PairedTable (table : List (Component ArgType)) : Prop :=
  ∀ a t, .qualified a t ∈ table → .whole (.pointer a t) ∈ table

theorem pairedTable_nil : PairedTable [] := fun _ _ h => absurd h List.not_mem_nil

theorem PairedTable.whole {table : List (Component ArgType)} (h : PairedTable table)
    (t : ArgType) : PairedTable (table ++ [.whole t]) := by
  intro a s hm
  have hm : .qualified a s ∈ table := by simpa using hm
  exact List.mem_append_left _ (h a s hm)

theorem PairedTable.pointer {table : List (Component ArgType)} (h : PairedTable table)
    (a : PointerAttrs) (t : ArgType) :
    PairedTable (table ++ [.qualified a t] ++ [.whole (.pointer a t)]) := by
  intro b s hm
  have hm : .qualified b s ∈ table ∨ b = a ∧ s = t := by simpa using hm
  rcases hm with hm | ⟨rfl, rfl⟩
  · exact List.mem_append_left _ (List.mem_append_left _ (h b s hm))
  · exact List.mem_append_right _ (List.mem_singleton_self _)

end KernelSymbol
