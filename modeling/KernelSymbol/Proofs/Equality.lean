import KernelSymbol.ArgType.Hash
import KernelSymbol.Proofs.WellFormed
import Mathlib.Data.Set.Card

/-!
# Equality and hashing go by the structure

Two handles are compared by walking both chains together, and the walk ends early at a node that
they share. Their hashes are fed by another walk, of one chain at a time, that never looks at
identities. Both come to the same: handles are equal if their chains are of one length and match
layer by layer, in kind and in data, and then and only then equal items go into their hashes.

Early ends are harmless because a tag says which node it is. That holds of all nodes that there are
in a session, wherever they come from: of those that handles reach, with or without nodes in common,
and of those that pools store, also where no handle reaches them. So equality is an equivalence
relation on them, and a hash set, which relies on both walks, has one member for each of its
classes.

## Main definitions

* `Handle.Matches`, `Handle.Congruent` — agreement of two nodes, and of two chains layer by layer
* `Handle.equalsByData` — the walk that does not end early
* `Session.Holds`, `Session.Held` — the nodes that there are in a session
* `classes` — the classes of a relation that the members of a list are in

## Main results

* `Handle.congruent_iff`, `Handle.equalsByData_iff` — both are equality of types
* `Session.Valid.eq_of_holds` — a tag says which node it is
* `size_ofList_eq_ncard` — a hash set has one member for each class
* `Session.equality_structural` — equality and hashing go by the structure
-/

namespace KernelSymbol

namespace Handle

variable {g h : Handle} {l m : Link} {t u : Tag}

/-! ### Layer by layer -/

/-- Whether two nodes are of one kind and have equal data: the address space and the qualifiers of a
pointer, the length of a vector, the builtin, or the name. -/
def Matches (g h : Handle) : Prop :=
  match g.links, h.links with
  | (.pointer a, _) :: _, (.pointer b, _) :: _ => a.space = b.space ∧ a.qualifiers = b.qualifiers
  | (.vector m, _) :: _, (.vector n, _) :: _ => m = n
  | [], [] =>
    match g.leaf, h.leaf with
    | .builtin b, .builtin c => b = c
    | .named m, .named n => m = n
    | _, _ => False
  | _, _ => False

/-- Chains of one length that match layer by layer. -/
structure Congruent (g h : Handle) : Prop where
  depth_eq : g.type.depth = h.type.depth
  layer : ∀ {n : Nat} {c d : Handle}, g.subchains[n]? = some c → h.subchains[n]? = some d →
    c.Matches d

theorem matches_leaf_iff {l m : Leaf} : Matches ⟨[], l, t⟩ ⟨[], m, u⟩ ↔ l = m := by
  cases l <;> cases m <;> simp [Matches]

theorem matches_cons_iff : (cons l t g).Matches (cons m u h) ↔ l = m := by
  cases l with
  | pointer a =>
    cases m with
    | pointer b =>
      obtain ⟨s, qs⟩ := a
      obtain ⟨s', qs'⟩ := b
      simp [Matches, cons]
    | vector n => simp [Matches, cons]
  | vector k => cases m <;> simp [Matches, cons]

/-- Chains are congruent if their outermost nodes match and what is below is congruent. -/
theorem congruent_cons_iff : (cons l t g).Congruent (cons m u h) ↔ l = m ∧ g.Congruent h := by
  have hg : (cons l t g).subchains = cons l t g :: g.subchains := subchains_cons ..
  have hh : (cons m u h).subchains = cons m u h :: h.subchains := subchains_cons ..
  constructor
  · intro hc
    refine ⟨matches_cons_iff.1 (hc.layer (n := 0) (by rw [hg]; rfl) (by rw [hh]; rfl)),
      Nat.succ.inj hc.depth_eq, fun {n c d} hn hn' => ?_⟩
    exact hc.layer (n := n + 1) (by rw [hg]; exact hn) (by rw [hh]; exact hn')
  · rintro ⟨hl, hc⟩
    refine ⟨congrArg Nat.succ hc.depth_eq, fun {n c d} hn hn' => ?_⟩
    rw [hg] at hn
    rw [hh] at hn'
    cases n with
    | zero =>
      cases hn
      cases hn'
      exact matches_cons_iff.2 hl
    | succ n => exact hc.layer hn hn'

theorem congruent_iff : g.Congruent h ↔ g.type = h.type := by
  induction g using ind generalizing h with
  | leaf l t =>
    induction h using ind with
    | leaf m u =>
      rw [type_leaf, type_leaf, ArgType.mk.injEq, and_iff_right rfl]
      refine ⟨fun hc => matches_leaf_iff.1 (hc.layer (n := 0) rfl rfl), fun hl => ⟨rfl, ?_⟩⟩
      intro n c d hn hn'
      cases n with
      | zero =>
        cases hn
        cases hn'
        exact matches_leaf_iff.2 hl
      | succ n => cases hn
    | cons m u h =>
      refine ⟨fun hc => absurd hc.depth_eq (Nat.succ_ne_zero _).symm, fun ht => ?_⟩
      cases congrArg ArgType.links ht
  | cons l t g ih =>
    induction h using ind with
    | leaf m u =>
      refine ⟨fun hc => absurd hc.depth_eq (Nat.succ_ne_zero _), fun ht => ?_⟩
      cases congrArg ArgType.links ht
    | cons m u h =>
      rw [congruent_cons_iff, ih, type_cons, type_cons]
      simp [ArgType.cons, ArgType.ext_iff, and_assoc]

/-! ### Without the early end -/

/-- Whether two handles have equal types, found by walking both chains to their ends. -/
def equalsByData (g h : Handle) : Bool := go g.links h.links
where
  /-- Compares what is below two suffixes of the links. -/
  go : List (Link × Tag) → List (Link × Tag) → Bool
    | (l, _) :: ls, (m, _) :: ms => if l = m then go ls ms else false
    | [], [] => g.leaf == h.leaf
    | _, _ => false

theorem equalsByData_iff : g.equalsByData h = true ↔ g.type = h.type := by
  have key : ∀ ls ms, equalsByData.go g h ls ms = true ↔
      ls.map Prod.fst = ms.map Prod.fst ∧ g.leaf = h.leaf := by
    intro ls
    induction ls with
    | nil => intro ms; cases ms <;> simp [equalsByData.go]
    | cons k ls ih =>
      intro ms
      cases ms with
      | nil => simp [equalsByData.go]
      | cons k' ms => simp [equalsByData.go, ih, and_assoc]
  rw [equalsByData, key, type, type, ArgType.mk.injEq]

end Handle

/-! ### Hash sets -/

section

variable {α β : Type} [BEq α] [Hashable α] [BEq β] [Hashable β]

/-- The classes of equal elements that the members of a list are in. -/
def classes (as : List α) : Set (Set α) := {c | ∃ a ∈ as, c = {b | (a == b) = true}}

omit [Hashable α] in
theorem finite_classes (as : List α) : (classes as).Finite := by
  refine (as.finite_toSet.image fun a => {b | (a == b) = true}).subset ?_
  rintro c ⟨a, ha, rfl⟩
  exact ⟨a, ha, rfl⟩

omit [Hashable α] in
theorem classes_concat (as : List α) (a : α) :
    classes (as ++ [a]) = insert {b | (a == b) = true} (classes as) := by
  ext c
  simp [classes, or_and_right, exists_or, or_comm]

omit [Hashable α] in
/-- The class of an element is that of a member if the element is equal to a member. -/
theorem mem_classes_iff [EquivBEq α] {as : List α} {a : α} :
    {b | (a == b) = true} ∈ classes as ↔ as.contains a = true := by
  constructor
  · rintro ⟨b, hb, hc⟩
    have ha : a ∈ {c | (b == c) = true} := hc ▸ (BEq.rfl : (a == a) = true)
    exact List.contains_iff_exists_mem_beq.2 ⟨b, hb, BEq.symm ha⟩
  · intro h
    obtain ⟨b, hb, hab⟩ := List.contains_iff_exists_mem_beq.1 h
    exact ⟨b, hb, Set.ext fun c => ⟨BEq.trans (BEq.symm hab), BEq.trans hab⟩⟩

theorem ofList_concat (as : List α) (a : α) :
    Std.HashSet.ofList (as ++ [a]) = (Std.HashSet.ofList as).insert a := by
  rw [Std.HashSet.ofList_eq_insertMany_empty, Std.HashSet.ofList_eq_insertMany_empty,
    Std.HashSet.insertMany_append, Std.HashSet.insertMany_list_singleton]

variable [EquivBEq α] [LawfulHashable α]

/-- A hash set has one member for each class. -/
theorem size_ofList_eq_ncard (as : List α) :
    (Std.HashSet.ofList as).size = (classes as).ncard := by
  induction as using List.reverseRecOn with
  | nil => simp [classes]
  | append_singleton as a ih =>
    rw [ofList_concat, Std.HashSet.size_insert, classes_concat, ih]
    by_cases h : as.contains a = true
    · rw [if_pos (Std.HashSet.mem_ofList.2 h), Set.insert_eq_of_mem (mem_classes_iff.2 h)]
    · rw [if_neg (mt Std.HashSet.mem_ofList.1 h),
        Set.ncard_insert_of_notMem (mt mem_classes_iff.1 h) (finite_classes as)]

/-- Elements may be replaced by others that are equal for the same pairs. -/
theorem size_ofList_map [EquivBEq β] [LawfulHashable β] {f : α → β}
    (hf : ∀ a b, (f a == f b) = (a == b)) (as : List α) :
    (Std.HashSet.ofList (as.map f)).size = (Std.HashSet.ofList as).size := by
  induction as using List.reverseRecOn with
  | nil => rfl
  | append_singleton as a ih =>
    have hc : (as.map f).contains (f a) = as.contains a := by
      simp only [List.contains_eq_any_beq, List.any_map, Function.comp_def, hf]
    rw [List.map_append, List.map_singleton, ofList_concat, ofList_concat,
      Std.HashSet.size_insert, Std.HashSet.size_insert, ih]
    simp only [Std.HashSet.mem_ofList, hc]

end

/-! ### The nodes of a session -/

namespace Session

variable {s : Session} {g h : Handle}

/-- A node that there is in a session: one that a handle reaches, or one that a pool stores. -/
def Holds (s : Session) (g : Handle) : Prop :=
  s.Has g ∨ ∃ (i : Nat) (p : Pool), s.pools[i]? = some p ∧ g ∈ p.nodes

theorem holds_of_getElem? {i : Nat} (hi : s.handles[i]? = some h) : s.Holds h :=
  .inl (has_of_mem (Array.mem_of_getElem? hi))

theorem Valid.placed_of_holds (hs : s.Valid) (hg : s.Holds g) : s.Placed g :=
  hg.elim hs.placed .inr

/-- What is below a node is there as well. -/
theorem Valid.holds_subchains (hs : s.Valid) (hh : s.Holds h) (hg : g ∈ h.subchains) :
    s.Holds g := by
  rcases hh with hh | ⟨i, p, hp, hm⟩
  · exact .inl (hh.subchains hg)
  · exact .inr ⟨i, p, hp, (hs.pool hp).1.mem_subchains hm hg⟩

theorem Valid.eq_of_holds (hs : s.Valid) (hg : s.Holds g) (hh : s.Holds h)
    (he : g.tag = h.tag) : g = h := by
  rcases hg with hg | ⟨i, p, hp, hg⟩
  · rcases hh with hh | ⟨i, p, hp, hh⟩
    · exact hs.coherent hg hh he
    · exact (hs.eq_of_stored hp hh (hs.placed hg) he.symm).symm
  · exact hs.eq_of_stored hp hg (hs.placed_of_holds hh) he

theorem Valid.equals_iff_of_holds (hs : s.Valid) (hg : s.Holds g) (hh : s.Holds h) :
    g.equals h = true ↔ g.type = h.type :=
  Handle.equals_iff fun _ hc _ hd => hs.eq_of_holds (hs.holds_subchains hg hc)
    (hs.holds_subchains hh hd)

theorem Valid.knows_of_holds (hs : s.Valid) {i : Nat} {p : Pool} (hp : s.pools[i]? = some p)
    (hh : s.Holds h) : p.Knows h :=
  fun _ hg ho => hs.mem_of_owns hp (hs.placed_of_holds (hs.holds_subchains hh hg)) ho

theorem Valid.foreign_of_holds (hs : s.Valid) (hh : s.Holds h) : h.Foreign .encoder := by
  intro g hg he
  rcases hs.placed_of_holds (hs.holds_subchains hh hg) with ⟨ho, -⟩ | ⟨i, p, hp, hm⟩
  · cases ho.symm.trans he
  · cases (hs.maker_of_stored hp hm).symm.trans he

theorem Sound.wellFormed_of_holds (hs : s.Sound) (hh : s.Holds h) : h.type.WellFormed := by
  rcases hh with hh | ⟨i, p, hp, hm⟩
  · exact hs.wellFormed (.handle hh)
  · exact hs.wellFormed (.pool hp hm)

/-- A node that there is after some moves. Such nodes are compared by `Handle.equals` and hashed by
the items of their types. -/
structure Held (moves : List Move) where
  node : Handle
  holds : (start.afterMoves moves).Holds node

variable {moves : List Move}

instance : BEq (Held moves) := ⟨fun g h => g.node.equals h.node⟩

instance : Hashable (Held moves) := ⟨fun g => hash g.node.type⟩

theorem Held.equals_iff (g h : Held moves) :
    g.node.equals h.node = true ↔ g.node.type = h.node.type :=
  (sound_start.afterMoves moves).valid.equals_iff_of_holds g.holds h.holds

theorem Held.equivalence : Equivalence fun g h : Held moves => g.node.equals h.node = true where
  refl g := (g.equals_iff g).2 rfl
  symm {g h} he := (h.equals_iff g).2 ((g.equals_iff h).1 he).symm
  trans {f g h} he he' :=
    (f.equals_iff h).2 (((f.equals_iff g).1 he).trans ((g.equals_iff h).1 he'))

instance : EquivBEq (Held moves) where
  rfl := Held.equivalence.refl _
  symm := Held.equivalence.symm
  trans := Held.equivalence.trans

instance : LawfulHashable (Held moves) where
  hash_eq g h he := congrArg (fun t : ArgType => hash t) ((g.equals_iff h).1 he)

/-- Equality and hashing go by the structure. Whatever nodes there are in a session, whoever made
them and whatever they share, two of them are equal if and only if their chains are of one length
and match layer by layer; walks to the end of the chains find the same, and equal items go into
their hashes if and only if they are equal. So equality is an equivalence relation, and a hash set
of nodes, or of their types, has as many members as there are classes of equal nodes. -/
theorem equality_structural (moves : List Move) :
    (∀ g h : Held moves,
      (g.node.equals h.node = true ↔ g.node.Congruent h.node) ∧
      g.node.equals h.node = g.node.equalsByData h.node ∧
      (g.node.type.hashItems = h.node.type.hashItems ↔ g.node.equals h.node = true)) ∧
    (Equivalence fun g h : Held moves => g.node.equals h.node = true) ∧
    ∀ gs : List (Held moves), (Std.HashSet.ofList gs).size = (classes gs).ncard ∧
      ArgType.distinct (gs.map fun g => g.node.type) = (classes gs).ncard := by
  refine ⟨fun g h => ⟨?_, ?_, ?_⟩, Held.equivalence, fun gs => ⟨size_ofList_eq_ncard gs, ?_⟩⟩
  · rw [g.equals_iff h, Handle.congruent_iff]
  · rw [Bool.eq_iff_iff, g.equals_iff h, Handle.equalsByData_iff]
  · rw [g.equals_iff h]
    exact ⟨ArgType.hashItems_injective, congrArg ArgType.hashItems⟩
  · have hf : ∀ g h : Held moves, (g.node.type == h.node.type) = (g == h) := fun g h => by
      rw [Bool.eq_iff_iff, beq_iff_eq]
      exact (g.equals_iff h).symm
    exact (size_ofList_map hf gs).trans (size_ofList_eq_ncard gs)

/-- A named node, and two pointers to it, all built outside every pool. -/
def forkedMoves : List Move :=
  [.ask (.outside ⟨.named "point", []⟩), .ask (.outsidePointer 0 1 [2]),
    .ask (.outsidePointer 0 1 [2])]

/-- Two pointers to one node are different nodes, but equal: with the node itself, they make two
classes. -/
theorem equality_structural_forkedMoves : ∃ n g h : Held forkedMoves,
    g.node.child? = some n.node ∧ h.node.child? = some n.node ∧
      g.node.sameNode h.node = false ∧ g.node.equals h.node = true ∧
      g.node.Congruent h.node ∧ ¬g.node.Congruent n.node ∧
      g.node.type.hashItems = h.node.type.hashItems ∧ (classes [n, g, h]).ncard = 2 := by
  obtain ⟨n, hn⟩ : ∃ n, (start.afterMoves forkedMoves).handles[0]? = some n := ⟨_, rfl⟩
  obtain ⟨g, hg⟩ : ∃ g, (start.afterMoves forkedMoves).handles[1]? = some g := ⟨_, rfl⟩
  obtain ⟨h, hh⟩ : ∃ h, (start.afterMoves forkedMoves).handles[2]? = some h := ⟨_, rfl⟩
  obtain ⟨pair, -, count⟩ := equality_structural forkedMoves
  obtain ⟨hgh, -, hitems⟩ := pair ⟨g, holds_of_getElem? hg⟩ ⟨h, holds_of_getElem? hh⟩
  have hgn := (pair ⟨g, holds_of_getElem? hg⟩ ⟨n, holds_of_getElem? hn⟩).1
  have he : g.equals h = true := by cases hg; cases hh; rfl
  have hne : ¬g.equals n = true := by cases hg; cases hn; exact Bool.false_ne_true
  refine ⟨⟨n, holds_of_getElem? hn⟩, ⟨g, holds_of_getElem? hg⟩, ⟨h, holds_of_getElem? hh⟩,
    ?_, ?_, ?_, he, hgh.1 he, mt hgn.2 hne, hitems.2 he, ?_⟩
  · cases hg; cases hn; rfl
  · cases hh; cases hn; rfl
  · cases hg; cases hh; rfl
  · have htypes : h.type = g.type ∧ g.type ≠ n.type := by
      cases hg; cases hh; cases hn; exact ⟨rfl, by decide⟩
    rw [← (count _).2]
    simp [ArgType.distinct, Std.HashSet.ofList_eq_insertMany_empty, Std.HashSet.insertMany_cons,
      Std.HashSet.size_insert, htypes.1, htypes.2.symm]

end Session

end KernelSymbol
