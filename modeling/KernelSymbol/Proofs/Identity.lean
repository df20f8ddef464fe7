import KernelSymbol.Handle

/-!
# Identity of nodes

A tag says which node it is as long as no two nodes carry the same one. Fresh nodes get numbers of
their own, so a chain built outside every pool has this property on its own and next to anything
older. Under it, comparing two handles may stop at a node that both share.

## Main definitions

* `Handle.numbered` — a chain of nodes outside every pool, with their numbers

## Main results

* `Handle.equals_iff` — equality that stops at a shared node is equality of types
* `Handle.mem_subchains_outside`, `Handle.outside_eq_of_tag_eq` — the numbers of fresh nodes
-/

namespace KernelSymbol

namespace Handle

/-! ### Equality -/

theorem equals_leaf (l m : Leaf) (t u : Tag) :
    equals ⟨[], l, t⟩ ⟨[], m, u⟩ = if t = u then true else l == m := rfl

theorem equals_leaf_cons (l : Leaf) (m : Link) (t u : Tag) (h : Handle) :
    equals ⟨[], l, t⟩ (cons m u h) = false := rfl

theorem equals_cons_leaf (l : Link) (m : Leaf) (t u : Tag) (g : Handle) :
    (cons l t g).equals ⟨[], m, u⟩ = false := rfl

theorem equals_cons (l m : Link) (t u : Tag) (g h : Handle) :
    (cons l t g).equals (cons m u h) =
      if t = u then true else if l = m then g.equals h else false := by
  -- below the outermost nodes, only the leaves are read from the handles themselves
  have key : ∀ ls ms, equals.go (cons l t g) (cons m u h) ls ms = equals.go g h ls ms := by
    intro ls
    induction ls with
    | nil => intro ms; cases ms <;> rfl
    | cons k ls ih =>
      intro ms
      cases ms with
      | nil => rfl
      | cons k' ms => simp only [equals.go, ih]
  rw [equals, equals, ← key]
  rfl

/-- Where equal tags mean the same node, handles are equal if and only if their types are. -/
theorem equals_iff {g h : Handle}
    (hc : ∀ c ∈ g.subchains, ∀ d ∈ h.subchains, c.tag = d.tag → c = d) :
    g.equals h = true ↔ g.type = h.type := by
  have hsame := hc g (mem_subchains_self g) h (mem_subchains_self h)
  induction g using ind generalizing h with
  | leaf l t =>
    induction h using ind with
    | leaf m u =>
      rw [equals_leaf]
      split
      next htu => simp [hsame htu]
      next => simp
    | cons m u h => simp [equals_leaf_cons, ArgType.cons]
  | cons l t g ih =>
    induction h using ind with
    | leaf m u => simp [equals_cons_leaf, ArgType.cons]
    | cons m u h =>
      have hc' : ∀ c ∈ g.subchains, ∀ d ∈ h.subchains, c.tag = d.tag → c = d := by
        intro c hg d hd
        refine hc c ?_ d ?_ <;> rw [subchains_cons]
        · exact List.mem_cons_of_mem _ hg
        · exact List.mem_cons_of_mem _ hd
      have hi := ih hc' (hc' g (mem_subchains_self g) h (mem_subchains_self h))
      rw [equals_cons]
      split
      next htu => simp [hsame htu]
      next => 
        split
        next hl => simp [hl, hi, ArgType.cons, ArgType.ext_iff]
        next hl => simp [hl, ArgType.cons]

/-! ### Fresh nodes -/

/-- A chain outside every pool: its leaf has the number `start`, and its links are numbered from
`n` on. -/
def numbered (start n : Nat) (t : ArgType) : Handle :=
  ⟨(t.links.zipIdx n).map fun (l, i) => (l, ⟨.outside, i⟩), t.leaf, ⟨.outside, start⟩⟩

theorem numbered_leaf (start n : Nat) (l : Leaf) :
    numbered start n ⟨[], l⟩ = ⟨[], l, ⟨.outside, start⟩⟩ := rfl

theorem numbered_cons (start n : Nat) (l : Link) (t : ArgType) :
    numbered start n (.cons l t) = (numbered start (n + 1) t).cons l ⟨.outside, n⟩ := rfl

/-- The numbers of a chain are that of the leaf and those from `n` on. -/
theorem mem_subchains_numbered {start n : Nat} {t : ArgType} {g : Handle}
    (h : g ∈ (numbered start n t).subchains) :
    g.tag.maker = .outside ∧
      (g.tag.index = start ∨ n ≤ g.tag.index ∧ g.tag.index < n + t.depth) := by
  induction t using ArgType.ind generalizing n with
  | leaf l =>
    rw [numbered_leaf, subchains_leaf, List.mem_singleton] at h
    subst h
    exact ⟨rfl, .inl rfl⟩
  | cons l t ih =>
    rw [numbered_cons, subchains_cons, List.mem_cons] at h
    rw [ArgType.depth_cons]
    rcases h with rfl | h
    · refine ⟨rfl, .inr ⟨Nat.le_refl _, ?_⟩⟩
      rw [tag_cons]
      dsimp only
      omega
    · obtain ⟨hm, hi⟩ := ih h
      refine ⟨hm, hi.imp_right fun ⟨h₁, h₂⟩ => ⟨?_, ?_⟩⟩ <;> omega

theorem numbered_eq_of_tag_eq {start n : Nat} {t : ArgType} (hn : start < n) {g h : Handle}
    (hg : g ∈ (numbered start n t).subchains) (hh : h ∈ (numbered start n t).subchains)
    (he : g.tag = h.tag) : g = h := by
  induction t using ArgType.ind generalizing n with
  | leaf l =>
    rw [numbered_leaf, subchains_leaf, List.mem_singleton] at hg hh
    rw [hg, hh]
  | cons l t ih =>
    -- the outermost number is smaller than those further in, and is not that of the leaf
    have new : ∀ {c : Handle}, c ∈ (numbered start (n + 1) t).subchains → c.tag.index ≠ n := by
      intro c hc
      have hi := (mem_subchains_numbered hc).2
      omega
    rw [numbered_cons, subchains_cons, List.mem_cons] at hg hh
    rcases hg with rfl | hg <;> rcases hh with rfl | hh
    · rfl
    · exact absurd (congrArg Tag.index he).symm (new hh)
    · exact absurd (congrArg Tag.index he) (new hg)
    · exact ih (by omega) hg hh

theorem mem_subchains_outside {start : Nat} {t : ArgType} {g : Handle}
    (h : g ∈ (outside start t).subchains) :
    g.tag.maker = .outside ∧ start ≤ g.tag.index ∧ g.tag.index < start + t.depth + 1 := by
  obtain ⟨hm, hi⟩ := mem_subchains_numbered h
  exact ⟨hm, by omega, by omega⟩

theorem outside_eq_of_tag_eq {start : Nat} {t : ArgType} {g h : Handle}
    (hg : g ∈ (outside start t).subchains) (hh : h ∈ (outside start t).subchains)
    (he : g.tag = h.tag) : g = h :=
  numbered_eq_of_tag_eq (Nat.lt_succ_self start) hg hh he

end Handle

end KernelSymbol
