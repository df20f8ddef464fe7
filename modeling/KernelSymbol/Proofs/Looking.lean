import KernelSymbol.Proofs.Accounting

/-!
# Looking and interning agree

A pool may be asked for the node of a type without storing one. The walk is the same as that of
interning, except that it gives up at the first node that is missing. Giving up early loses nothing,
because a type is stored only after everything below it; and taking the first own node as it is
loses nothing, because an own node is the only stored node of its type. So looking finds a node
exactly if interning would only hit, and that node is what interning would return.

## Main results

* `Pool.Valid.intern_of_find?` — interning what is found
* `Pool.Valid.find?_eq_none_iff` — interning what is not found stores something
* `Session.Reachable.find_agrees` — both, in every state of a session
-/

namespace KernelSymbol

namespace Pool

variable {p : Pool} {h : Handle}

/-- What is found is what interning yields, by hits alone. -/
theorem Valid.intern_of_find? (hp : p.Valid) (hk : p.Knows h) {g : Handle}
    (hg : p.find? h = some g) : ∃ n, p.intern h = (g, { p with hits := p.hits + n }) := by
  obtain ⟨hm, ht⟩ := (hp.find?_eq_some_iff hk).1 hg
  have hY := hp.intern hk
  have hnode : (p.intern h).1 = g :=
    hY.valid.eq_of_type_eq hY.mem (hY.grows.mem hm) (hY.type_eq.trans ht.symm)
  -- nothing is new, since every node that is looked up is a part of the chain
  obtain ⟨m, found, new, -, ha⟩ := hp.accounts_intern hk
  have hnil : new = [] := by
    refine List.eq_nil_iff_forall_not_mem.2 fun n hn => ha.new_notMem n hn ?_
    have hsub : n ∈ h.subchains :=
      List.mem_of_mem_take (List.mem_reverse.1 (ha.nodes_eq ▸ List.mem_append_right _ hn))
    refine hp.subchains_subset (mem_types_iff.2 ⟨g, hm, ht⟩) ?_
    rw [← Handle.map_type_subchains]
    exact List.mem_map_of_mem hsub
  subst hnil
  have hpool := ha.looksUp.eq_of_found (by simp)
  exact ⟨_, Prod.ext hnode hpool⟩

theorem Valid.find?_eq_none_iff (hp : p.Valid) (hk : p.Knows h) :
    p.find? h = none ↔ p.size < (p.intern h).2.size := by
  constructor
  · intro hn
    have hm : h.type ∉ p.types := by
      rintro ht
      obtain ⟨g, hg⟩ := mem_types_iff.1 ht
      rw [(hp.find?_eq_some_iff hk).2 hg] at hn
      cases hn
    -- at least the type itself is missing
    have hmissing : h.type ∈ p.missing h.type :=
      mem_missing_iff.2 ⟨ArgType.mem_subchains_self _, hm⟩
    have hlen := congrArg List.length (hp.types_intern hk)
    rw [List.length_append, length_types, length_types] at hlen
    have := List.length_pos_of_mem hmissing
    omega
  · intro hlt
    refine Option.eq_none_iff_forall_ne_some.2 fun g hg => ?_
    obtain ⟨n, hn⟩ := hp.intern_of_find? hk hg
    rw [hn] at hlt
    exact absurd hlt (Nat.lt_irrefl _)

end Pool

namespace Session

variable {s : Session}

/-- Looking agrees with interning. In any pool, and for any node that some handle reaches, looking
finds the stored node that is equal to it, and nothing if there is none. If it finds a node, then
interning returns that node, and changes nothing but the number of hits. It finds nothing if and
only if interning stores at least one node. Whether the pool has a node for it says the same. And
neither request changes a pool. -/
theorem Reachable.find_agrees (hs : s.Reachable) :
    (∀ (i : Nat) (p : Pool) (h : Handle), s.pools[i]? = some p → s.Has h →
      (∀ g : Handle, p.find? h = some g ↔ g ∈ p.nodes ∧ g.equals h = true) ∧
      (∀ g : Handle, p.find? h = some g →
        ∃ n, p.intern h = (g, { p with hits := p.hits + n })) ∧
      (p.find? h = none ↔ p.size < (p.intern h).2.size) ∧
      (p.contains h = true ↔ ∃ g ∈ p.nodes, g.equals h = true) ∧
      (p.contains h = false ↔ p.size < (p.intern h).2.size)) ∧
    ∀ n : Nat, (s.step (.find n)).2.pools = s.pools ∧ (s.step (.contains n)).2.pools = s.pools := by
  have hv := hs.valid
  refine ⟨fun i p h hp hh => ?_, fun n => ⟨?_, ?_⟩⟩
  · have hpv := (hv.pool hp).1
    have hk := hv.knows_of_has hp hh
    have hfind : ∀ g : Handle, p.find? h = some g ↔ g ∈ p.nodes ∧ g.equals h = true := fun g => by
      rw [hpv.find?_eq_some_iff hk]
      exact and_congr_right fun hg => (hv.stored_equals_iff hp hg hh).symm
    refine ⟨hfind, fun g => hpv.intern_of_find? hk, hpv.find?_eq_none_iff hk, ?_, ?_⟩
    · rw [Pool.contains, Option.isSome_iff_exists]
      exact exists_congr hfind
    · rw [Pool.contains, Option.isSome_eq_false_iff, Option.isNone_iff_eq_none]
      exact hpv.find?_eq_none_iff hk
  · rw [Session.step]
    refine of_withHandle (P := fun s' => s'.pools = s.pools) rfl fun k _ => ?_
    split <;> rfl
  · exact pools_step rfl fun n he => by cases he

/-- The inner pointer is found, and the outer one is not. -/
theorem find_agrees_layeredPointer : ∃ (p : Pool) (g h k : Handle),
    layeredPointer.pools[0]? = some p ∧ layeredPointer.handles[2]? = some g ∧
      layeredPointer.handles[4]? = some h ∧ p.owns g.tag = false ∧ p.find? g = some k ∧
      (p.intern g).1 = k ∧ (p.intern g).2.misses = p.misses ∧
      p.find? h = none ∧ p.contains h = false ∧ p.size < (p.intern h).2.size := by
  obtain ⟨p, c, g, h, hp, -, hg, hh, -, -, hgo, ⟨k, hk, hkg⟩, hfresh⟩ := exists_layeredPointer
  obtain ⟨hnodes, -⟩ := reachable_layeredPointer.find_agrees
  obtain ⟨hfind, hintern, -⟩ := hnodes 0 p g hp (has_of_mem (Array.mem_of_getElem? hg))
  have hgk : p.find? g = some k := (hfind k).2 ⟨hk, hkg⟩
  obtain ⟨n, hn⟩ := hintern k hgk
  obtain ⟨hfind, -, hnone, hhas, hhas'⟩ := hnodes 0 p h hp (has_of_mem (Array.mem_of_getElem? hh))
  have hh' : p.find? h = none := by
    refine Option.eq_none_iff_forall_ne_some.2 fun k hk => ?_
    obtain ⟨hm, he⟩ := (hfind k).1 hk
    rw [hfresh k hm] at he
    cases he
  have hlt := hnone.1 hh'
  exact ⟨p, g, h, k, hp, hg, hh, hgo, hgk, by rw [hn], by rw [hn], hh', hhas'.2 hlt, hlt⟩

end Session

end KernelSymbol
