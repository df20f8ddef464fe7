import KernelSymbol.Proofs.Session

/-!
# Pools over a whole session

A pool is a list of nodes, an index of them by what they are looked up by, and the set of their
identities. In every state that a session can get into the three agree, whatever was asked before
and wherever the handles came from that were given to the pool: handles of the pool itself, of
another pool, or built outside, with or without nodes in common. Keys name the node below by its
identity, so that different keys mean different types relies on the node below being stored, and
therefore all parts of the invariant are carried together.

Since nothing that is stored is ever taken back, two handles that were interned at different times
are the same node exactly if the types they were interned from are equal.

## Main definitions

* `Session.interned?` — the handle that a request interns

## Main results

* `Session.Reachable.pool_representation` — the nodes, the index, the identities and the counter
  of a pool agree, and stay
* `Session.Reachable.sameNode_iff_equals` — interning decides equality by identity
-/

namespace KernelSymbol

/-! ### The representation of a pool -/

/-- What tells stored nodes apart takes different values on the nodes of a pool. -/
theorem Pool.Valid.nodup_map {α : Type} {p : Pool} (hp : p.Valid) {f : Handle → α}
    (hf : ∀ {g h : Handle}, g ∈ p.nodes → h ∈ p.nodes → f g = f h → g = h) :
    (p.nodes.toList.map f).Nodup := by
  rw [List.Nodup, List.pairwise_map, List.pairwise_iff_getElem]
  intro i j hi hj hlt he
  have hmi : p.nodes[i]? = some p.nodes.toList[i] := by
    rw [← Array.getElem?_toList, List.getElem?_eq_getElem hi]
  have hmj : p.nodes[j]? = some p.nodes.toList[j] := by
    rw [← Array.getElem?_toList, List.getElem?_eq_getElem hj]
  have heq := hf (Array.mem_of_getElem? hmi) (Array.mem_of_getElem? hmj) he
  -- the tags of the nodes are their positions
  have hti := hp.tag_eq hmi
  rw [heq, hp.tag_eq hmj] at hti
  cases hti
  exact absurd hlt (Nat.lt_irrefl _)

namespace Session

variable {s s₁ s₂ s₃ : Session}

/-- The handles that a request for nodes of the current pool returns are stored there. -/
theorem PoolStep.mem_of_getElem? {q : Pool} {gs : List Handle} (h : PoolStep s q gs s₁) {n : Nat}
    {g : Handle} (hn : s.handles.size ≤ n) (hg : s₁.handles[n]? = some g) : g ∈ q.nodes := by
  have hlen : (s.setPool q).handles.toList.length ≤ n := hn
  rw [h.eq, ← Array.getElem?_toList, handles_putAll, List.getElem?_append_right hlen] at hg
  exact (h.mem g (List.mem_of_getElem? hg)).1

/-- After such a request, the pool in the place of the current one is the one that it left. -/
theorem PoolStep.getElem?_current (hs : s.Valid) {q : Pool} {gs : List Handle}
    (h : PoolStep s q gs s₁) : s₁.pools[s.current]? = some q := by
  rw [h.eq, pools_putAll]
  exact getElem?_setPool hs.current_lt q

/-- The handle that a request interns, if that is what it asks for. -/
def interned? (s : Session) : Request → Option Handle
  | .intern n | .canon n => s.handles[n]?
  | _ => none

/-- Making the node of a handle's type from the handle. -/
theorem Valid.exists_poolStep_make (hs : s.Valid) {n : Nat} {a : Handle}
    (hn : s.handles[n]? = some a) {f : Handle → Pool → Handle × Pool}
    (hf : s.pool.Yields a.type (f a s.pool)) :
    ∃ q g, PoolStep s q [g] (s.withHandle n fun s h => s.make (f h)).2 ∧ g.type = a.type := by
  have hw := hs.wellFormed a (Array.mem_of_getElem? hn)
  refine ⟨(f a s.pool).2, (f a s.pool).1, ?_, hf.type_eq⟩
  rw [withHandle, hn]
  exact poolStep_make hw hf

/-- A request that interns a handle returns the stored node of its type. -/
theorem Valid.exists_poolStep (hs : s.Valid) {r : Request} {a : Handle}
    (ha : s.interned? r = some a) :
    a ∈ s.handles ∧ ∃ q g, PoolStep s q [g] (s.step r).2 ∧ g.type = a.type := by
  have hp := (hs.pool hs.getElem?_pool).1
  cases r with
  | intern n =>
    have hm : a ∈ s.handles := Array.mem_of_getElem? (ha : s.handles[n]? = some a)
    exact ⟨hm, hs.exists_poolStep_make ha (hp.intern (hs.knows hs.getElem?_pool hm))⟩
  | canon n =>
    have hm : a ∈ s.handles := Array.mem_of_getElem? (ha : s.handles[n]? = some a)
    exact ⟨hm, hs.exists_poolStep_make ha (hp.canon (hs.knows hs.getElem?_pool hm))⟩
  | _ => cases ha

/-- The one handle that a request returned has the next number. -/
theorem PoolStep.getElem?_size {q : Pool} {g : Handle} (h : PoolStep s q [g] s₁) :
    s₁.handles[s.handles.size]? = some g := by
  rw [h.eq, ← Array.getElem?_toList, handles_putAll]
  simp [setPool]

/-- Two pointers to one builtin that share no node, both built outside every pool. -/
def twoPointers : Session :=
  start.after (List.replicate 2 (.outside ⟨.builtin 0, [.pointers 0 [] 1]⟩))

theorem reachable_twoPointers : twoPointers.Reachable := ⟨_, rfl⟩

/-- The representation of every pool that a session can get to. Its nodes are listed once each,
and what it owns and what it finds are those nodes, by their identities and by their keys. The
node below a stored node is stored further left, no two stored nodes have equal types, and there
were as many misses as there are nodes. Whatever is asked later, nodes are only added behind the
others, and every handle that a request for nodes of the pool returned is one of them. -/
theorem Reachable.pool_representation (hs : s.Reachable) {i : Nat} {p : Pool}
    (hp : s.pools[i]? = some p) :
    (p.nodes.toList.map Handle.tag).Nodup ∧
    (∀ t : Tag, p.owns t = true ↔ ∃ h ∈ p.nodes, h.tag = t) ∧
    (∀ (k : Key) (h : Handle), p.index[k]? = some h ↔ h ∈ p.nodes ∧ h.key = k) ∧
    (∀ (n : Nat) (h c : Handle), p.nodes[n]? = some h → h.child? = some c →
      ∃ m < n, p.nodes[m]? = some c) ∧
    (p.nodes.toList.map Handle.type).Nodup ∧
    p.misses = p.size ∧
    (∀ requests : List Request, ∃ q, (s.after requests).pools[i]? = some q ∧
      p.nodes.toList <+: q.nodes.toList ∧ ∀ t, p.owns t = true → q.owns t = true) ∧
    (∀ r : Request, r.asksPool = true → s.current = i →
      ∀ (n : Nat) (h : Handle), s.handles.size ≤ n → (s.step r).2.handles[n]? = some h →
        ∀ requests : List Request, ∃ q,
          ((s.step r).2.after requests).pools[i]? = some q ∧ h ∈ q.nodes ∧
            q.owns h.tag = true) := by
  have hv := hs.valid
  have hpv := (hv.pool hp).1
  refine ⟨hpv.nodup_map hpv.eq_of_tag_eq, fun t => hpv.owns_iff, fun k h => hpv.index_iff,
    fun n h c => hpv.child, hpv.nodup_map hpv.eq_of_type_eq, hpv.misses_eq, ?_, ?_⟩
  · intro requests
    have hn := hv.after requests
    obtain ⟨q, hq, he⟩ := hn.grows.pools hp
    exact ⟨q, hq, he.nodes_prefix, fun t => he.owns hpv (hn.valid.pool hq).1⟩
  · rintro r hr rfl n h hsize hh requests
    obtain ⟨q, gs, hstep⟩ := hv.poolStep hr
    have hm : h ∈ q.nodes := hstep.mem_of_getElem? hsize hh
    have hn := (hstep.next hv).valid.after requests
    obtain ⟨q', hq', he⟩ := hn.grows.pools (hstep.getElem?_current hv)
    exact ⟨q', hq', he.mem hm, (hn.valid.pool hq').1.owns_of_mem (he.mem hm)⟩

/-- The same with the first of the pointers interned. -/
def storedPointer : Session := (twoPointers.step (.intern 0)).2

/-- The interned pointer is stored, with what it points to further left. Both are owned by their
identities and found by their keys. What is asked later leaves them in the pool, and the other
pointer, when it is interned too, is a node of the pool from then on. -/
theorem pool_representation_twoPointers : ∃ (p : Pool) (h c g : Handle) (n m : Nat),
    storedPointer.pools[0]? = some p ∧ storedPointer.handles[2]? = some h ∧
      h.type = .pointer .plain (.builtin .bool) ∧ c.type = .builtin .bool ∧
      p.nodes[n]? = some h ∧ h.child? = some c ∧ m < n ∧ p.nodes[m]? = some c ∧
      p.owns h.tag = true ∧ p.owns c.tag = true ∧
      p.index[h.key]? = some h ∧ p.index[c.key]? = some c ∧ p.misses = p.size ∧
      (∀ requests : List Request, ∃ q, (storedPointer.after requests).pools[0]? = some q ∧
        h ∈ q.nodes ∧ c ∈ q.nodes) ∧
      (storedPointer.step (.intern 1)).2.handles[3]? = some g ∧
      ∀ requests : List Request, ∃ q,
        ((storedPointer.step (.intern 1)).2.after requests).pools[0]? = some q ∧ g ∈ q.nodes := by
  have hv := reachable_twoPointers.valid
  obtain ⟨a, ha⟩ : ∃ a, twoPointers.handles[0]? = some a := ⟨_, rfl⟩
  have hat : a.type = .pointer .plain (.builtin .bool) := by
    cases ha
    rfl
  obtain ⟨-, p, h, hstep, hht⟩ := hv.exists_poolStep (r := .intern 0) ha
  rw [hat] at hht
  obtain ⟨g, hg⟩ : ∃ g, (storedPointer.step (.intern 1)).2.handles[3]? = some g := ⟨_, rfl⟩
  have hp : storedPointer.pools[0]? = some p := hstep.getElem?_current hv
  have hh : storedPointer.handles[2]? = some h := hstep.getElem?_size
  have hmh : h ∈ p.nodes := (hstep.mem h (List.mem_singleton_self h)).1
  obtain ⟨n, hn⟩ := Array.getElem?_of_mem hmh
  obtain ⟨t, c, rfl, hct⟩ := Handle.exists_cons_of_type_cons hht
  obtain ⟨-, howns, hindex, hchild, -, hmisses, hlater, hask⟩ :=
    (reachable_twoPointers.step (.intern 0)).pool_representation hp
  obtain ⟨m, hm, hmc⟩ := hchild n _ c hn rfl
  have hmc' : c ∈ p.nodes := Array.mem_of_getElem? hmc
  refine ⟨p, _, c, g, n, m, hp, hh, hht, hct, hn, rfl, hm, hmc, (howns _).2 ⟨_, hmh, rfl⟩,
    (howns _).2 ⟨c, hmc', rfl⟩, (hindex _ _).2 ⟨hmh, rfl⟩, (hindex _ _).2 ⟨hmc', rfl⟩, hmisses,
    fun requests => ?_, hg, fun requests => ?_⟩
  · obtain ⟨q, hq, hfront, -⟩ := hlater requests
    have keeps {k : Handle} (hk : k ∈ p.nodes) : k ∈ q.nodes :=
      Array.mem_toList_iff.1 (hfront.mem (Array.mem_toList_iff.2 hk))
    exact ⟨q, hq, keeps hmh, keeps hmc'⟩
  · obtain ⟨q, hq, hmem, -⟩ := hask (.intern 1) rfl rfl 3 g (Nat.le_refl 3) hg requests
    exact ⟨q, hq, hmem⟩

/-! ### Interning and equality -/

/-- Interning decides equality by identity. Two handles are interned into the same pool, with any
requests in between; the nodes that are returned are the same if and only if the handles were
equal. What is returned has the type of what was interned, and with it its kind, depth, rendering
and code, and no handle that was returned changes later. -/
theorem Reachable.sameNode_iff_equals (hs : s.Reachable) {r r' : Request} {a b : Handle}
    {requests : List Request} (h₁ : s₁ = (s.step r).2) (h₂ : s₂ = s₁.after requests)
    (h₃ : s₃ = (s₂.step r').2) (ha : s.interned? r = some a) (hb : s₂.interned? r' = some b)
    (hc : s₂.current = s.current) :
    ∃ g h : Handle, s₁.handles[s.handles.size]? = some g ∧ s₃.handles[s₂.handles.size]? = some h ∧
      (g.sameNode h = true ↔ a.equals b = true) ∧
      g.equals a = true ∧ g.type = a.type ∧ g.kind = a.kind ∧ g.type.depth = a.type.depth ∧
      g.type.render = a.type.render ∧ encodeType g = encodeType a ∧
      (∀ (n : Nat) (k : Handle), s.handles[n]? = some k → s₁.handles[n]? = some k) ∧
      ∀ (later : List Request) (n : Nat) (k : Handle),
        s₁.handles[n]? = some k → (s₁.after later).handles[n]? = some k := by
  subst h₁ h₂ h₃
  obtain ⟨ham, q, g, hstep, hgt⟩ := hs.valid.exists_poolStep ha
  have hn₁ := hstep.next hs.valid
  have hn₂ := hn₁.valid.after requests
  obtain ⟨hbm, q', h, hstep', hht⟩ := hn₂.valid.exists_poolStep hb
  have hg := hstep.getElem?_size
  have hgm : g ∈ (s.step r).2.handles := Array.mem_of_getElem? hg
  have ham' : a ∈ (s.step r).2.handles := hn₁.grows.mem ham
  -- the first node is still stored in the pool after the second request
  have hgq : g ∈ q'.nodes := by
    obtain ⟨p, hp, he⟩ := hn₂.grows.pools (hstep.getElem?_current hs.valid)
    rw [← hc, hn₂.valid.getElem?_pool] at hp
    cases hp
    exact hstep'.grows.mem (he.mem (hstep.mem g (List.mem_singleton_self g)).1)
  have hhq : h ∈ q'.nodes := (hstep'.mem h (List.mem_singleton_self h)).1
  refine ⟨g, h, hg, hstep'.getElem?_size, ?_, ?_, hgt, ?_, ?_, ?_, ?_, ?_, ?_⟩
  · calc g.sameNode h = true
      _ ↔ g.tag = h.tag := beq_iff_eq
      _ ↔ g.type = h.type :=
        ⟨fun he => congrArg Handle.type (hstep'.valid.eq_of_tag_eq hgq hhq he),
          fun he => congrArg Handle.tag (hstep'.valid.eq_of_type_eq hgq hhq he)⟩
      _ ↔ a.type = b.type := by rw [hgt, hht]
      _ ↔ a.equals b = true := (hn₂.valid.equals_iff (hn₂.grows.mem ham') hbm).symm
  · exact (hn₁.valid.equals_iff hgm ham').2 hgt
  · rw [← Handle.kind_type, hgt, Handle.kind_type]
  · rw [hgt]
  · rw [hgt]
  · rw [encodeType_eq_transcript (hn₁.valid.foreign hgm),
      encodeType_eq_transcript (hs.valid.foreign ham), hgt]
  · exact fun n k hk => hn₁.grows.getElem? hk
  · exact fun later n k hk => (hn₁.valid.after later).grows.getElem? hk

/-- Two pointers that share no node are interned to one node, although one of them is interned
into another pool in between. -/
theorem sameNode_twoPointers :
    let s₁ := (twoPointers.step (.intern 0)).2
    let s₂ := s₁.after [.usePool 1, .canon 1, .usePool 0]
    ∃ g h : Handle, s₁.handles[2]? = some g ∧
      (s₂.step (.canon 1)).2.handles[s₂.handles.size]? = some h ∧ g.sameNode h = true := by
  intro s₁ s₂
  have hv := reachable_twoPointers.valid
  have hg : twoPointers.Grows s₂ :=
    ((hv.step (.intern 0)).trans ((hv.step (.intern 0)).valid.after _)).grows
  obtain ⟨a, ha⟩ : ∃ a, twoPointers.handles[0]? = some a := ⟨_, rfl⟩
  obtain ⟨b, hb⟩ : ∃ b, twoPointers.handles[1]? = some b := ⟨_, rfl⟩
  have h₁ : s₁ = (twoPointers.step (.intern 0)).2 := rfl
  have h₂ : s₂ = s₁.after [.usePool 1, .canon 1, .usePool 0] := rfl
  have hc : s₂.current = twoPointers.current := rfl
  have hsize : twoPointers.handles.size = 2 := rfl
  have ha' : twoPointers.interned? (.intern 0) = some a := ha
  have hb' : s₂.interned? (.canon 1) = some b := hg.getElem? hb
  have he : a.equals b = true := by
    cases ha
    cases hb
    rfl
  obtain ⟨g, h, hg₁, hh, hiff, -⟩ :=
    reachable_twoPointers.sameNode_iff_equals h₁ h₂ rfl ha' hb' hc
  rw [hsize] at hg₁
  exact ⟨g, h, hg₁, hh, hiff.2 he⟩

end Session

end KernelSymbol
