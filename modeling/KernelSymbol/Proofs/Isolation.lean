import KernelSymbol.Proofs.Interning

/-!
# Pools do not see each other

A session may have any number of pools, and every handle may be given to every one of them. Still
a request changes at most the pool that it works in: a pool stores nodes of its own making only,
so a node from elsewhere is looked up and copied, and never adopted. What two pools store is
therefore disjoint, although types wander between them, and a type that comes back to the pool it
started from is found there as the node it was.

## Main results

* `Session.getElem?_step_of_not_asksPool`, `Session.Valid.getElem?_step_of_ne` — a request leaves
  all pools alone but the current one
* `Session.Valid.getElem?_after` — requests leave a pool alone unless one of them asks it for nodes
* `Session.Valid.eq_of_owns` — no two pools own a node
* `Session.Reachable.pools_isolated` — the three together, and the way of a node into another
  pool and back
-/

namespace KernelSymbol

namespace Session

variable {s : Session}

/-! ### Other pools -/

/-- A request that asks neither for nodes of the current pool nor for another pool leaves the pools
alone. -/
theorem pools_step {r : Request} (hr : r.asksPool = false) (hu : ∀ n, r ≠ .usePool n) :
    (s.step r).2.pools = s.pools := by
  let P : Session → Prop := fun s' => s'.pools = s.pools
  have self : P s := rfl
  cases r with
  | outside d => exact of_withValue (P := P) self fun _ _ => rfl
  | outsidePointer n | outsideRetaining n =>
    exact of_withHandle (P := P) self fun _ _ => of_withValue (P := P) self fun _ _ => rfl
  | outsideVector n length =>
    exact of_withHandle (P := P) self fun _ _ => of_withValue (P := P) self fun _ _ => rfl
  | child n =>
    refine of_withHandle (P := P) self fun k _ => ?_
    split <;> exact self
  | contains n | owns n => exact of_withHandle (P := P) self fun _ _ => self
  | same m n =>
    exact of_withHandle (P := P) self fun _ _ => of_withHandle (P := P) self fun _ _ => self
  | isEmpty | types | debug => exact self
  | usePool n => exact absurd rfl (hu n)
  | encode name ns =>
    rw [step]
    split
    next => exact self
    next => split <;> exact self
  | _ => cases hr

/-- A request that asks for no nodes of the current pool leaves every pool alone. -/
theorem getElem?_step_of_not_asksPool {r : Request} (hr : r.asksPool = false) {i : Nat} {p : Pool}
    (hp : s.pools[i]? = some p) : (s.step r).2.pools[i]? = some p := by
  by_cases hu : ∃ n, r = .usePool n
  · obtain ⟨n, rfl⟩ := hu
    have hi : i < s.pools.size := (Array.getElem?_eq_some_iff.1 hp).1
    rw [← hp]
    exact Array.getElem?_append_left hi
  · rwa [pools_step hr (not_exists.1 hu)]

theorem PoolStep.getElem?_of_ne {q : Pool} {gs : List Handle} {s' : Session}
    (h : PoolStep s q gs s') {i : Nat} (hi : i ≠ s.current) : s'.pools[i]? = s.pools[i]? := by
  rw [h.eq, pools_putAll]
  exact Array.getElem?_setIfInBounds_ne (Ne.symm hi)

theorem Valid.getElem?_step_of_ne (hs : s.Valid) (r : Request) {i : Nat} {p : Pool}
    (hi : i ≠ s.current) (hp : s.pools[i]? = some p) : (s.step r).2.pools[i]? = some p := by
  by_cases hr : r.asksPool = true
  · obtain ⟨q, gs, h⟩ := hs.poolStep hr
    rw [h.getElem?_of_ne hi, hp]
  · exact getElem?_step_of_not_asksPool (Bool.not_eq_true _ ▸ hr) hp

/-- Requests leave a pool alone if none of them asks it for nodes. -/
theorem Valid.getElem?_after (hs : s.Valid) {i : Nat} {p : Pool} (hp : s.pools[i]? = some p)
    {requests : List Request}
    (hn : ∀ (front : List Request) (r : Request) (back : List Request),
      requests = front ++ r :: back → r.asksPool = true → (s.after front).current ≠ i) :
    (s.after requests).pools[i]? = some p := by
  induction requests generalizing s with
  | nil => exact hp
  | cons r requests ih =>
    have hp₁ : (s.step r).2.pools[i]? = some p := by
      by_cases hr : r.asksPool = true
      · exact hs.getElem?_step_of_ne r (Ne.symm (hn [] r requests rfl hr)) hp
      · exact getElem?_step_of_not_asksPool (Bool.not_eq_true _ ▸ hr) hp
    refine ih (hs.step r).valid hp₁ fun front r' back he => ?_
    exact hn (r :: front) r' back (by rw [he]; rfl)

/-! ### Nodes of two pools -/

/-- No two pools own a node. -/
theorem Valid.eq_of_owns (hs : s.Valid) {i j : Nat} {p q : Pool} (hp : s.pools[i]? = some p)
    (hq : s.pools[j]? = some q) {t : Tag} (ht : p.owns t = true) (hu : q.owns t = true) :
    i = j := by
  obtain ⟨g, hg, rfl⟩ := (hs.pool hp).1.owns_iff.1 ht
  obtain ⟨h, hh, he⟩ := (hs.pool hq).1.owns_iff.1 hu
  -- a tag names the pool that made the node
  have hm : Maker.pool i = .pool j := by
    rw [← hs.maker_of_stored hp hg, ← he, hs.maker_of_stored hq hh]
  exact Maker.pool.inj hm

/-- Pools are isolated. A request leaves every pool but the current one as it is, nodes, index,
identities and counters; and requests leave a pool as it is as long as none of them asks it for
nodes. No two pools own a node. A handle that another pool owns is interned to an equal handle to
another node, and interning that node where the handle came from returns the handle. -/
theorem Reachable.pools_isolated (hs : s.Reachable) :
    (∀ (r : Request) (i : Nat) (p : Pool), i ≠ s.current → s.pools[i]? = some p →
      (s.step r).2.pools[i]? = some p) ∧
    (∀ (requests : List Request) (i : Nat) (p : Pool), s.pools[i]? = some p →
      (∀ (front : List Request) (r : Request) (back : List Request),
        requests = front ++ r :: back → r.asksPool = true → (s.after front).current ≠ i) →
      (s.after requests).pools[i]? = some p) ∧
    (∀ (i j : Nat) (p q : Pool) (t : Tag), s.pools[i]? = some p → s.pools[j]? = some q →
      p.owns t = true → q.owns t = true → i = j) ∧
    (∀ (r : Request) (h : Handle) (i : Nat) (p : Pool), s.interned? r = some h →
      s.pools[i]? = some p → p.owns h.tag = true → i ≠ s.current →
      ∃ g : Handle, (s.step r).2.handles[s.handles.size]? = some g ∧
        g.equals h = true ∧ g.sameNode h = false ∧
        ∀ (requests : List Request) (s' : Session), s' = (s.step r).2.after requests →
          s'.current = i →
          (s'.step (.canon s.handles.size)).2.handles[s'.handles.size]? = some h) := by
  have hv := hs.valid
  refine ⟨fun r i p => hv.getElem?_step_of_ne r, fun requests i p hp hn => hv.getElem?_after hp hn,
    fun i j p q t hp hq => hv.eq_of_owns hp hq, ?_⟩
  intro r h i p hr hp ho hi
  obtain ⟨hm, q, g, hstep, hgt⟩ := hv.exists_poolStep hr
  have hn := hstep.next hv
  have hg := hstep.getElem?_size
  have hgm : g ∈ (s.step r).2.handles := Array.mem_of_getElem? hg
  have hgq : g ∈ q.nodes := (hstep.mem g (List.mem_singleton_self g)).1
  refine ⟨g, hg, (hn.valid.equals_iff hgm (hn.grows.mem hm)).2 hgt, ?_, ?_⟩
  · rw [Handle.sameNode, beq_eq_false_iff_ne]
    intro he
    have hown : q.owns h.tag = true := by
      rw [← he]
      exact hstep.valid.owns_of_mem hgq
    refine hi (hn.valid.eq_of_owns ?_ (hstep.getElem?_current hv) ho hown)
    rw [hstep.getElem?_of_ne hi, hp]
  · rintro requests s' rfl rfl
    have hn' := hn.trans (hn.valid.after requests)
    have hg' : ((s.step r).2.after requests).interned? (.canon s.handles.size) = some g :=
      (hn.valid.after requests).grows.getElem? hg
    obtain ⟨-, q', k, hstep', hkt⟩ := hn'.valid.exists_poolStep hg'
    -- the handle is still stored in the pool that it came from
    have hhq : h ∈ q'.nodes := by
      obtain ⟨p', hp', he⟩ := hn'.grows.pools hp
      rw [hn'.valid.getElem?_pool] at hp'
      cases hp'
      exact hstep'.grows.mem (he.mem ((hv.knows hp hm).mem ho))
    have hkq : k ∈ q'.nodes := (hstep'.mem k (List.mem_singleton_self k)).1
    obtain rfl : k = h := hstep'.valid.eq_of_type_eq hkq hhq (hkt.trans hgt)
    exact hstep'.getElem?_size

/-- Two pointers, the first of which was interned into the first pool, when the second pool is
current. -/
def lentPointer : Session := twoPointers.after [.intern 0, .usePool 1]

/-- The second pool makes a node of its own for what the first pool owns, while the first pool stays
as it is; given the new node, the first pool returns the old one. -/
theorem pools_isolated_lentPointer :
    let s₁ := (lentPointer.step (.canon 2)).2
    let s₂ := s₁.after [.usePool 0]
    ∃ (p : Pool) (g h : Handle), lentPointer.pools[0]? = some p ∧ s₁.pools[0]? = some p ∧
      lentPointer.handles[2]? = some h ∧ s₁.handles[3]? = some g ∧ g.equals h = true ∧
      g.sameNode h = false ∧ (s₂.step (.canon 3)).2.handles[4]? = some h := by
  intro s₁ s₂
  have hv := reachable_twoPointers.valid
  have hs : lentPointer.Reachable := (reachable_twoPointers.step (.intern 0)).step (.usePool 1)
  obtain ⟨a, ha⟩ : ∃ a, twoPointers.interned? (.intern 0) = some a := ⟨_, rfl⟩
  obtain ⟨-, p, h, hstep, -⟩ := hv.exists_poolStep ha
  have hp : lentPointer.pools[0]? = some p :=
    getElem?_step_of_not_asksPool (r := .usePool 1) rfl (hstep.getElem?_current hv)
  have hh : lentPointer.handles[2]? = some h := hstep.getElem?_size
  have ho : p.owns h.tag = true :=
    hstep.valid.owns_of_mem (hstep.mem h (List.mem_singleton_self h)).1
  have hne : 0 ≠ lentPointer.current := by decide
  have hsize : lentPointer.handles.size = 3 := rfl
  obtain ⟨hother, -, -, hback⟩ := hs.pools_isolated
  obtain ⟨g, hg, he, hd, hret⟩ := hback (.canon 2) h 0 p hh hp ho hne
  rw [hsize] at hg hret
  exact ⟨p, g, h, hp, hother _ 0 p hne hp, hh, hg, he, hd, hret [.usePool 0] s₂ rfl rfl⟩

end Session

end KernelSymbol
