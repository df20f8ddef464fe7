import KernelSymbol.Proofs.Acceptance
import KernelSymbol.Proofs.Encoder
import KernelSymbol.Proofs.Identity
import KernelSymbol.Session.Step

/-!
# What holds of every session

Whatever is asked of a session, in whatever order, its pools stay valid, and each node that a
handle reaches was either built outside every pool, with a number given out before, or is stored
in one of the pools. So no two nodes carry the same tag. Requests only ever add: nodes to the
current pool, handles to the list, numbers to those given out.

A request either works in the current pool, or it does not touch the pools. Both kinds are told
apart, because what the first kind returns is owned by the current pool.

## Main definitions

* `Session.Has`, `Session.Placed` — the nodes that handles reach, and where nodes may come from
* `Session.Valid` — the invariant
* `Session.Grows`, `Session.Next` — a later state of a session; one that keeps the invariant
* `Session.Request.asksPool` — requests for nodes of the current pool
* `Session.PoolStep` — what such a request does

## Main results

* `Session.Valid.poolStep`, `Session.Valid.step` — what one request keeps
* `Session.Valid.after`, `Session.Reachable.valid` — what a whole run keeps
* `Session.Valid.knows`, `Session.Valid.foreign`, `Session.Valid.equals_iff` — what pools,
  encoders and comparisons may rely on
-/

namespace KernelSymbol

namespace Session

/-! ### The invariant -/

/-- A node that some handle reaches. -/
def Has (s : Session) (g : Handle) : Prop := ∃ h ∈ s.handles, g ∈ h.subchains

/-- A node that was built outside every pool, with a number given out before, or that one of the
pools stores. -/
def Placed (s : Session) (g : Handle) : Prop :=
  (g.tag.maker = .outside ∧ g.tag.index < s.fresh) ∨
    ∃ (i : Nat) (p : Pool), s.pools[i]? = some p ∧ g ∈ p.nodes

/-- What holds of every session. -/
structure Valid (s : Session) : Prop where
  current_lt : s.current < s.pools.size
  /-- Every pool is valid and makes nodes in its own name. -/
  pool : ∀ {i : Nat} {p : Pool}, s.pools[i]? = some p → p.Valid ∧ p.maker = .pool i
  placed : ∀ {g : Handle}, s.Has g → s.Placed g
  /-- A tag says which node it is. -/
  coherent : ∀ {g h : Handle}, s.Has g → s.Has h → g.tag = h.tag → g = h
  wellFormed : ∀ h ∈ s.handles, h.type.WellFormed

/-- `s'` is a later state of `s`: its pools are later states of those of `s`, and handles and
numbers were added. -/
structure Grows (s s' : Session) : Prop where
  pools : ∀ {i : Nat} {p : Pool}, s.pools[i]? = some p →
    ∃ q, s'.pools[i]? = some q ∧ p.Extends q
  handles : s.handles.toList <+: s'.handles.toList
  fresh_le : s.fresh ≤ s'.fresh

/-- A later state that keeps the invariant. -/
structure Next (s s' : Session) : Prop where
  valid : s'.Valid
  grows : s.Grows s'

variable {s s' s'' : Session}

theorem Grows.refl (s : Session) : s.Grows s :=
  ⟨fun h => ⟨_, h, .refl _⟩, List.prefix_rfl, Nat.le_refl _⟩

theorem Grows.trans (h : s.Grows s') (k : s'.Grows s'') : s.Grows s'' := by
  refine ⟨fun hp => ?_, h.handles.trans k.handles, Nat.le_trans h.fresh_le k.fresh_le⟩
  obtain ⟨q, hq, he⟩ := h.pools hp
  obtain ⟨r, hr, he'⟩ := k.pools hq
  exact ⟨r, hr, he.trans he'⟩

theorem Grows.placed (h : s.Grows s') {g : Handle} (hg : s.Placed g) : s'.Placed g := by
  rcases hg with ⟨hm, hi⟩ | ⟨i, p, hp, hg⟩
  · exact .inl ⟨hm, Nat.lt_of_lt_of_le hi h.fresh_le⟩
  · obtain ⟨q, hq, he⟩ := h.pools hp
    exact .inr ⟨i, q, hq, he.mem hg⟩

theorem Grows.getElem? (h : s.Grows s') {n : Nat} {k : Handle} (hk : s.handles[n]? = some k) :
    s'.handles[n]? = some k := by
  rw [← Array.getElem?_toList] at hk ⊢
  obtain ⟨rest, hr⟩ := h.handles
  rw [← hr, List.getElem?_append_left (List.getElem?_eq_some_iff.1 hk).1, hk]

theorem Grows.mem (h : s.Grows s') {k : Handle} (hk : k ∈ s.handles) : k ∈ s'.handles := by
  rw [Array.mem_def] at hk ⊢
  exact h.handles.subset hk

theorem Next.refl (hs : s.Valid) : s.Next s := ⟨hs, .refl s⟩

theorem Next.trans (h : s.Next s') (k : s'.Next s'') : s.Next s'' :=
  ⟨k.valid, h.grows.trans k.grows⟩

/-! ### What handles reach -/

theorem has_of_mem {h : Handle} (hm : h ∈ s.handles) : s.Has h := ⟨h, hm, h.mem_subchains_self⟩

theorem Has.subchains {g h : Handle} (hh : s.Has h) (hg : g ∈ h.subchains) : s.Has g := by
  obtain ⟨k, hk, hhk⟩ := hh
  exact ⟨k, hk, Handle.subchains_trans hg hhk⟩

/-! ### What the invariant says -/

theorem Valid.getElem?_pool (hs : s.Valid) : s.pools[s.current]? = some s.pool := by
  rw [Session.pool, Array.getElem?_eq_getElem hs.current_lt, Option.getD_some]

theorem Valid.maker_of_stored (hs : s.Valid) {i : Nat} {p : Pool} (hp : s.pools[i]? = some p)
    {g : Handle} (hg : g ∈ p.nodes) : g.tag.maker = .pool i := by
  obtain ⟨hv, hm⟩ := hs.pool hp
  rw [hv.maker_of_mem hg, hm]

/-- A placed node that a pool made is stored there. -/
theorem Valid.mem_of_maker (hs : s.Valid) {i : Nat} {p : Pool} (hp : s.pools[i]? = some p)
    {g : Handle} (hg : s.Placed g) (hm : g.tag.maker = .pool i) : g ∈ p.nodes := by
  rcases hg with ⟨ho, -⟩ | ⟨j, q, hq, hg⟩
  · rw [ho] at hm
    cases hm
  · rw [hs.maker_of_stored hq hg] at hm
    cases hm
    rw [hp] at hq
    cases hq
    exact hg

/-- A stored node and a placed node with the same tag are the same. -/
theorem Valid.eq_of_stored (hs : s.Valid) {i : Nat} {p : Pool} (hp : s.pools[i]? = some p)
    {g h : Handle} (hg : g ∈ p.nodes) (hh : s.Placed h) (he : g.tag = h.tag) : g = h := by
  have hm : h.tag.maker = .pool i := by rw [← he, hs.maker_of_stored hp hg]
  exact (hs.pool hp).1.eq_of_tag_eq hg (hs.mem_of_maker hp hh hm) he

/-- A pool knows every placed node that carries one of its tags. -/
theorem Valid.mem_of_owns (hs : s.Valid) {i : Nat} {p : Pool} (hp : s.pools[i]? = some p)
    {g : Handle} (hg : s.Placed g) (ho : p.owns g.tag = true) : g ∈ p.nodes := by
  obtain ⟨h, hh, he⟩ := (hs.pool hp).1.owns_iff.1 ho
  rw [← hs.eq_of_stored hp hh hg he]
  exact hh

theorem Valid.knows (hs : s.Valid) {i : Nat} {p : Pool} (hp : s.pools[i]? = some p) {h : Handle}
    (hm : h ∈ s.handles) : p.Knows h :=
  fun _ hg ho => hs.mem_of_owns hp (hs.placed ⟨h, hm, hg⟩) ho

theorem Valid.foreign (hs : s.Valid) {h : Handle} (hm : h ∈ s.handles) :
    h.Foreign .encoder := by
  intro g hg he
  rcases hs.placed ⟨h, hm, hg⟩ with ⟨ho, -⟩ | ⟨i, p, hp, hgp⟩
  · rw [he] at ho
    cases ho
  · rw [hs.maker_of_stored hp hgp] at he
    cases he

/-- No later state of a pool holds a node of an encoder. -/
theorem Valid.foreign_of_stored (hs : s.Valid) {i : Nat} {p q : Pool} (hp : s.pools[i]? = some p)
    (hq : q.Valid) (he : p.Extends q) {h : Handle} (hh : h ∈ q.nodes) : h.Foreign .encoder := by
  refine hq.foreign ?_ hh
  rw [he.maker_eq, (hs.pool hp).2]
  exact nofun

theorem Valid.equals_iff (hs : s.Valid) {g h : Handle} (hg : g ∈ s.handles)
    (hh : h ∈ s.handles) : g.equals h = true ↔ g.type = h.type :=
  Handle.equals_iff fun _ hc _ hd => hs.coherent ⟨g, hg, hc⟩ ⟨h, hh, hd⟩

theorem Valid.equals_stored_iff (hs : s.Valid) {i : Nat} {p q : Pool} (hp : s.pools[i]? = some p)
    (hq : q.Valid) (he : p.Extends q) {g h : Handle} (hg : g ∈ s.handles) (hh : h ∈ q.nodes) :
    g.equals h = true ↔ g.type = h.type := by
  refine Handle.equals_iff fun c hc d hd htag => ?_
  have hd := hq.mem_subchains hh hd
  have hm : c.tag.maker = .pool i := by
    rw [htag, hq.maker_of_mem hd, he.maker_eq, (hs.pool hp).2]
  have hc : c ∈ p.nodes := hs.mem_of_maker hp (hs.placed ⟨g, hg, hc⟩) hm
  exact hq.eq_of_tag_eq (he.mem hc) hd htag

/-! ### Putting handles on the list -/

theorem has_add {h g : Handle} : (s.add h).2.Has g ↔ s.Has g ∨ g ∈ h.subchains := by
  constructor
  · rintro ⟨k, hk, hg⟩
    rcases Array.mem_push.1 hk with hk | rfl
    · exact .inl ⟨k, hk, hg⟩
    · exact .inr hg
  · rintro (⟨k, hk, hg⟩ | hg)
    · exact ⟨k, Array.mem_push.2 (.inl hk), hg⟩
    · exact ⟨h, Array.mem_push_self, hg⟩

theorem grows_add (s : Session) (h : Handle) : s.Grows (s.add h).2 :=
  ⟨fun hp => ⟨_, hp, .refl _⟩, by simp [add], Nat.le_refl _⟩

/-- A handle may be put on the list if its nodes have their place and share tags with no others. -/
theorem Valid.add (hs : s.Valid) {h : Handle} (hp : ∀ g ∈ h.subchains, s.Placed g)
    (hc : ∀ g ∈ h.subchains, ∀ k, s.Has k ∨ k ∈ h.subchains → g.tag = k.tag → g = k)
    (hw : h.type.WellFormed) : s.Next (s.add h).2 := by
  refine ⟨⟨hs.current_lt, hs.pool, fun hg => ?_, fun hg hk he => ?_, fun k hk => ?_⟩,
    grows_add s h⟩
  · refine (grows_add s h).placed ?_
    rcases has_add.1 hg with hg | hg
    · exact hs.placed hg
    · exact hp _ hg
  · rcases has_add.1 hg with hg | hg
    · rcases has_add.1 hk with hk | hk
      · exact hs.coherent hg hk he
      · exact (hc _ hk _ (.inl hg) he.symm).symm
    · exact hc _ hg _ (has_add.1 hk) he
  · rcases Array.mem_push.1 hk with hk | rfl
    · exact hs.wellFormed k hk
    · exact hw

theorem Valid.add_stored (hs : s.Valid) {i : Nat} {p : Pool} (hp : s.pools[i]? = some p)
    {h : Handle} (hm : h ∈ p.nodes) (hw : h.type.WellFormed) : s.Next (s.add h).2 := by
  have hsub : ∀ g ∈ h.subchains, g ∈ p.nodes := fun g hg => (hs.pool hp).1.mem_subchains hm hg
  have hplaced : ∀ g ∈ h.subchains, s.Placed g := fun g hg => .inr ⟨i, p, hp, hsub g hg⟩
  refine hs.add hplaced (fun g hg k hk he => ?_) hw
  exact hs.eq_of_stored hp (hsub g hg) (hk.elim hs.placed (hplaced k)) he

/-- The session with several more handles on the list. -/
def putAll (s : Session) (gs : List Handle) : Session := gs.foldl (fun s g => (s.add g).2) s

@[simp] theorem pools_putAll (s : Session) (gs : List Handle) : (s.putAll gs).pools = s.pools := by
  induction gs generalizing s with
  | nil => rfl
  | cons g gs ih => exact ih (s.add g).2

@[simp] theorem handles_putAll (s : Session) (gs : List Handle) :
    (s.putAll gs).handles.toList = s.handles.toList ++ gs := by
  induction gs generalizing s with
  | nil => simp [putAll]
  | cons g gs ih =>
    refine (ih (s.add g).2).trans ?_
    simp [add]

theorem Valid.putAll (hs : s.Valid) {i : Nat} {p : Pool} (hp : s.pools[i]? = some p)
    {gs : List Handle} (hg : ∀ g ∈ gs, g ∈ p.nodes ∧ g.type.WellFormed) :
    s.Next (s.putAll gs) := by
  induction gs generalizing s with
  | nil => exact .refl hs
  | cons g gs ih =>
    obtain ⟨⟨hm, hw⟩, hgs⟩ := List.forall_mem_cons.1 hg
    have h := hs.add_stored hp hm hw
    exact h.trans (ih h.valid hp hgs)

theorem addAll_snd (s : Session) (gs : List Handle) : (s.addAll gs).2 = s.putAll gs := by
  have key : ∀ (gs : List Handle) (s : Session) (done : List Node),
      (addAll.go s done gs).2 = s.putAll gs := by
    intro gs
    induction gs with
    | nil => exact fun _ _ => rfl
    | cons g gs ih => exact fun s done => ih (s.add g).2 _
  exact key gs s []

/-! ### Working in the current pool -/

/-- The session with another state of the current pool. -/
def setPool (s : Session) (q : Pool) : Session :=
  { s with pools := s.pools.setIfInBounds s.current q }

theorem inPool_eq {α : Type} (s : Session) (f : Pool → α × Pool) :
    s.inPool f = ((f s.pool).1, s.setPool (f s.pool).2) := by
  obtain ⟨pools, current, handles, numbers, fresh⟩ := s
  simp [inPool, setPool, pool, Array.setIfInBounds_setIfInBounds]

theorem getElem?_setPool (hs : s.current < s.pools.size) (q : Pool) :
    (s.setPool q).pools[s.current]? = some q :=
  Array.getElem?_setIfInBounds_self_of_lt hs

/-- A later state of the current pool takes its place. -/
theorem Valid.setPool (hs : s.Valid) {q : Pool} (hq : q.Valid) (he : s.pool.Extends q) :
    s.Next (s.setPool q) := by
  have hcur := getElem?_setPool hs.current_lt q
  have hother : ∀ {i : Nat}, i ≠ s.current → (s.setPool q).pools[i]? = s.pools[i]? := fun hi =>
    Array.getElem?_setIfInBounds_ne (Ne.symm hi)
  have hg : s.Grows (s.setPool q) := by
    refine ⟨fun {i p} hp => ?_, List.prefix_rfl, Nat.le_refl _⟩
    by_cases hi : i = s.current
    · subst hi
      rw [hs.getElem?_pool] at hp
      cases hp
      exact ⟨q, hcur, he⟩
    · exact ⟨p, (hother hi).trans hp, .refl p⟩
  refine ⟨⟨?_, fun {i p} hp => ?_, fun h => hg.placed (hs.placed h), hs.coherent,
    hs.wellFormed⟩, hg⟩
  · rw [Session.setPool, Array.size_setIfInBounds]
    exact hs.current_lt
  · by_cases hi : i = s.current
    · subst hi
      rw [hcur] at hp
      cases hp
      exact ⟨hq, he.maker_eq.trans (hs.pool hs.getElem?_pool).2⟩
    · exact hs.pool ((hother hi).symm.trans hp)

/-- What a request for nodes of the current pool does: the pool becomes `q`, a later state of
itself, and the nodes `gs` of `q` are put on the list. -/
structure PoolStep (s : Session) (q : Pool) (gs : List Handle) (s' : Session) : Prop where
  valid : q.Valid
  grows : s.pool.Extends q
  mem : ∀ g ∈ gs, g ∈ q.nodes ∧ g.type.WellFormed
  eq : s' = (s.setPool q).putAll gs

theorem PoolStep.next (hs : s.Valid) {q : Pool} {gs : List Handle} (h : PoolStep s q gs s') :
    s.Next s' := by
  have hq := hs.setPool h.valid h.grows
  rw [h.eq]
  exact hq.trans (hq.valid.putAll (getElem?_setPool hs.current_lt q) h.mem)

/-- A request that fails, or only looks, does nothing. -/
theorem Valid.poolStep_self (hs : s.Valid) : PoolStep s s.pool [] s := by
  refine ⟨(hs.pool hs.getElem?_pool).1, .refl _, by simp, ?_⟩
  have h : s.pools.setIfInBounds s.current s.pool = s.pools := by
    refine Array.ext_getElem? fun i => ?_
    by_cases hi : s.current = i
    · subst hi
      rw [Array.getElem?_setIfInBounds_self_of_lt hs.current_lt, hs.getElem?_pool]
    · exact Array.getElem?_setIfInBounds_ne hi
  rw [Session.putAll, List.foldl_nil, Session.setPool, h]

/-- Making a node in the current pool. -/
theorem poolStep_make {f : Pool → Handle × Pool} {t : ArgType} (hw : t.WellFormed)
    (hf : s.pool.Yields t (f s.pool)) :
    PoolStep s (f s.pool).2 [(f s.pool).1] (s.make f).2 := by
  refine ⟨hf.valid, hf.grows, ?_, ?_⟩
  · rw [List.forall_mem_singleton]
    exact ⟨hf.mem, by rwa [hf.type_eq]⟩
  · simp only [make, inPool_eq]
    rfl

/-- Making a node in the current pool, or failing to. -/
theorem Valid.poolStep_tryMake (hs : s.Valid) {f : Pool → Except BuildError Handle × Pool}
    (hf : s.pool.Makes (f s.pool)) : ∃ q gs, PoolStep s q gs (s.tryMake f).2 := by
  rcases hr : f s.pool with ⟨e | g, q⟩ <;> rw [hr] at hf
  · refine ⟨s.pool, [], ?_⟩
    have he : (s.tryMake f).2 = s.setPool q := by simp only [tryMake, inPool_eq, hr]
    rw [he, show q = s.pool from hf]
    have h := hs.poolStep_self
    exact ⟨h.valid, h.grows, h.mem, rfl⟩
  · obtain ⟨t, hw, hY⟩ := hf
    refine ⟨q, [g], hY.valid, hY.grows, ?_, ?_⟩
    · rw [List.forall_mem_singleton]
      refine ⟨hY.mem, ?_⟩
      rwa [show g.type = t from hY.type_eq]
    · simp only [tryMake, inPool_eq, hr]
      rfl

theorem Valid.poolStep_decode (hs : s.Valid) (text : String) :
    ∃ q gs, PoolStep s q gs (s.step (.decode text)).2 := by
  have hp := (hs.pool hs.getElem?_pool).1
  rcases hr : KernelSymbol.decode text s.pool with ⟨e | f, q⟩
  · obtain ⟨hq, he⟩ := hp.of_decode hr
    refine ⟨q, [], hq, he, by simp, ?_⟩
    simp only [step, inPool_eq, hr]
    rfl
  · obtain ⟨table, ht, hY⟩ := symbolText_of_decode hp hr
    obtain ⟨cs, ht, -⟩ := ht.typesText
    refine ⟨q, f.params, hY.valid, hY.grows, fun g hg => ⟨hY.mem g hg, ?_⟩, ?_⟩
    · exact ht.wellFormed _ (List.mem_map_of_mem hg)
    · simp only [step, inPool_eq, hr]
      exact addAll_snd _ _

/-- Requests for nodes of the current pool. -/
def Request.asksPool : Request → Bool
  | .internType .. | .intern .. | .canon .. | .builtin .. | .builtinNamed .. | .pointer ..
  | .pointerWith .. | .pointerRetaining .. | .vector .. | .named .. | .withSpace ..
  | .withQualifier .. | .find .. | .decode .. => true
  | _ => false

/-- What holds if a handle is missing, and for each handle, holds. -/
theorem of_withHandle {P : Session → Prop} {n : Nat} {f : Session → Handle → Reply × Session}
    (h : P s) (hf : ∀ k ∈ s.handles, P (f s k).2) : P (s.withHandle n f).2 := by
  rw [withHandle]
  split
  next k hk => exact hf k (Array.mem_of_getElem? hk)
  next => exact h

theorem of_withValue {α : Type} {P : Session → Prop} {value : Except BuildError α}
    {f : Session → α → Reply × Session} (h : P s) (hf : ∀ a, value = .ok a → P (f s a).2) :
    P (s.withValue value f).2 := by
  cases value with
  | ok a => exact hf a rfl
  | error e => exact h

/-- A pool knows fresh nodes, since none of them are its own. -/
theorem Valid.knows_outside (hs : s.Valid) {i : Nat} {p : Pool} (hp : s.pools[i]? = some p)
    (start : Nat) (t : ArgType) : p.Knows (.outside start t) := by
  intro g hg ho
  obtain ⟨h, hh, he⟩ := (hs.pool hp).1.owns_iff.1 ho
  have hm := hs.maker_of_stored hp hh
  rw [he, (Handle.mem_subchains_outside hg).1] at hm
  cases hm

/-- What a request for nodes of the current pool does. -/
theorem Valid.poolStep (hs : s.Valid) {r : Request} (hr : r.asksPool = true) :
    ∃ q gs, PoolStep s q gs (s.step r).2 := by
  have hp := (hs.pool hs.getElem?_pool).1
  have self : ∃ q gs, PoolStep s q gs s := ⟨_, _, hs.poolStep_self⟩
  have knows : ∀ {k : Handle}, k ∈ s.handles → s.pool.Knows k := hs.knows hs.getElem?_pool
  have make : ∀ {f : Pool → Handle × Pool} {t : ArgType}, t.WellFormed →
      s.pool.Yields t (f s.pool) → ∃ q gs, PoolStep s q gs (s.make f).2 :=
    fun hw hf => ⟨_, _, poolStep_make hw hf⟩
  let P : Session → Prop := fun s' => ∃ q gs, PoolStep s q gs s'
  cases r with
  | internType d =>
    refine of_withValue (P := P) self fun t ht => ?_
    have hY := hp.intern (hs.knows_outside hs.getElem?_pool 0 t)
    rw [Handle.type_outside] at hY
    exact make (Description.wellFormed_build ht) hY
  | intern n =>
    exact of_withHandle (P := P) self fun k hk => make (hs.wellFormed k hk) (hp.intern (knows hk))
  | canon n =>
    exact of_withHandle (P := P) self fun k hk => make (hs.wellFormed k hk) (hp.canon (knows hk))
  | builtin n =>
    exact of_withValue (P := P) self fun b _ => make (.builtin b) (hp.builtin b)
  | builtinNamed name =>
    rw [step]
    split
    next b _ => exact make (.builtin b) (hp.builtin b)
    next => exact self
  | pointer n =>
    exact of_withHandle (P := P) self fun k hk =>
      make (.pointer .plain (hs.wellFormed k hk)) (hp.pointer .plain (knows hk))
  | pointerWith n | pointerRetaining n =>
    exact of_withHandle (P := P) self fun k hk => of_withValue (P := P) self fun a _ =>
      make (.pointer a (hs.wellFormed k hk)) (hp.pointer a (knows hk))
  | vector n length =>
    exact of_withHandle (P := P) self fun k hk => hs.poolStep_tryMake (hp.vector length (knows hk))
  | named name => exact hs.poolStep_tryMake (hp.named name)
  | withSpace n space =>
    exact of_withHandle (P := P) self fun k hk => of_withValue (P := P) self fun a _ =>
      hs.poolStep_tryMake (hp.withAttrs (knows hk) (hs.wellFormed k hk) _)
  | withQualifier n slot on =>
    exact of_withHandle (P := P) self fun k hk => of_withValue (P := P) self fun q _ =>
      hs.poolStep_tryMake (hp.withAttrs (knows hk) (hs.wellFormed k hk) _)
  | find n =>
    refine of_withHandle (P := P) self fun k hk => ?_
    split
    next g hg =>
      obtain ⟨hm, ht⟩ := (hp.find?_eq_some_iff (knows hk)).1 hg
      have h := hs.poolStep_self
      refine ⟨s.pool, [g], h.valid, h.grows, ?_, ?_⟩
      · rw [List.forall_mem_singleton]
        exact ⟨hm, by rw [ht]; exact hs.wellFormed k hk⟩
      · rw [show s.setPool s.pool = s from h.eq.symm]
        rfl
    next => exact self
  | decode text => exact hs.poolStep_decode text
  | _ => cases hr

/-! ### Other requests -/

/-- A node outside every pool has a number that was given out. -/
theorem Valid.index_lt (hs : s.Valid) {g : Handle} (hg : s.Has g)
    (hm : g.tag.maker = .outside) : g.tag.index < s.fresh := by
  rcases hs.placed hg with ⟨-, hi⟩ | ⟨i, p, hp, hgp⟩
  · exact hi
  · rw [hs.maker_of_stored hp hgp] at hm
    cases hm

/-- More numbers may be given out. -/
theorem Valid.setFresh (hs : s.Valid) {n : Nat} (hn : s.fresh ≤ n) :
    s.Next { s with fresh := n } := by
  have hg : s.Grows { s with fresh := n } := ⟨fun hp => ⟨_, hp, .refl _⟩, List.prefix_rfl, hn⟩
  exact ⟨⟨hs.current_lt, hs.pool, fun h => hg.placed (hs.placed h), hs.coherent, hs.wellFormed⟩,
    hg⟩

/-- A chain of fresh nodes. -/
theorem Valid.add_outside (hs : s.Valid) {t : ArgType} (hw : t.WellFormed) :
    s.Next ({ s with fresh := s.fresh + t.depth + 1 }.add (.outside s.fresh t)).2 := by
  have hf : s.Next { s with fresh := s.fresh + t.depth + 1 } := hs.setFresh (by omega)
  refine hf.trans (hf.valid.add (fun g hg => ?_) (fun g hg k hk he => ?_) (by simpa using hw))
  · obtain ⟨hm, -, hi⟩ := Handle.mem_subchains_outside hg
    exact .inl ⟨hm, hi⟩
  · rcases hk with hk | hk
    · -- the numbers of older nodes are smaller
      obtain ⟨hm, hi, -⟩ := Handle.mem_subchains_outside hg
      rw [he] at hm hi
      exact absurd (hs.index_lt hk hm) (Nat.not_lt.2 hi)
    · exact Handle.outside_eq_of_tag_eq hg hk he

/-- One fresh node above a node that some handle reaches. -/
theorem Valid.makeOutside (hs : s.Valid) {l : Link} {h : Handle} (hm : s.Has h)
    (hw : (ArgType.cons l h.type).WellFormed) : s.Next (s.makeOutside l h).2 := by
  have hf : s.Next { s with fresh := s.fresh + 1 } := hs.setFresh (Nat.le_succ _)
  have old : ∀ {g : Handle}, g ∈ h.subchains → s.Has g := hm.subchains
  -- the number of the new node is that of no older node
  have new : ∀ {g : Handle}, s.Has g → g.tag ≠ ⟨.outside, s.fresh⟩ := by
    intro g hg he
    have hi := hs.index_lt hg (by rw [he])
    rw [he] at hi
    exact absurd hi (Nat.lt_irrefl _)
  refine hf.trans (hf.valid.add (fun g hg => ?_) (fun g hg k hk he => ?_) hw)
  · rw [Handle.subchains_cons, List.mem_cons] at hg
    rcases hg with rfl | hg
    · exact .inl ⟨rfl, Nat.lt_succ_self _⟩
    · exact hf.grows.placed (hs.placed (old hg))
  · rw [Handle.subchains_cons, List.mem_cons] at hg hk
    have hk : k = Handle.cons l ⟨.outside, s.fresh⟩ h ∨ s.Has k := by
      rcases hk with hk | hk | hk
      · exact .inr hk
      · exact .inl hk
      · exact .inr (old hk)
    rcases hg with rfl | hg <;> rcases hk with rfl | hk
    · rfl
    · exact absurd he.symm (new hk)
    · exact absurd he (new (old hg))
    · exact hs.coherent (old hg) hk he

/-- The node below a node. -/
theorem Valid.add_child (hs : s.Valid) {h c : Handle} (hm : h ∈ s.handles)
    (hc : h.child? = some c) : s.Next (s.add c).2 := by
  induction h using Handle.ind with
  | leaf l t => cases hc
  | cons l t h =>
    cases hc
    have old : ∀ {g : Handle}, g ∈ h.subchains → s.Has g := by
      intro g hg
      refine ⟨_, hm, ?_⟩
      rw [Handle.subchains_cons]
      exact List.mem_cons_of_mem _ hg
    refine hs.add (fun g hg => hs.placed (old hg)) (fun g hg k hk he => ?_) ?_
    · exact hs.coherent (old hg) (hk.elim id old) he
    · exact (hs.wellFormed _ hm).child (ArgType.child?_cons l h.type)

/-- A pool of the session that works in another pool is an old one or empty. -/
theorem getElem?_usePool {n i : Nat} {p : Pool} (hp : (s.usePool n).pools[i]? = some p) :
    s.pools[i]? = some p ∨ p = .empty i := by
  by_cases hi : i < s.pools.size
  · rw [Session.usePool, Array.getElem?_append_left hi] at hp
    exact .inl hp
  · rw [Session.usePool, Array.getElem?_append_right (Nat.not_lt.1 hi), List.getElem?_toArray,
      List.getElem?_map] at hp
    obtain ⟨j, hj, rfl⟩ := Option.map_eq_some_iff.1 hp
    obtain ⟨hlt, rfl⟩ := List.getElem?_eq_some_iff.1 hj
    rw [List.getElem_range', Nat.one_mul, Nat.add_sub_cancel' (Nat.not_lt.1 hi)]
    exact .inr rfl

/-- Another pool, which may be a new one. -/
theorem Valid.usePool (hs : s.Valid) (n : Nat) : s.Next (s.usePool n) := by
  have old : ∀ {i : Nat} {p : Pool}, s.pools[i]? = some p → (s.usePool n).pools[i]? = some p := by
    intro i p hp
    have hi : i < s.pools.size := (Array.getElem?_eq_some_iff.1 hp).1
    rw [← hp]
    exact Array.getElem?_append_left hi
  have hg : s.Grows (s.usePool n) :=
    ⟨fun hp => ⟨_, old hp, .refl _⟩, List.prefix_rfl, Nat.le_refl _⟩
  refine ⟨⟨?_, fun {i p} hp => ?_, fun h => hg.placed (hs.placed h), hs.coherent,
    hs.wellFormed⟩, hg⟩
  · simp only [Session.usePool, Array.size_append, List.size_toArray, List.length_map,
      List.length_range']
    omega
  · rcases getElem?_usePool hp with hp | rfl
    · exact hs.pool hp
    · exact ⟨Pool.valid_emptyOf _, rfl⟩

/-- One request keeps the invariant and only adds. -/
theorem Valid.step (hs : s.Valid) (r : Request) : s.Next (s.step r).2 := by
  by_cases hr : r.asksPool = true
  · obtain ⟨q, gs, h⟩ := hs.poolStep hr
    exact h.next hs
  · have self : s.Next s := .refl hs
    cases r with
    | outside d =>
      exact of_withValue (P := s.Next) self fun t ht =>
        hs.add_outside (Description.wellFormed_build ht)
    | outsidePointer n | outsideRetaining n =>
      exact of_withHandle (P := s.Next) self fun k hk => of_withValue (P := s.Next) self fun a _ =>
        hs.makeOutside (has_of_mem hk) (.pointer a (hs.wellFormed k hk))
    | outsideVector n length =>
      refine of_withHandle (P := s.Next) self fun k hk => of_withValue (P := s.Next) self ?_
      intro _ hc
      obtain ⟨hn, hsc⟩ := ArgType.checkVector_eq_ok_iff.1 hc
      exact hs.makeOutside (has_of_mem hk) (ArgType.wellFormed_cons_vector hn hsc)
    | child n =>
      refine of_withHandle (P := s.Next) self fun k hk => ?_
      split
      next c hc => exact hs.add_child hk hc
      next => exact self
    | contains n | owns n => exact of_withHandle (P := s.Next) self fun _ _ => self
    | same m n =>
      exact of_withHandle (P := s.Next) self fun _ _ =>
        of_withHandle (P := s.Next) self fun _ _ => self
    | isEmpty | types | debug => exact self
    | usePool n => exact hs.usePool n
    | encode name ns =>
      rw [Session.step]
      split
      next => exact self
      next => split <;> exact self
    | _ => exact absurd rfl hr

theorem valid_start : start.Valid where
  current_lt := Nat.zero_lt_one
  pool {i p} hp := by
    cases i with
    | zero =>
      cases hp
      exact ⟨Pool.valid_emptyOf _, rfl⟩
    | succ i => cases hp
  placed h := by
    obtain ⟨k, hk, -⟩ := h
    simp [start] at hk
  coherent h := by
    obtain ⟨k, hk, -⟩ := h
    simp [start] at hk
  wellFormed k hk := by simp [start] at hk

/-- A run of requests keeps the invariant and only adds. -/
theorem Valid.after (hs : s.Valid) (requests : List Request) : s.Next (s.after requests) := by
  induction requests generalizing s with
  | nil => exact .refl hs
  | cons r requests ih =>
    have h := hs.step r
    exact h.trans (ih h.valid)

/-- The invariant holds in every state that a session can get into. -/
theorem Reachable.valid (hs : s.Reachable) : s.Valid := by
  obtain ⟨requests, rfl⟩ := hs
  exact (valid_start.after requests).valid

end Session

end KernelSymbol
