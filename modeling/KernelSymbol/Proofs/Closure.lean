import KernelSymbol.Proofs.Isolation
import Mathlib.Data.Finset.Card
import Mathlib.Tactic.Tauto

/-!
# What a pool stores is the closure of what was interned

To intern a type is to store every sub-chain of it that has no node yet, innermost first, and
nothing else. The walk stops at the first own node that it meets, and forgets nothing by that,
since whatever is below a stored node is stored. So an empty pool that is asked for types stores
the sub-chains of those types, once each, and in which order it was asked, how often, and through
which handles makes no difference to what is stored or to how many look-ups missed.

## Main definitions

* `Pool.missing` — the sub-chains of a type that a pool has no node for
* `ArgType.editAttrs?` — a pointer type with its attributes edited
* `Session.requested?`, `Session.asked` — the type that a request has interned; those that a run
  of requests passes to one pool

## Main results

* `Pool.Valid.types_settle`, `Pool.Valid.types_intern`, `Pool.Valid.types_canon` — interning
  stores what was missing
* `Session.Valid.fills_step` — so does every request
* `Session.Valid.exists_types_after` — what a pool stores after a run of requests
* `Session.Reachable.types_closure` — the types in an empty pool after a run, and how many
-/

namespace KernelSymbol

/-! ### Sub-chains -/

theorem Handle.map_type_subchains (h : Handle) :
    h.subchains.map Handle.type = h.type.subchains := by
  induction h using Handle.ind with
  | leaf l t => rfl
  | cons l t h ih =>
    rw [Handle.subchains_cons, List.map_cons, ih, Handle.type_cons, ArgType.subchains_cons]

namespace ArgType

theorem depth_le_of_mem_subchains {s t : ArgType} (h : s ∈ t.subchains) : s.depth ≤ t.depth := by
  induction t using ind with
  | leaf l =>
    obtain rfl := List.mem_singleton.1 h
    exact Nat.le_refl _
  | cons l t ih =>
    rw [subchains_cons] at h
    rcases List.mem_cons.1 h with rfl | h
    · exact Nat.le_refl _
    · exact Nat.le_succ_of_le (ih h)

theorem cons_notMem_subchains (l : Link) (t : ArgType) : cons l t ∉ t.subchains := by
  intro h
  have hd := depth_le_of_mem_subchains h
  rw [depth_cons] at hd
  exact Nat.not_succ_le_self _ hd

/-- The pointer type with its attributes edited by `f`, if the type is a pointer. -/
def editAttrs? (f : PointerAttrs → PointerAttrs) (t : ArgType) : Option ArgType :=
  match t.links with
  | .pointer a :: rest => some (pointer (f a) ⟨rest, t.leaf⟩)
  | _ => none

end ArgType

namespace Pool

variable {p q : Pool}

/-! ### Missing sub-chains -/

theorem length_types (p : Pool) : p.types.length = p.size := by
  simp [types, size]

theorem mem_types_iff {t : ArgType} : t ∈ p.types ↔ p.Stores t := by
  simp [types, Stores]

/-- The sub-chains of a type that have no node yet, innermost first. -/
def missing (p : Pool) (t : ArgType) : List ArgType :=
  (t.subchains.filter fun s => s ∉ p.types).reverse

theorem mem_missing_iff {s t : ArgType} : s ∈ p.missing t ↔ s ∈ t.subchains ∧ s ∉ p.types := by
  simp [missing]

theorem Valid.subchains_subset (hp : p.Valid) {t : ArgType} (ht : t ∈ p.types) :
    t.subchains ⊆ p.types := by
  intro s hs
  obtain ⟨g, hg, rfl⟩ := mem_types_iff.1 ht
  rw [← Handle.map_type_subchains] at hs
  obtain ⟨c, hc, rfl⟩ := List.mem_map.1 hs
  exact mem_types_iff.2 ⟨c, hp.mem_subchains hg hc, rfl⟩

theorem Valid.missing_of_mem (hp : p.Valid) {t : ArgType} (ht : t ∈ p.types) :
    p.missing t = [] := by
  refine List.eq_nil_iff_forall_not_mem.2 fun s hs => ?_
  obtain ⟨hs, hn⟩ := mem_missing_iff.1 hs
  exact hn (hp.subchains_subset ht hs)

theorem missing_leaf_of_notMem {l : Leaf} (h : ⟨[], l⟩ ∉ p.types) :
    p.missing ⟨[], l⟩ = [⟨[], l⟩] := by
  simp [missing, h]

/-- Of a type that is not stored, it is missing itself, after what is missing below it. -/
theorem missing_cons_of_notMem {l : Link} {t : ArgType} (h : ArgType.cons l t ∉ p.types) :
    p.missing (.cons l t) = p.missing t ++ [.cons l t] := by
  simp [missing, ArgType.subchains_cons, h]

/-! ### Look-ups -/

theorem types_lookup_of_none {key : Key} (hk : p.index[key]? = none) (make : Tag → Handle) :
    (p.lookup key make).2.types = p.types ++ [(make p.nextTag).type] := by
  rw [lookup, hk]
  simp [types]

theorem types_eq_of_nodes_eq (h : q.nodes = p.nodes) : q.types = p.types := by
  rw [types, h, types]

/-- A look-up for a leaf stores what is missing of it. -/
theorem Valid.types_leaf (hp : p.Valid) (l : Leaf) :
    (p.leaf l).2.types = p.types ++ p.missing ⟨[], l⟩ := by
  by_cases ht : ⟨[], l⟩ ∈ p.types
  · rw [hp.missing_of_mem ht, List.append_nil,
      types_eq_of_nodes_eq ((hp.leaf l).nodes_eq (mem_types_iff.1 ht))]
  · have hk : p.index[Key.leaf l]? = none := by
      refine Option.eq_none_iff_forall_not_mem.2 fun g hg => ht (mem_types_iff.2 ⟨g, ?_⟩)
      exact ⟨(hp.index_iff.1 hg).1, key_eq_leaf_iff.1 (hp.index_iff.1 hg).2⟩
    rw [missing_leaf_of_notMem ht]
    exact types_lookup_of_none hk _

/-- A look-up for a link above a stored node stores what is missing of its type. -/
theorem Valid.types_link (hp : p.Valid) (l : Link) {c : Handle} (hc : c ∈ p.nodes) :
    (p.link l c).2.types = p.types ++ p.missing (.cons l c.type) := by
  by_cases ht : ArgType.cons l c.type ∈ p.types
  · rw [hp.missing_of_mem ht, List.append_nil,
      types_eq_of_nodes_eq ((hp.link l hc).nodes_eq (mem_types_iff.1 ht))]
  · have hk : p.index[Key.link l c.tag]? = none := by
      refine Option.eq_none_iff_forall_not_mem.2 fun g hg => ht (mem_types_iff.2 ⟨g, ?_⟩)
      obtain ⟨hm, hk⟩ := hp.index_iff.1 hg
      exact ⟨hm, (hp.key_eq_link_iff hm hc).1 hk⟩
    have hbelow : p.missing c.type = [] := hp.missing_of_mem (mem_types_iff.2 ⟨c, hc, rfl⟩)
    rw [missing_cons_of_notMem ht, hbelow]
    exact types_lookup_of_none hk _

/-- A look-up above a node whose missing sub-chains were just stored. -/
theorem Yields.types_link (hp : p.Valid) {t : ArgType} {r : Handle × Pool} (h : Yields p t r)
    (ht : r.2.types = p.types ++ p.missing t) (l : Link) :
    (r.2.link l r.1).2.types = p.types ++ p.missing (.cons l t) := by
  have hbelow : t ∈ r.2.types := mem_types_iff.2 ⟨r.1, h.mem, h.type_eq⟩
  rw [h.valid.types_link l h.mem, h.type_eq]
  by_cases hc : ArgType.cons l t ∈ p.types
  · have hsub : t ∈ p.types :=
      hp.subchains_subset hc (by simp [ArgType.subchains_cons, ArgType.mem_subchains_self])
    have hr : r.2.types = p.types := by rw [ht, hp.missing_of_mem hsub, List.append_nil]
    rw [h.valid.missing_of_mem (hr ▸ hc), hp.missing_of_mem hc, hr]
  · -- the type itself is not among what was stored below it
    have hn : ArgType.cons l t ∉ r.2.types := by
      rw [ht, List.mem_append, not_or]
      exact ⟨hc, fun hm => ArgType.cons_notMem_subchains l t (mem_missing_iff.1 hm).1⟩
    rw [missing_cons_of_notMem hn, h.valid.missing_of_mem hbelow, missing_cons_of_notMem hc, ht]
    simp

/-! ### Interning -/

theorem Valid.types_settle (hp : p.Valid) {h : Handle} (hk : p.Knows h) :
    (p.settle h).2.types = p.types ++ p.missing h.type := by
  have own : p.owns h.tag = true → (p.settle h).2.types = p.types ++ p.missing h.type := by
    intro ho
    have ht : h.type ∈ p.types := mem_types_iff.2 ⟨h, hk.mem ho, rfl⟩
    rw [settle_of_owns ho, hp.missing_of_mem ht, List.append_nil]
  induction h using Handle.ind with
  | leaf l t =>
    by_cases ho : p.owns t = true
    · exact own ho
    · rw [settle_leaf_of_not_owns ho]
      exact hp.types_leaf l
  | cons l t h ih =>
    by_cases ho : p.owns t = true
    · exact own ho
    · rw [settle_cons_of_not_owns ho]
      have hkh : p.Knows h := hk.child rfl
      refine (hp.settle hkh).types_link hp (ih hkh fun ho => ?_) l
      rw [settle_of_owns ho, hp.missing_of_mem (mem_types_iff.2 ⟨h, hkh.mem ho, rfl⟩),
        List.append_nil]

theorem Valid.types_wrap (hp : p.Valid) (l : Link) {h : Handle} (hk : p.Knows h) :
    (p.wrap l h).2.types = p.types ++ p.missing (.cons l h.type) :=
  (hp.settle hk).types_link hp (hp.types_settle hk) l

theorem Valid.types_intern (hp : p.Valid) {h : Handle} (hk : p.Knows h) :
    (p.intern h).2.types = p.types ++ p.missing h.type := by
  induction h using Handle.ind with
  | leaf l t => exact hp.types_leaf l
  | cons l t h => exact hp.types_wrap l (hk.child rfl)

theorem Valid.types_canon (hp : p.Valid) {h : Handle} (hk : p.Knows h) :
    (p.canon h).2.types = p.types ++ p.missing h.type := by
  rw [Pool.canon]
  split
  next ho =>
    rw [hp.missing_of_mem (mem_types_iff.2 ⟨h, hk.mem ho, rfl⟩), List.append_nil]
    rfl
  next => exact hp.types_intern hk

/-- A vector stores what is missing of it, if it may be built, and nothing otherwise. -/
theorem Valid.types_vector (hp : p.Valid) (n : UInt32) {h : Handle} (hk : p.Knows h) :
    (p.vector n h).2.types =
      p.types ++ (ArgType.vector n h.type).toOption.elim [] p.missing := by
  rw [ArgType.vector]
  cases hc : ArgType.checkVector n h.type with
  | error e =>
    rw [vector_of_error hc]
    simp [Except.toOption]
  | ok =>
    simp only [Pool.vector, hc]
    exact hp.types_wrap (.vector n) hk

theorem Valid.types_named (hp : p.Valid) (name : String) :
    (p.named name).2.types = p.types ++ (ArgType.named name).toOption.elim [] p.missing := by
  rw [ArgType.named]
  cases hc : ArgType.checkName name with
  | error e =>
    rw [named_of_error hc]
    simp [Except.toOption]
  | ok =>
    simp only [Pool.named, hc]
    exact hp.types_leaf (.named name)

/-- An edited pointer stores what is missing of it, if it is a pointer, and nothing otherwise. -/
theorem Valid.types_withAttrs (hp : p.Valid) {h : Handle} (hk : p.Knows h)
    (f : PointerAttrs → PointerAttrs) :
    (p.withAttrs h f).2.types = p.types ++ (h.type.editAttrs? f).elim [] p.missing := by
  induction h using Handle.ind with
  | leaf l t => simp [Pool.withAttrs, ArgType.editAttrs?]
  | cons l t h =>
    cases l with
    | vector n => simp [Pool.withAttrs, Handle.cons, Handle.type, ArgType.editAttrs?]
    | pointer a => exact hp.types_wrap (.pointer (f a)) (hk.child rfl)

end Pool

namespace Session

variable {s s' : Session}

/-! ### Requests -/

/-- The type that a request interns into the current pool, if it does so. -/
def requested? (s : Session) : Request → Option ArgType
  | .internType d => d.build.toOption
  | .intern n | .canon n => s.handles[n]?.map Handle.type
  | .builtin n => (Builtin.ofNumber n).toOption.map .builtin
  | .builtinNamed name => (Builtin.all.find? fun b => b.name = name).map .builtin
  | .pointer n => s.handles[n]?.map fun h => .pointer .plain h.type
  | .pointerWith n space slots =>
    s.handles[n]?.bind fun h =>
      (PointerAttrs.ofNumbers space slots).toOption.map fun a => .pointer a h.type
  | .pointerRetaining n space byte =>
    s.handles[n]?.bind fun h =>
      (PointerAttrs.retain space byte).toOption.map fun a => .pointer a h.type
  | .vector n length => s.handles[n]?.bind fun h => (ArgType.vector length h.type).toOption
  | .named name => (ArgType.named name).toOption
  | .withSpace n space =>
    s.handles[n]?.bind fun h =>
      (AddressSpace.ofNumber space).toOption.bind fun a => h.type.editAttrs? (·.withSpace a)
  | .withQualifier n slot on =>
    s.handles[n]?.bind fun h =>
      (Qualifier.ofNumber slot).toOption.bind fun q => h.type.editAttrs? (·.setQualifier q on)
  | _ => none

/-- In `s'`, the pool that was current has stored what was missing of a type, if there is one. -/
def Fills (s : Session) (t : Option ArgType) (s' : Session) : Prop :=
  ∃ q, s'.pools[s.current]? = some q ∧ q.types = s.pool.types ++ t.elim [] s.pool.missing

theorem Valid.fills_none (hs : s.Valid) : s.Fills none s :=
  ⟨s.pool, hs.getElem?_pool, (List.append_nil _).symm⟩

theorem Valid.fills_make (hs : s.Valid) {f : Pool → Handle × Pool} {t : ArgType}
    (hf : (f s.pool).2.types = s.pool.types ++ s.pool.missing t) :
    s.Fills (some t) (s.make f).2 := by
  refine ⟨(f s.pool).2, ?_, hf⟩
  rw [make, inPool_eq]
  exact getElem?_setPool hs.current_lt _

theorem Valid.fills_tryMake (hs : s.Valid) {f : Pool → Except BuildError Handle × Pool}
    {t : Option ArgType}
    (hf : (f s.pool).2.types = s.pool.types ++ t.elim [] s.pool.missing) :
    s.Fills t (s.tryMake f).2 := by
  refine ⟨(f s.pool).2, ?_, hf⟩
  rw [tryMake, inPool_eq]
  cases (f s.pool).1 <;> exact getElem?_setPool hs.current_lt _

theorem Valid.fills_withHandle (hs : s.Valid) {n : Nat} {f : Session → Handle → Reply × Session}
    {t : Handle → Option ArgType} (hf : ∀ h ∈ s.handles, s.Fills (t h) (f s h).2) :
    s.Fills (s.handles[n]?.bind t) (s.withHandle n f).2 := by
  rw [withHandle]
  split
  next h hn =>
    rw [hn]
    exact hf h (Array.mem_of_getElem? hn)
  next hn =>
    rw [hn]
    exact hs.fills_none

theorem Valid.fills_withValue {α : Type} (hs : s.Valid) {value : Except BuildError α}
    {f : Session → α → Reply × Session} {t : α → Option ArgType}
    (hf : ∀ a, s.Fills (t a) (f s a).2) :
    s.Fills (value.toOption.bind t) (s.withValue value f).2 := by
  cases value with
  | ok a => exact hf a
  | error e => exact hs.fills_none

/-- A request for nodes of the current pool stores what is missing of the type that it interns. -/
theorem Valid.fills_step (hs : s.Valid) {r : Request} (hr : r.asksPool = true)
    (hd : ∀ text, r ≠ .decode text) : s.Fills (s.requested? r) (s.step r).2 := by
  have hp := (hs.pool hs.getElem?_pool).1
  have knows : ∀ {k : Handle}, k ∈ s.handles → s.pool.Knows k := hs.knows hs.getElem?_pool
  cases r with
  | internType d =>
    rw [requested?, ← Option.bind_fun_some d.build.toOption]
    refine hs.fills_withValue fun t => hs.fills_make ?_
    have ht := hp.types_intern (hs.knows_outside hs.getElem?_pool 0 t)
    rwa [Handle.type_outside] at ht
  | intern n =>
    rw [requested?, Option.map_eq_bind]
    exact hs.fills_withHandle fun k hk => hs.fills_make (hp.types_intern (knows hk))
  | canon n =>
    rw [requested?, Option.map_eq_bind]
    exact hs.fills_withHandle fun k hk => hs.fills_make (hp.types_canon (knows hk))
  | builtin n =>
    rw [requested?, Option.map_eq_bind]
    exact hs.fills_withValue fun b => hs.fills_make (hp.types_leaf (.builtin b))
  | builtinNamed name =>
    rw [requested?, Session.step]
    split
    next b hb =>
      rw [hb]
      exact hs.fills_make (hp.types_leaf (.builtin b))
    next hb =>
      rw [hb]
      exact hs.fills_none
  | pointer n =>
    rw [requested?, Option.map_eq_bind]
    exact hs.fills_withHandle fun k hk => hs.fills_make (hp.types_wrap (.pointer .plain) (knows hk))
  | pointerWith n | pointerRetaining n =>
    refine hs.fills_withHandle fun k hk => ?_
    rw [Option.map_eq_bind]
    exact hs.fills_withValue fun a => hs.fills_make (hp.types_wrap (.pointer a) (knows hk))
  | vector n length =>
    exact hs.fills_withHandle fun k hk => hs.fills_tryMake (hp.types_vector length (knows hk))
  | named name => exact hs.fills_tryMake (hp.types_named name)
  | withSpace n space =>
    exact hs.fills_withHandle fun k hk => hs.fills_withValue fun a =>
      hs.fills_tryMake (hp.types_withAttrs (knows hk) _)
  | withQualifier n slot on =>
    exact hs.fills_withHandle fun k hk => hs.fills_withValue fun q =>
      hs.fills_tryMake (hp.types_withAttrs (knows hk) _)
  | find n =>
    have hn : s.requested? (.find n) = s.handles[n]?.bind fun _ => none := by
      simp [requested?]
    rw [hn]
    refine hs.fills_withHandle fun k _ => ?_
    split <;> exact hs.fills_none
  | decode text => exact absurd rfl (hd text)
  | _ => cases hr

theorem requested?_eq_none {r : Request} (hr : r.asksPool = false) : s.requested? r = none := by
  cases r <;> first | rfl | cases hr

/-! ### Runs of requests -/

/-- The types that requests intern into the pool with a number, in order. -/
def asked (i : Nat) : Session → List Request → List ArgType
  | _, [] => []
  | s, r :: requests =>
    (if s.current = i then (s.requested? r).toList else []) ++ asked i (s.step r).2 requests

/-- No request has the pool with a number decode a symbol. -/
def NeverDecodes (s : Session) (i : Nat) (requests : List Request) : Prop :=
  ∀ (front : List Request) (text : String) (back : List Request),
    requests = front ++ .decode text :: back → (s.after front).current ≠ i

/-- After a request, a pool stores what it stored before and the sub-chains of the type that was
interned into it, if one was. -/
theorem Valid.exists_types_step (hs : s.Valid) {i : Nat} {p : Pool} (hp : s.pools[i]? = some p)
    {r : Request} (hd : s.NeverDecodes i [r]) :
    ∃ q, (s.step r).2.pools[i]? = some q ∧
      ∀ t, t ∈ q.types ↔ t ∈ p.types ∨ ∃ u ∈ asked i s [r], t ∈ u.subchains := by
  have hask : asked i s [r] = if s.current = i then (s.requested? r).toList else [] :=
    List.append_nil _
  by_cases hr : r.asksPool = true
  · by_cases hi : s.current = i
    · subst hi
      rw [hs.getElem?_pool] at hp
      cases hp
      have hdec : ∀ text, r ≠ .decode text := by
        rintro text rfl
        exact hd [] text [] rfl rfl
      obtain ⟨q, hq, ht⟩ := hs.fills_step hr hdec
      refine ⟨q, hq, fun t => ?_⟩
      rw [ht, List.mem_append, hask, if_pos rfl]
      cases s.requested? r with
      | none => simp
      | some u =>
        -- a sub-chain is stored already, or it is missing
        simp only [Option.elim_some, Pool.mem_missing_iff, Option.toList_some,
          List.mem_singleton, exists_eq_left]
        tauto
    · refine ⟨p, hs.getElem?_step_of_ne r (Ne.symm hi) hp, fun t => ?_⟩
      simp [hask, hi]
  · rw [Bool.not_eq_true] at hr
    refine ⟨p, getElem?_step_of_not_asksPool hr hp, fun t => ?_⟩
    simp [hask, requested?_eq_none hr]

/-- After a run of requests, a pool stores what it stored before and the sub-chains of the types
that were interned into it. -/
theorem Valid.exists_types_after (hs : s.Valid) {i : Nat} {p : Pool} (hp : s.pools[i]? = some p)
    {requests : List Request} (hd : s.NeverDecodes i requests) :
    ∃ q, (s.after requests).pools[i]? = some q ∧
      ∀ t, t ∈ q.types ↔ t ∈ p.types ∨ ∃ u ∈ asked i s requests, t ∈ u.subchains := by
  induction requests generalizing s p with
  | nil => exact ⟨p, hp, fun t => by simp [asked]⟩
  | cons r requests ih =>
    have hd₁ : s.NeverDecodes i [r] := by
      rintro (_ | ⟨_, front⟩) text back he
      · exact hd [] text requests (by cases he; rfl)
      · simp at he
    have hd₂ : (s.step r).2.NeverDecodes i requests := fun front text back he =>
      hd (r :: front) text back (by rw [he]; rfl)
    obtain ⟨p₁, hp₁, h₁⟩ := hs.exists_types_step hp hd₁
    obtain ⟨q, hq, h₂⟩ := ih (hs.step r).valid hp₁ hd₂
    refine ⟨q, hq, fun t => ?_⟩
    rw [h₂, h₁, or_assoc]
    simp only [asked, List.append_nil, List.mem_append, or_and_right, exists_or]

/-- A pool that was empty has stored the sub-chains of the types that were interned into it. -/
theorem Reachable.exists_types_eq (hs : s.Reachable) {i : Nat} {p : Pool}
    (hp : s.pools[i]? = some p) (he : p.isEmpty = true) {requests : List Request}
    (hd : s.NeverDecodes i requests) :
    ∃ q, (s.after requests).pools[i]? = some q ∧
      (∀ t, t ∈ q.types ↔ ∃ u ∈ asked i s requests, t ∈ u.subchains) ∧
      q.types.Nodup ∧ q.misses = q.size := by
  obtain ⟨q, hq, ht⟩ := hs.valid.exists_types_after hp hd
  have hqv := ((hs.valid.after requests).valid.pool hq).1
  have hempty : p.types = [] := by simpa [Pool.types, Pool.isEmpty] using he
  refine ⟨q, hq, fun t => ?_, hqv.nodup_map hqv.eq_of_type_eq, hqv.misses_eq⟩
  rw [ht, hempty]
  simp

/-- What a pool stores is the closure of what was interned. A pool that was empty has stored, after
any requests but those that have it decode a symbol, exactly the sub-chains of the types that they
interned into it, each of them once, and there were as many misses. Another empty pool, maybe of
another session, that is asked for the same types in any other order, and for each of them any
number of times, stores the same types and counts the same misses. -/
theorem Reachable.types_closure (hs : s.Reachable) {i : Nat} {p : Pool}
    (hp : s.pools[i]? = some p) (he : p.isEmpty = true) {requests : List Request}
    (hd : s.NeverDecodes i requests) :
    ∃ q, (s.after requests).pools[i]? = some q ∧
      (∀ t, t ∈ q.types ↔ ∃ u ∈ asked i s requests, t ∈ u.subchains) ∧
      q.types.Nodup ∧
      q.size = ((asked i s requests).flatMap ArgType.subchains).toFinset.card ∧
      q.misses = q.size ∧
      ∀ (s' : Session) (j : Nat) (p' : Pool) (requests' : List Request), s'.Reachable →
        s'.pools[j]? = some p' → p'.isEmpty = true → s'.NeverDecodes j requests' →
        (∀ t, t ∈ asked j s' requests' ↔ t ∈ asked i s requests) →
        ∃ q', (s'.after requests').pools[j]? = some q' ∧ q'.types.Perm q.types ∧
          q'.size = q.size ∧ q'.misses = q.misses := by
  obtain ⟨q, hq, ht, hn, hm⟩ := hs.exists_types_eq hp he hd
  refine ⟨q, hq, ht, hn, ?_, hm, ?_⟩
  · have hset : ((asked i s requests).flatMap ArgType.subchains).toFinset = q.types.toFinset := by
      ext t
      simp [ht]
    rw [hset, List.toFinset_card_of_nodup hn, Pool.length_types]
  · intro s' j p' requests' hs' hp' he' hd' hsame
    obtain ⟨q', hq', ht', hn', hm'⟩ := hs'.exists_types_eq hp' he' hd'
    have hperm : q'.types.Perm q.types := by
      rw [List.perm_ext_iff_of_nodup hn' hn]
      intro t
      simp only [ht', ht, hsame]
    have hsize : q'.size = q.size := by
      rw [← Pool.length_types, hperm.length_eq, Pool.length_types]
    exact ⟨q', hq', hperm, hsize, by rw [hm', hm, hsize]⟩

/-- A pointer and the builtin that it points to, interned the one way and, with repetitions and
through another handle, the other way round. -/
theorem types_closure_twoPointers :
    ∃ q q' : Pool, (twoPointers.after [.intern 0, .builtin 0]).pools[0]? = some q ∧
      (twoPointers.after [.builtin 0, .canon 1, .intern 0]).pools[0]? = some q' ∧
      q.size = 2 ∧ q'.types.Perm q.types ∧ q'.misses = q.misses := by
  have hsub : ∀ (requests : List Request), (∀ r ∈ requests, ∀ text, r ≠ .decode text) →
      twoPointers.NeverDecodes 0 requests := fun requests h front text back he =>
    absurd rfl (h (.decode text) (by simp [he]) text)
  obtain ⟨p, hp⟩ : ∃ p, twoPointers.pools[0]? = some p := ⟨_, rfl⟩
  have he : p.isEmpty = true := by
    cases hp
    rfl
  let t : ArgType := .builtin (Builtin.all.get ⟨0, by decide⟩)
  have ha : asked 0 twoPointers [.intern 0, .builtin 0] = [.pointer .plain t, t] := rfl
  have hb : asked 0 twoPointers [.builtin 0, .canon 1, .intern 0] =
      [t, .pointer .plain t, .pointer .plain t] := rfl
  obtain ⟨q, hq, -, -, hsize, -, hother⟩ := reachable_twoPointers.types_closure hp he
    (hsub [.intern 0, .builtin 0] (by simp))
  obtain ⟨q', hq', hperm, -, hm⟩ := hother twoPointers 0 p [.builtin 0, .canon 1, .intern 0]
    reachable_twoPointers hp he (hsub _ (by simp)) (fun u => by rw [ha, hb]; simp [or_comm])
  refine ⟨q, q', hq, hq', ?_, hperm, hm⟩
  rw [hsize, ha]
  decide

end Session

end KernelSymbol
