import KernelSymbol.Proofs.Closure
import Mathlib.Order.Bounds.Basic

/-!
# What interning costs

Every look-up of a pool is counted, and which look-ups there are is settled by the chain that is
interned: the walk goes down from the outermost node to the first own node below it, and on the way
back each node that it passed is looked up once. What is below a stored type is stored, so from the
first node that is missed on every node is missed. The look-ups are therefore some hits and then
some misses, and each of the two kinds is known beforehand from the types that are stored.

A node that is own already costs one hit, whether it is handed over itself or as a copy of it. So
the short way for own nodes is a way to the same node and to the same counters.

## Main definitions

* `Handle.copy`, `Handle.above` — a copy of the outermost node, and one above another node
* `Pool.LooksUp`, `Pool.LooksUpAll` — a counted look-up, and several in a row
* `Pool.Accounts` — the look-ups for a chain, hits first

## Main results

* `Pool.Valid.accounts_settle`, `Pool.Valid.accounts_intern` — the look-ups of interning
* `Pool.Valid.intern_of_mem`, `Pool.Valid.canon_eq_intern` — own nodes, in both ways
* `Session.Reachable.intern_accounts` — the look-ups in every state of a session
* `Session.Reachable.canon_agrees` — the short way in every state of a session
-/

namespace KernelSymbol

namespace Handle

/-! ### Copies of a node -/

/-- A copy of the outermost node, with an identity of its own, above the same node. -/
def copy (n : Handle) (t : Tag) : Handle :=
  match n.links with
  | [] => { n with leafTag := t }
  | (l, _) :: rest => { n with links := (l, t) :: rest }

/-- A copy of the outermost node above another node, if there is one to put it above. -/
def above (n : Handle) (below : Option Handle) (t : Tag) : Handle :=
  match n.links, below with
  | (l, _) :: _, some c => c.cons l t
  | _, _ => n.copy t

@[simp] theorem tag_above (n : Handle) (below : Option Handle) (t : Tag) :
    (n.above below t).tag = t := by
  rcases n with ⟨_ | ⟨l, ls⟩, leaf, u⟩ <;> cases below <;> rfl

theorem subchains_getElem?_zero (h : Handle) : h.subchains[0]? = some h := by
  induction h using ind with
  | leaf l t => rfl
  | cons l t h => rw [subchains_cons, List.getElem?_cons_zero]

end Handle

namespace Pool

variable {p q : Pool}

/-! ### Counted look-ups -/

/-- A counted look-up for a node above the own node `below`. A hit yields the stored node with the
key, and a miss stores a copy of the node. -/
inductive LooksUp (n : Handle) (below : Option Handle) (p : Pool) : Bool → Handle → Pool → Prop
  | hit {g : Handle} (h : p.index[(n.above below p.nextTag).key]? = some g) :
    LooksUp n below p true g { p with hits := p.hits + 1 }
  | miss (h : p.index[(n.above below p.nextTag).key]? = none) :
    LooksUp n below p false (n.above below p.nextTag) (p.store (n.above below p.nextTag))

/-- Counted look-ups for nodes in a row, each above the own node that the one before it yielded.
The log has the nodes and whether they were found. -/
inductive LooksUpAll (below : Option Handle) (p : Pool) :
    List (Handle × Bool) → Option Handle → Pool → Prop
  | nil : LooksUpAll below p [] below p
  | concat {log : List (Handle × Bool)} {c : Option Handle} {q r : Pool} {n g : Handle}
      {found : Bool} (h : LooksUpAll below p log c q) (hn : LooksUp n c q found g r) :
      LooksUpAll below p (log ++ [(n, found)]) (some g) r

/-- A look-up for a node by its key is counted. -/
theorem looksUp_lookup (p : Pool) (n : Handle) (below : Option Handle) :
    LooksUp n below p (p.index[(n.above below p.nextTag).key]?).isSome
      (p.lookup (n.above below p.nextTag).key (n.above below)).1
      (p.lookup (n.above below p.nextTag).key (n.above below)).2 := by
  rw [lookup]
  split
  next g hg =>
    rw [hg]
    exact .hit hg
  next hn =>
    have hmiss : LooksUp n below p false _ _ := .miss hn
    rw [store, Handle.tag_above] at hmiss
    rw [hn]
    exact hmiss

theorem looksUp_leaf (p : Pool) (l : Leaf) (t : Tag) (below : Option Handle) :
    LooksUp ⟨[], l, t⟩ below p (p.leaf? l).isSome (p.leaf l).1 (p.leaf l).2 :=
  looksUp_lookup p ⟨[], l, t⟩ below

theorem looksUp_link (p : Pool) (l : Link) (t : Tag) (h c : Handle) :
    LooksUp (h.cons l t) (some c) p (p.link? l c).isSome (p.link l c).1 (p.link l c).2 :=
  looksUp_lookup p (h.cons l t) (some c)

/-- The counters count the log. -/
theorem LooksUpAll.counts {below c : Option Handle} {log : List (Handle × Bool)}
    (h : LooksUpAll below p log c q) :
    q.hits = p.hits + log.countP (·.2) ∧ q.misses = p.misses + log.countP (!·.2) := by
  induction h with
  | nil => exact ⟨rfl, rfl⟩
  | concat h hn ih =>
    obtain ⟨hhits, hmisses⟩ := ih
    cases hn with
    | hit _ => simp [hhits, hmisses, Nat.add_assoc]
    | miss _ => simp [store, hhits, hmisses, Nat.add_assoc]

/-- Hits change nothing but the counter of hits. -/
theorem LooksUpAll.eq_of_found {below c : Option Handle} {log : List (Handle × Bool)}
    (h : LooksUpAll below p log c q) (hf : ∀ e ∈ log, e.2 = true) :
    q = { p with hits := p.hits + log.length } := by
  induction h with
  | nil => rfl
  | concat h hn ih =>
    rw [List.forall_mem_append, List.forall_mem_singleton] at hf
    cases hn with
    | hit _ => simp [ih hf.1, Nat.add_assoc]
    | miss _ => cases hf.2

/-! ### Stored types -/

theorem Valid.isSome_leaf?_iff (hp : p.Valid) {l : Leaf} :
    (p.leaf? l).isSome = true ↔ ⟨[], l⟩ ∈ p.types := by
  simp only [Option.isSome_iff_exists, hp.leaf?_eq_some_iff, mem_types_iff, Stores]

theorem Valid.isSome_link?_iff (hp : p.Valid) {l : Link} {c : Handle} (hc : c ∈ p.nodes) :
    (p.link? l c).isSome = true ↔ ArgType.cons l c.type ∈ p.types := by
  simp only [Option.isSome_iff_exists, hp.link?_eq_some_iff hc, mem_types_iff, Stores]

/-! ### The look-ups for a chain -/

/-- The look-ups for nodes in a row, innermost first, above the own node `below`. First come nodes
whose types are stored, and they are found; then come the others, and they are stored in the same
order behind what was there. -/
structure Accounts (p : Pool) (below : Option Handle) (nodes found new : List Handle)
    (r : Handle × Pool) : Prop where
  nodes_eq : nodes = found ++ new
  looksUp : LooksUpAll below p (found.map (·, true) ++ new.map (·, false)) (some r.1) r.2
  found_mem : ∀ n ∈ found, n.type ∈ p.types
  new_notMem : ∀ n ∈ new, n.type ∉ p.types
  types_eq : r.2.types = p.types ++ new.map Handle.type

theorem accounts_self (p : Pool) (h : Handle) : Accounts p (some h) [] [] [] (h, p) :=
  ⟨rfl, .nil, List.forall_mem_nil _, List.forall_mem_nil _, (List.append_nil _).symm⟩

/-- A leaf that is not own is looked up. -/
theorem Valid.accounts_leaf (hp : p.Valid) (l : Leaf) (t : Tag) :
    ∃ found new, Accounts p none [⟨[], l, t⟩] found new (p.leaf l) := by
  have hlook := LooksUpAll.nil.concat (looksUp_leaf p l t none)
  by_cases hm : ⟨[], l⟩ ∈ p.types
  · rw [hp.isSome_leaf?_iff.2 hm] at hlook
    refine ⟨[⟨[], l, t⟩], [], rfl, hlook, by simpa using hm, List.forall_mem_nil _, ?_⟩
    rw [hp.types_leaf, hp.missing_of_mem hm, List.map_nil]
  · rw [Bool.eq_false_iff.2 (mt hp.isSome_leaf?_iff.1 hm)] at hlook
    refine ⟨[], [⟨[], l, t⟩], rfl, hlook, List.forall_mem_nil _, by simpa using hm, ?_⟩
    rw [hp.types_leaf, missing_leaf_of_notMem hm]
    rfl

/-- After the look-ups for what is below, a link is looked up. Where it is found, everything below
was found; and where something below was stored, it is stored itself. -/
theorem Accounts.link (hp : p.Valid) {below : Option Handle} {h : Handle}
    {nodes found new : List Handle} {r : Handle × Pool} (ha : Accounts p below nodes found new r)
    (hY : Yields p h.type r)
    (hsub : ∀ n ∈ nodes, n ∈ h.subchains) (l : Link) (t : Tag) :
    ∃ found' new', Accounts p below (nodes ++ [h.cons l t]) found' new' (r.2.link l r.1) := by
  have hlook := ha.looksUp.concat (looksUp_link r.2 l t h r.1)
  have hsome := hY.valid.isSome_link?_iff (l := l) hY.mem
  have htypes := hY.valid.types_link l hY.mem
  rw [hY.type_eq] at hsome htypes
  have hbelow : h.type ∈ r.2.types := mem_types_iff.2 ⟨r.1, hY.mem, hY.type_eq⟩
  have hnew : ∀ n ∈ new, n.type ∈ h.type.subchains := fun n hn => by
    rw [← Handle.map_type_subchains]
    exact List.mem_map_of_mem (hsub n (ha.nodes_eq ▸ List.mem_append_right _ hn))
  by_cases hm : ArgType.cons l h.type ∈ p.types
  · -- all that is below is stored, so nothing below was missed
    have hnil : new = [] := by
      refine List.eq_nil_iff_forall_not_mem.2 fun n hn => ha.new_notMem n hn ?_
      refine hp.subchains_subset hm ?_
      rw [ArgType.subchains_cons]
      exact List.mem_cons_of_mem _ (hnew n hn)
    subst hnil
    have hr : r.2.types = p.types := by rw [ha.types_eq, List.map_nil, List.append_nil]
    have hm' : ArgType.cons l h.type ∈ r.2.types := hr ▸ hm
    rw [hsome.2 hm'] at hlook
    refine ⟨found ++ [h.cons l t], [], ?_, ?_, ?_, List.forall_mem_nil _, ?_⟩
    · rw [ha.nodes_eq]
      simp
    · simpa using hlook
    · rw [List.forall_mem_append, List.forall_mem_singleton]
      exact ⟨ha.found_mem, hm⟩
    · rw [htypes, hY.valid.missing_of_mem hm', hr, List.map_nil]
  · have hm' : ArgType.cons l h.type ∉ r.2.types := by
      rw [ha.types_eq, List.mem_append, not_or]
      refine ⟨hm, fun hn => ?_⟩
      obtain ⟨n, hn, he⟩ := List.mem_map.1 hn
      exact ArgType.cons_notMem_subchains l h.type (he ▸ hnew n hn)
    rw [Bool.eq_false_iff.2 (mt hsome.1 hm')] at hlook
    refine ⟨found, new ++ [h.cons l t], ?_, ?_, ha.found_mem, ?_, ?_⟩
    · rw [ha.nodes_eq, List.append_assoc]
    · simpa using hlook
    · rw [List.forall_mem_append, List.forall_mem_singleton]
      exact ⟨ha.new_notMem, hm⟩
    · rw [htypes, missing_cons_of_notMem hm', hY.valid.missing_of_mem hbelow, ha.types_eq]
      simp

/-- How far below the outermost node the first own node is; without one, as far as the chain
goes. -/
def ownDepth (p : Pool) (h : Handle) : Nat := h.subchains.findIdx fun n => p.owns n.tag

/-- Settling a chain looks up the nodes above the first own node. -/
theorem Valid.accounts_settle (hp : p.Valid) {h : Handle} (hk : p.Knows h) :
    ∃ found new, Accounts p h.subchains[p.ownDepth h]? (h.subchains.take (p.ownDepth h)).reverse
      found new (p.settle h) := by
  induction h using Handle.ind with
  | leaf l t =>
    by_cases ho : p.owns t = true
    · have hd : p.ownDepth ⟨[], l, t⟩ = 0 := by simp [ownDepth, List.findIdx_cons, ho]
      rw [hd, settle_of_owns ho]
      exact ⟨[], [], accounts_self p _⟩
    · have hd : p.ownDepth ⟨[], l, t⟩ = 1 := by simp [ownDepth, List.findIdx_cons, ho]
      rw [hd, settle_leaf_of_not_owns ho]
      exact hp.accounts_leaf l t
  | cons l t h ih =>
    by_cases ho : p.owns t = true
    · have hd : p.ownDepth (h.cons l t) = 0 := by
        simp [ownDepth, Handle.subchains_cons, List.findIdx_cons, ho]
      rw [hd, settle_of_owns ho, Handle.subchains_cons]
      exact ⟨[], [], accounts_self p _⟩
    · have hd : p.ownDepth (h.cons l t) = p.ownDepth h + 1 := by
        simp [ownDepth, Handle.subchains_cons, List.findIdx_cons, ho]
      rw [hd, settle_cons_of_not_owns ho, Handle.subchains_cons, List.getElem?_cons_succ,
        List.take_succ_cons, List.reverse_cons]
      have hkh : p.Knows h := hk.child rfl
      obtain ⟨found, new, ha⟩ := ih hkh
      exact ha.link hp (hp.settle hkh)
        (fun n hn => List.mem_of_mem_take (List.mem_reverse.1 hn)) l t

/-- The first own node is where the walk from the outermost node down finds it. -/
theorem isLeast_ownDepth (p : Pool) (h : Handle) :
    IsLeast {i | ∀ n ∈ h.subchains[i]?, p.owns n.tag = true} (p.ownDepth h) := by
  refine ⟨fun n hn => ?_, fun i hi => ?_⟩
  · obtain ⟨hlt, rfl⟩ := List.getElem?_eq_some_iff.1 hn
    exact List.findIdx_getElem (w := hlt)
  · by_contra hlt
    have hlt : i < p.ownDepth h := Nat.not_le.1 hlt
    have hlen : i < h.subchains.length := Nat.lt_of_lt_of_le hlt List.findIdx_le_length
    have hn := List.not_of_lt_findIdx hlt
    rw [hi _ (List.getElem?_eq_getElem hlen)] at hn
    cases hn

/-- Interning looks up the outermost node after the nodes between it and the first own node below
it. -/
theorem Valid.accounts_intern (hp : p.Valid) {h : Handle} (hk : p.Knows h) :
    ∃ m found new, IsLeast {i | 1 ≤ i ∧ ∀ n ∈ h.subchains[i]?, p.owns n.tag = true} m ∧
      Accounts p h.subchains[m]? (h.subchains.take m).reverse found new (p.intern h) := by
  induction h using Handle.ind with
  | leaf l t =>
    obtain ⟨found, new, ha⟩ := hp.accounts_leaf l t
    exact ⟨1, found, new, ⟨⟨Nat.le_refl 1, fun n hn => nomatch hn⟩, fun i hi => hi.1⟩, ha⟩
  | cons l t h =>
    have hkh : p.Knows h := hk.child rfl
    have hleast := p.isLeast_ownDepth h
    obtain ⟨found, new, ha⟩ := hp.accounts_settle hkh
    obtain ⟨found, new, ha⟩ := ha.link hp (hp.settle hkh)
      (fun n hn => List.mem_of_mem_take (List.mem_reverse.1 hn)) l t
    rw [Handle.subchains_cons]
    refine ⟨p.ownDepth h + 1, found, new, ⟨⟨Nat.le_add_left .., hleast.1⟩, ?_⟩, ?_⟩
    · rintro (_ | i) ⟨hi, hn⟩
      · cases hi
      · exact Nat.succ_le_succ (hleast.2 hn)
    · rwa [List.getElem?_cons_succ, List.take_succ_cons, List.reverse_cons]

/-! ### The short way -/

theorem lookup_of_some {key : Key} {g : Handle} (h : p.index[key]? = some g)
    (make : Tag → Handle) : p.lookup key make = (g, { p with hits := p.hits + 1 }) := by
  rw [lookup, h]

/-- Interning does not ask for the identity of the outermost node. -/
theorem intern_copy (p : Pool) (h : Handle) (t : Tag) : p.intern (h.copy t) = p.intern h := by
  rcases h with ⟨_ | ⟨l, ls⟩, leaf, u⟩ <;> rfl

/-- A stored node is interned to itself by one hit. -/
theorem Valid.intern_of_mem (hp : p.Valid) {h : Handle} (hm : h ∈ p.nodes) :
    p.intern h = (h, { p with hits := p.hits + 1 }) := by
  have hkey := hp.index_iff.2 ⟨hm, rfl⟩
  induction h using Handle.ind with
  | leaf l t => exact lookup_of_some hkey _
  | cons l t h =>
    have ho : p.owns h.tag = true := hp.owns_of_mem (hp.mem_child hm (Handle.child?_cons l t h))
    change p.wrap l h = _
    rw [Pool.wrap, settle_of_owns ho]
    exact lookup_of_some hkey _

theorem Valid.canon_eq_intern (hp : p.Valid) {h : Handle} (hk : p.Knows h) :
    p.canon h = p.intern h := by
  rw [Pool.canon]
  split
  next ho => exact (hp.intern_of_mem (hk.mem ho)).symm
  next => rfl

end Pool

namespace Session

variable {s : Session}

/-! ### Sessions -/

theorem Valid.knows_of_has (hs : s.Valid) {i : Nat} {p : Pool} (hp : s.pools[i]? = some p)
    {h : Handle} (hh : s.Has h) : p.Knows h :=
  fun _ hg ho => hs.mem_of_owns hp (hs.placed (hh.subchains hg)) ho

theorem Valid.stored_equals_iff (hs : s.Valid) {i : Nat} {p : Pool} (hp : s.pools[i]? = some p)
    {g h : Handle} (hg : g ∈ p.nodes) (hh : s.Has h) : g.equals h = true ↔ g.type = h.type :=
  Handle.equals_iff fun _ hc _ hd he =>
    hs.eq_of_stored hp ((hs.pool hp).1.mem_subchains hg hc) (hs.placed (hh.subchains hd)) he

/-- A type is stored if and only if a stored node is equal to a handle of the type. -/
theorem Valid.type_mem_iff (hs : s.Valid) {i : Nat} {p : Pool} (hp : s.pools[i]? = some p)
    {h : Handle} (hh : s.Has h) : h.type ∈ p.types ↔ ∃ g ∈ p.nodes, g.equals h = true := by
  rw [Pool.mem_types_iff]
  exact exists_congr fun g => and_congr_right fun hg => (hs.stored_equals_iff hp hg hh).symm

/-- What interning costs. In any pool, and for any node that some handle reaches, let `m` be the
least number from one on for which the node so far below it is the pool's own, or the number of all
nodes of the chain if there is none. Then interning makes `m` counted look-ups, for these nodes from
the innermost one outwards, above the own node. First come the nodes to which a stored node is
equal, and these look-ups are hits; then come the others, and these look-ups are misses. What is
stored has their types and stands in the same order behind what was there. The short way does
the same for every node that is not the pool's own. -/
theorem Reachable.intern_accounts (hs : s.Reachable) {i : Nat} {p : Pool}
    (hp : s.pools[i]? = some p) {h : Handle} (hh : s.Has h) :
    ∃ (m : Nat) (found new : List Handle),
      IsLeast {i | 1 ≤ i ∧ ∀ n ∈ h.subchains[i]?, p.owns n.tag = true} m ∧
      (h.subchains.take m).reverse = found ++ new ∧ found.length + new.length = m ∧
      p.LooksUpAll h.subchains[m]? (found.map (·, true) ++ new.map (·, false))
        (some (p.intern h).1) (p.intern h).2 ∧
      (p.intern h).2.hits = p.hits + found.length ∧
      (p.intern h).2.misses = p.misses + new.length ∧
      (∀ n ∈ found, ∃ g ∈ p.nodes, g.equals n = true) ∧
      (∀ n ∈ new, ∀ g ∈ p.nodes, g.equals n = false) ∧
      (∃ added : List Handle, (p.intern h).2.nodes.toList = p.nodes.toList ++ added ∧
        added.map Handle.type = new.map Handle.type) ∧
      (p.owns h.tag = false → p.canon h = p.intern h) := by
  have hv := hs.valid
  have hpv := (hv.pool hp).1
  have hk := hv.knows_of_has hp hh
  have has : ∀ {m : Nat} {n : Handle}, n ∈ (h.subchains.take m).reverse → s.Has n := fun hn =>
    hh.subchains (List.mem_of_mem_take (List.mem_reverse.1 hn))
  obtain ⟨m, found, new, hleast, ha⟩ := hpv.accounts_intern hk
  obtain ⟨hhits, hmisses⟩ := ha.looksUp.counts
  refine ⟨m, found, new, hleast, ha.nodes_eq, ?_, ha.looksUp, ?_, ?_, fun n hn => ?_,
    fun n hn g hg => ?_, ?_, fun _ => hpv.canon_eq_intern hk⟩
  · -- the walk ends with the chain
    have hlen : m ≤ h.subchains.length := by
      refine hleast.2 ⟨List.length_pos_of_mem h.mem_subchains_self, fun n hn => ?_⟩
      rw [List.getElem?_eq_none (Nat.le_refl _)] at hn
      cases hn
    rw [← List.length_append, ← ha.nodes_eq, List.length_reverse, List.length_take,
      Nat.min_eq_left hlen]
  · simpa [List.countP_map, Function.comp_def] using hhits
  · simpa [List.countP_map, Function.comp_def] using hmisses
  · have hn' := has (ha.nodes_eq ▸ List.mem_append_left _ hn)
    exact (hv.type_mem_iff hp hn').1 (ha.found_mem n hn)
  · have hn' := has (ha.nodes_eq ▸ List.mem_append_right _ hn)
    refine Bool.eq_false_iff.2 fun he => ha.new_notMem n hn ?_
    exact (hv.type_mem_iff hp hn').2 ⟨g, hg, he⟩
  · obtain ⟨added, hadded⟩ := (hpv.intern hk).grows.nodes_prefix
    refine ⟨added, hadded.symm, ?_⟩
    have htypes := ha.types_eq
    rw [Pool.types, ← hadded, List.map_append, Pool.types] at htypes
    exact List.append_cancel_left htypes

/-- Requests for the builtin, for its own node, for a fresh pointer to that and its own node, and
for a fresh pointer to the fresh pointer. -/
def layers : List Request :=
  [.outside ⟨.builtin 6, []⟩, .intern 0, .outsidePointer 1 1 [], .intern 2, .outsidePointer 2 0 []]

/-- A builtin outside every pool. -/
def lonelyLeaf : Session := start.after (layers.take 1)

/-- A fresh pointer to a fresh pointer to an own node. -/
def layeredPointer : Session := start.after layers

theorem reachable_layeredPointer : layeredPointer.Reachable := ⟨layers, rfl⟩

/-- The pool has the builtin and the inner pointer, but none of the fresh nodes. -/
theorem exists_layeredPointer : ∃ (p : Pool) (c g h : Handle),
    layeredPointer.pools[0]? = some p ∧ layeredPointer.handles[1]? = some c ∧
      layeredPointer.handles[2]? = some g ∧ layeredPointer.handles[4]? = some h ∧
      h.subchains = h :: g :: c.subchains ∧ p.owns c.tag = true ∧ p.owns g.tag = false ∧
      (∃ k ∈ p.nodes, k.equals g = true) ∧ ∀ k ∈ p.nodes, k.equals h = false := by
  have hsv := reachable_layeredPointer.valid
  obtain ⟨c, hc⟩ : ∃ c, layeredPointer.handles[1]? = some c := ⟨_, rfl⟩
  obtain ⟨g, hg, hgc⟩ : ∃ g, layeredPointer.handles[2]? = some g ∧
      g = c.cons (.pointer ⟨.globalSpace, .empty⟩) ⟨.outside, 1⟩ := by
    cases hc
    exact ⟨_, rfl, rfl⟩
  obtain ⟨h, hh, hhg⟩ : ∃ h, layeredPointer.handles[4]? = some h ∧
      h = g.cons (.pointer .plain) ⟨.outside, 2⟩ := by
    cases hg
    exact ⟨_, rfl, rfl⟩
  have hgh := has_of_mem (Array.mem_of_getElem? hg)
  have hhh := has_of_mem (Array.mem_of_getElem? hh)
  -- what interning the builtin returned is stored
  have hv : lonelyLeaf.Valid := (valid_start.after _).valid
  obtain ⟨a, ha⟩ : ∃ a, lonelyLeaf.interned? (.intern 0) = some a := ⟨_, rfl⟩
  obtain ⟨-, q, c', hstep, hct⟩ := hv.exists_poolStep ha
  have hn := (hstep.next hv).valid.after (layers.drop 2)
  obtain ⟨p, hp, he⟩ := hn.grows.pools (hstep.getElem?_current hv)
  obtain rfl : c' = c := Option.some.inj ((hn.grows.getElem? hstep.getElem?_size).symm.trans hc)
  have hcp : c' ∈ p.nodes := he.mem (hstep.mem c' (List.mem_singleton_self c')).1
  -- the types that were interned are those of the builtin and the inner pointer
  have hnever : start.NeverDecodes 0 layers := fun front text back he => by
    have hm : .decode text ∈ layers := by simp [he]
    simp [layers] at hm
  obtain ⟨p', hp', htypes⟩ := valid_start.exists_types_after (i := 0) (p := .empty 0) rfl hnever
  obtain rfl : p' = p := Option.some.inj (hp'.symm.trans hp)
  have hask : asked 0 start layers = [a.type, g.type] := by
    cases ha
    cases hg
    rfl
  have hat : a.type = .builtin .int := by
    cases ha
    rfl
  rw [hat] at hct
  rw [hask, hat, hgc, Handle.type_cons, hct] at htypes
  refine ⟨p', c', g, h, hp, hc, hg, hh, ?_, hsv.pool hp |>.1.owns_of_mem hcp, ?_, ?_, ?_⟩
  · rw [hhg, Handle.subchains_cons, hgc, Handle.subchains_cons]
  · refine Bool.eq_false_iff.2 fun ho => ?_
    have hm := hsv.maker_of_stored hp (hsv.mem_of_owns hp (hsv.placed hgh) ho)
    rw [hgc] at hm
    cases hm
  · rw [← hsv.type_mem_iff hp hgh, htypes, hgc, Handle.type_cons, hct]
    decide
  · intro k hk
    refine Bool.eq_false_iff.2 fun hkh => ?_
    have hm := (hsv.type_mem_iff hp hhh).2 ⟨k, hk, hkh⟩
    rw [htypes, hhg, hgc, Handle.type_cons, Handle.type_cons, hct] at hm
    revert hm
    decide

/-- The inner pointer is found and the outer one is missed; what is below them costs nothing. -/
theorem intern_accounts_layeredPointer : ∃ (p : Pool) (c g h : Handle),
    layeredPointer.pools[0]? = some p ∧ layeredPointer.handles[1]? = some c ∧
      layeredPointer.handles[2]? = some g ∧ layeredPointer.handles[4]? = some h ∧
      p.LooksUpAll (some c) [(g, true), (h, false)] (some (p.intern h).1) (p.intern h).2 ∧
      (p.intern h).2.hits = p.hits + 1 ∧ (p.intern h).2.misses = p.misses + 1 := by
  obtain ⟨p, c, g, h, hp, hc, hg, hh, hsub, hco, hgo, ⟨k, hk, hkg⟩, hfresh⟩ := exists_layeredPointer
  have hplace : h.subchains[2]? = some c := by
    rw [hsub]
    exact Handle.subchains_getElem?_zero c
  obtain ⟨m, found, new, hleast, hnodes, -, hlook, hhits, hmisses, hfound, hnew, -⟩ :=
    reachable_layeredPointer.intern_accounts hp (has_of_mem (Array.mem_of_getElem? hh))
  obtain rfl : m = 2 := by
    refine hleast.unique ⟨⟨by decide, ?_⟩, ?_⟩
    · rw [hplace]
      rintro n ⟨⟩
      exact hco
    · rintro (_ | _ | i) ⟨hi, hn⟩
      · cases hi
      · exact absurd (hn g (by rw [hsub]; rfl)) (by simp [hgo])
      · exact Nat.le_add_left ..
  rw [hplace] at hlook
  have hnodes : [g, h] = found ++ new := by rwa [hsub] at hnodes
  rcases found with _ | ⟨x, _ | ⟨y, found⟩⟩
  · have hg' := hnew g (by rw [← List.nil_append new, ← hnodes]; simp) k hk
    rw [hkg] at hg'
    cases hg'
  · obtain ⟨rfl, rfl⟩ : g = x ∧ [h] = new := List.cons.inj hnodes
    exact ⟨p, c, g, h, hp, hc, hg, hh, hlook, hhits, hmisses⟩
  · have hy : h = y := (List.cons.inj (List.cons.inj hnodes).2).1
    obtain ⟨k, hk, hkh⟩ := hfound h (by simp [hy])
    rw [hfresh k hk] at hkh
    cases hkh

/-- The short way agrees with the long one. For any pool, and any node that some handle reaches, the
short way yields the very node that interning a copy of it yields, and leaves the very pool, with
its nodes, index, identities and counters. If the node is the pool's own, then it is that node, and
the pool is as it was but for one more hit. So a session answers the two requests alike, and goes on
alike. -/
theorem Reachable.canon_agrees (hs : s.Reachable) :
    (∀ (i : Nat) (p : Pool) (h : Handle) (t : Tag), s.pools[i]? = some p → s.Has h →
      p.canon h = p.intern (h.copy t) ∧
        (p.owns h.tag = true → p.canon h = (h, { p with hits := p.hits + 1 }))) ∧
    ∀ n : Nat, s.step (.canon n) = s.step (.intern n) := by
  have hv := hs.valid
  refine ⟨fun i p h t hp hh => ?_, fun n => ?_⟩
  · have hpv := (hv.pool hp).1
    have hk := hv.knows_of_has hp hh
    rw [hpv.canon_eq_intern hk, p.intern_copy]
    exact ⟨rfl, fun ho => hpv.intern_of_mem (hk.mem ho)⟩
  · rw [Session.step, Session.step, withHandle, withHandle]
    split
    next h hn =>
      have hp := hv.getElem?_pool
      have hk := hv.knows hp (Array.mem_of_getElem? hn)
      simp only [make, inPool_eq, (hv.pool hp).1.canon_eq_intern hk]
    next => rfl

/-- A fresh pointer, which is interned in both ways, and an own node, which costs one hit as a copy
too. -/
theorem canon_agrees_layeredPointer : ∃ (p : Pool) (c h : Handle),
    layeredPointer.pools[0]? = some p ∧ p.owns c.tag = true ∧ p.owns h.tag = false ∧
      p.canon h = p.intern (h.copy ⟨.outside, 9⟩) ∧
      p.intern (c.copy ⟨.outside, 9⟩) = (c, { p with hits := p.hits + 1 }) ∧
      layeredPointer.step (.canon 2) = layeredPointer.step (.intern 2) := by
  obtain ⟨p, c, g, h, hp, hc, hg, hh, hsub, hco, hgo, -, -⟩ := exists_layeredPointer
  obtain ⟨hnodes, hsteps⟩ := reachable_layeredPointer.canon_agrees
  obtain ⟨hg, -⟩ := hnodes 0 p g ⟨.outside, 9⟩ hp (has_of_mem (Array.mem_of_getElem? hg))
  obtain ⟨hc, hown⟩ := hnodes 0 p c ⟨.outside, 9⟩ hp (has_of_mem (Array.mem_of_getElem? hc))
  exact ⟨p, c, g, hp, hco, hgo, hg, hc ▸ hown hco, hsteps 2⟩

end Session

end KernelSymbol
