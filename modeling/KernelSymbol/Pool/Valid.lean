import KernelSymbol.ArgType.WellFormed
import KernelSymbol.Pool.Build

/-!
# What holds of every pool

A pool starts empty and only ever grows by look-ups. From that start, and as long as the handles
it is given carry its tags only on nodes that it stored, five things hold: a stored node carries
the tag of its position; the node below a stored node is stored further left; the index finds
exactly the stored nodes, by their keys; the own tags are those of the stored nodes; and there
were as many misses as there are nodes.

## Main definitions

* `Handle.key` — what a node would be looked up by
* `Pool.Valid` — the invariant
* `Pool.Extends` — a later state of the same pool
* `Pool.Knows` — a handle carries the pool's tags only on nodes that the pool stored
* `Pool.Stores` — a node of a type is stored
* `Pool.store` — the pool with one more node
* `Pool.Makes` — what a constructor owes
* `Pool.Yields`, `Pool.YieldsAll` — what a look-up owes, or several: the stored node of a type,
  in a later state of the pool

## Main results

* `Pool.Valid.leaf`, `Pool.Valid.link`, `Pool.Valid.settle`, `Pool.Valid.wrap`,
  `Pool.Valid.intern`, `Pool.Valid.canon` — every look-up keeps the invariant, extends the pool,
  and yields a stored node of the type asked for
* `Pool.Valid.pointer`, `Pool.Valid.vector`, `Pool.Valid.named`, `Pool.Valid.withAttrs` — and so
  does every constructor
* `Pool.Valid.eq_of_type_eq` — stored nodes of equal types are the same node
* `Pool.Valid.find?_eq_some_iff` — looking finds the stored node of a type
-/

namespace KernelSymbol

/-- What a node is looked up by, if the node below it is an own node. -/
def Handle.key (h : Handle) : Key :=
  match h.links with
  | [] => .leaf h.leaf
  | (l, _) :: rest => .link l (Handle.tag { h with links := rest })

@[simp] theorem Handle.key_leaf (l : Leaf) (t : Tag) : Handle.key ⟨[], l, t⟩ = .leaf l := rfl

@[simp] theorem Handle.key_cons (l : Link) (t : Tag) (h : Handle) :
    (Handle.cons l t h).key = .link l h.tag := rfl

theorem Handle.key_of_type_leaf {h : Handle} {l : Leaf} (ht : h.type = ⟨[], l⟩) :
    h.key = .leaf l := by
  induction h using Handle.ind with
  | leaf m t => simpa using ht
  | cons m t h => simp [ArgType.cons] at ht

theorem Handle.exists_cons_of_type_cons {h : Handle} {l : Link} {s : ArgType}
    (ht : h.type = .cons l s) : ∃ t d, h = Handle.cons l t d ∧ d.type = s := by
  induction h using Handle.ind with
  | leaf m t => simp [ArgType.cons] at ht
  | cons m t h =>
    obtain ⟨rfl, he⟩ : m = l ∧ h.type = s := by
      simpa [ArgType.cons, ArgType.ext_iff, and_assoc] using ht
    exact ⟨t, h, rfl, he⟩

namespace Pool

/-! ### The invariant -/

/-- What holds of every pool. -/
structure Valid (p : Pool) : Prop where
  /-- A stored node carries the tag of its position. -/
  tag_eq : ∀ {i : Nat} {h : Handle}, p.nodes[i]? = some h → h.tag = ⟨p.maker, i⟩
  /-- The node below a stored node is stored further left. -/
  child : ∀ {i : Nat} {h c : Handle}, p.nodes[i]? = some h → h.child? = some c →
    ∃ j, j < i ∧ p.nodes[j]? = some c
  /-- The index finds exactly the stored nodes, by their keys. -/
  index_iff : ∀ {k : Key} {h : Handle}, p.index[k]? = some h ↔ h ∈ p.nodes ∧ h.key = k
  /-- The own tags are those of the stored nodes. -/
  owns_iff : ∀ {t : Tag}, p.owns t = true ↔ ∃ h ∈ p.nodes, h.tag = t
  /-- Every stored node was a miss, and nothing else was. -/
  misses_eq : p.misses = p.nodes.size

/-- `q` is a later state of `p`: nodes were added at the end. -/
structure Extends (p q : Pool) : Prop where
  maker_eq : q.maker = p.maker
  nodes_prefix : p.nodes.toList <+: q.nodes.toList

/-- The handle carries tags of the pool only on nodes that the pool stored. -/
def Knows (p : Pool) (h : Handle) : Prop :=
  ∀ g ∈ h.subchains, p.owns g.tag = true → g ∈ p.nodes

/-- A node of the type is stored. -/
def Stores (p : Pool) (t : ArgType) : Prop := ∃ g ∈ p.nodes, g.type = t

theorem valid_emptyOf (maker : Maker) : (emptyOf maker).Valid where
  tag_eq h := by simp [emptyOf] at h
  child h := by simp [emptyOf] at h
  index_iff := by simp [emptyOf]
  owns_iff := by simp [emptyOf, owns]
  misses_eq := rfl

theorem Extends.refl (p : Pool) : Extends p p := ⟨rfl, List.prefix_rfl⟩

theorem Extends.trans {p q r : Pool} (h : Extends p q) (k : Extends q r) : Extends p r :=
  ⟨k.maker_eq.trans h.maker_eq, h.nodes_prefix.trans k.nodes_prefix⟩

theorem Extends.mem {p q : Pool} (h : Extends p q) {g : Handle} (hg : g ∈ p.nodes) :
    g ∈ q.nodes := by
  rw [Array.mem_def] at hg ⊢
  exact h.nodes_prefix.subset hg

/-! ### Stored nodes -/

variable {p q : Pool}

theorem Valid.getElem?_of_mem (hp : p.Valid) {h : Handle} (hm : h ∈ p.nodes) :
    p.nodes[h.tag.index]? = some h := by
  obtain ⟨i, hi, rfl⟩ := Array.mem_iff_getElem.1 hm
  have h' := Array.getElem?_eq_getElem hi
  rw [hp.tag_eq h', h']

theorem Valid.owns_of_mem (hp : p.Valid) {h : Handle} (hm : h ∈ p.nodes) :
    p.owns h.tag = true := hp.owns_iff.2 ⟨h, hm, rfl⟩

theorem Valid.maker_of_mem (hp : p.Valid) {h : Handle} (hm : h ∈ p.nodes) :
    h.tag.maker = p.maker := by
  obtain ⟨i, hi, rfl⟩ := Array.mem_iff_getElem.1 hm
  rw [hp.tag_eq (Array.getElem?_eq_getElem hi)]

theorem Extends.owns (h : Extends p q) (hp : p.Valid) (hq : q.Valid) {t : Tag}
    (ht : p.owns t = true) : q.owns t = true := by
  obtain ⟨g, hg, rfl⟩ := hp.owns_iff.1 ht
  exact hq.owns_of_mem (h.mem hg)

theorem Valid.eq_of_tag_eq (hp : p.Valid) {g h : Handle} (hg : g ∈ p.nodes) (hh : h ∈ p.nodes)
    (e : g.tag = h.tag) : g = h := by
  have h₁ := hp.getElem?_of_mem hg
  rw [e, hp.getElem?_of_mem hh] at h₁
  exact (Option.some.inj h₁).symm

theorem Valid.mem_child (hp : p.Valid) {h c : Handle} (hm : h ∈ p.nodes)
    (hc : h.child? = some c) : c ∈ p.nodes := by
  obtain ⟨j, -, hj⟩ := hp.child (hp.getElem?_of_mem hm) hc
  exact Array.mem_of_getElem? hj

theorem Valid.eq_of_key_eq (hp : p.Valid) {g h : Handle} (hg : g ∈ p.nodes) (hh : h ∈ p.nodes)
    (e : g.key = h.key) : g = h := by
  have h₁ := hp.index_iff.2 ⟨hg, rfl⟩
  rw [e, hp.index_iff.2 ⟨hh, rfl⟩] at h₁
  exact (Option.some.inj h₁).symm

theorem Valid.eq_of_type_eq (hp : p.Valid) {g h : Handle} (hg : g ∈ p.nodes) (hh : h ∈ p.nodes)
    (e : g.type = h.type) : g = h := by
  induction g using Handle.ind generalizing h with
  | leaf l t =>
    induction h using Handle.ind with
    | leaf m u =>
      obtain rfl : l = m := by simpa using e
      exact hp.eq_of_key_eq hg hh rfl
    | cons m u h => simp [ArgType.cons] at e
  | cons l t g ih =>
    induction h using Handle.ind with
    | leaf m u => simp [ArgType.cons] at e
    | cons m u h =>
      obtain ⟨hl, he⟩ : l = m ∧ g.type = h.type := by
        simpa [ArgType.cons, ArgType.ext_iff, and_assoc] using e
      have hgh : g = h := ih (hp.mem_child hg rfl) (hp.mem_child hh rfl) he
      exact hp.eq_of_key_eq hg hh (by simp [hl, hgh])

/-! ### One look-up -/

/-- A look-up for the key of a stored node stores nothing. -/
theorem Valid.nodes_lookup (hp : p.Valid) {g : Handle} (hg : g ∈ p.nodes) (make : Tag → Handle) :
    (p.lookup g.key make).2.nodes = p.nodes := by
  rw [Pool.lookup, hp.index_iff.2 ⟨hg, rfl⟩]

/-- The pool with one more node, after a miss. -/
def store (p : Pool) (h : Handle) : Pool :=
  { p with
    nodes := p.nodes.push h
    index := p.index.insert h.key h
    tags := p.tags.insert h.tag
    misses := p.misses + 1 }

theorem getElem?_store_of_some {i : Nat} {g : Handle} (hg : p.nodes[i]? = some g) (h : Handle) :
    (p.store h).nodes[i]? = some g := by
  have hi : i < p.nodes.size := (Array.getElem?_eq_some_iff.1 hg).1
  rw [store, Array.getElem?_push_lt hi, ← Array.getElem?_eq_getElem hi, hg]

theorem eq_or_of_getElem?_store {i : Nat} {g h : Handle} (hg : (p.store h).nodes[i]? = some g) :
    (i = p.nodes.size ∧ h = g) ∨ p.nodes[i]? = some g := by
  rw [store, Array.getElem?_push] at hg
  split at hg
  next hi => exact .inl ⟨hi, Option.some.inj hg⟩
  next => exact .inr hg

/-- The index of the pool with one more node, whose key is new. -/
theorem Valid.index_store_iff (hp : p.Valid) {h : Handle} (hn : p.index[h.key]? = none) {k : Key}
    {g : Handle} : (p.store h).index[k]? = some g ↔ g ∈ (p.store h).nodes ∧ g.key = k := by
  have hnew : ∀ {g : Handle}, g ∈ p.nodes → g.key ≠ h.key := by
    intro g hg he
    have hs := hp.index_iff.2 ⟨hg, he⟩
    rw [hn] at hs
    cases hs
  simp only [store, Std.HashMap.getElem?_insert, Array.mem_push]
  by_cases he : h.key = k
  · subst he
    simp only [beq_self_eq_true, ↓reduceIte, Option.some.injEq]
    constructor
    · rintro rfl
      exact ⟨.inr rfl, rfl⟩
    · rintro ⟨hm | rfl, he⟩
      · exact absurd he (hnew hm)
      · rfl
  · simp only [beq_iff_eq, he, ↓reduceIte, hp.index_iff]
    constructor
    · rintro ⟨hm, rfl⟩
      exact ⟨.inl hm, rfl⟩
    · rintro ⟨hm | rfl, hk⟩
      · exact ⟨hm, hk⟩
      · exact absurd hk he

theorem Valid.owns_store_iff (hp : p.Valid) {h : Handle} {t : Tag} :
    (p.store h).owns t = true ↔ ∃ g ∈ (p.store h).nodes, g.tag = t := by
  have hold : p.tags.contains t = true ↔ ∃ g ∈ p.nodes, g.tag = t := hp.owns_iff
  simp only [store, owns, Std.HashSet.contains_insert, Bool.or_eq_true, beq_iff_eq, hold,
    Array.mem_push]
  constructor
  · rintro (rfl | ⟨g, hm, rfl⟩)
    · exact ⟨h, .inr rfl, rfl⟩
    · exact ⟨g, .inl hm, rfl⟩
  · rintro ⟨g, hm | rfl, rfl⟩
    · exact .inr ⟨g, hm, rfl⟩
    · exact .inl rfl

/-- A node may be stored under the next tag if its key is new and the node below it is stored. -/
theorem Valid.store (hp : p.Valid) {h : Handle} (ht : h.tag = p.nextTag)
    (hn : p.index[h.key]? = none) (hc : ∀ c, h.child? = some c → c ∈ p.nodes) :
    (p.store h).Valid where
  tag_eq hg := by
    rcases eq_or_of_getElem?_store hg with ⟨rfl, rfl⟩ | hg
    · exact ht
    · exact hp.tag_eq hg
  child hg hgc := by
    rcases eq_or_of_getElem?_store hg with ⟨rfl, rfl⟩ | hg
    · have hm := hp.getElem?_of_mem (hc _ hgc)
      exact ⟨_, (Array.getElem?_eq_some_iff.1 hm).1, getElem?_store_of_some hm h⟩
    · obtain ⟨j, hj, hjc⟩ := hp.child hg hgc
      exact ⟨j, hj, getElem?_store_of_some hjc h⟩
  index_iff := hp.index_store_iff hn
  owns_iff := hp.owns_store_iff
  misses_eq := by simp [Pool.store, hp.misses_eq]

/-- A look-up keeps the invariant, extends the pool and yields a stored node with the key. -/
theorem Valid.lookup (hp : p.Valid) (key : Key) (make : Tag → Handle)
    (htag : (make p.nextTag).tag = p.nextTag) (hkey : (make p.nextTag).key = key)
    (hchild : ∀ c, (make p.nextTag).child? = some c → c ∈ p.nodes) :
    (p.lookup key make).2.Valid ∧ Extends p (p.lookup key make).2 ∧
      (p.lookup key make).1 ∈ (p.lookup key make).2.nodes ∧ (p.lookup key make).1.key = key := by
  rw [Pool.lookup]
  split
  next h hk =>
    obtain ⟨hm, hkey⟩ := hp.index_iff.1 hk
    exact ⟨⟨hp.tag_eq, hp.child, hp.index_iff, hp.owns_iff, hp.misses_eq⟩,
      ⟨rfl, List.prefix_rfl⟩, hm, hkey⟩
  next hk =>
    rw [← hkey] at hk
    have hv := hp.store htag hk hchild
    rw [Pool.store, htag, hkey] at hv
    exact ⟨hv, ⟨rfl, by simp⟩, by simp, hkey⟩

/-- What a look-up yields: a later state of the pool, and a stored node of a type. If the type
was there already, then nothing was stored. -/
structure Yields (p : Pool) (t : ArgType) (r : Handle × Pool) : Prop where
  valid : r.2.Valid
  grows : Extends p r.2
  mem : r.1 ∈ r.2.nodes
  type_eq : r.1.type = t
  nodes_eq : p.Stores t → r.2.nodes = p.nodes

theorem key_eq_leaf_iff {h : Handle} {l : Leaf} : h.key = .leaf l ↔ h.type = ⟨[], l⟩ := by
  refine ⟨fun hk => ?_, Handle.key_of_type_leaf⟩
  induction h using Handle.ind with
  | leaf m t => simpa using hk
  | cons m t h => simp at hk

theorem Valid.key_eq_link_iff (hp : p.Valid) {h c : Handle} {l : Link} (hh : h ∈ p.nodes)
    (hc : c ∈ p.nodes) : h.key = .link l c.tag ↔ h.type = .cons l c.type := by
  induction h using Handle.ind with
  | leaf m t => simp [ArgType.cons]
  | cons m t h =>
    have hm : h ∈ p.nodes := hp.mem_child hh (Handle.child?_cons m t h)
    have ht : h.tag = c.tag ↔ h.type = c.type :=
      ⟨fun e => congrArg Handle.type (hp.eq_of_tag_eq hm hc e),
        fun e => congrArg Handle.tag (hp.eq_of_type_eq hm hc e)⟩
    rw [Handle.key_cons, Handle.type_cons, Key.link.injEq, ht]
    simp [ArgType.cons, ArgType.ext_iff, and_assoc]

theorem Valid.leaf (hp : p.Valid) (l : Leaf) : Yields p ⟨[], l⟩ (p.leaf l) := by
  obtain ⟨hv, he, hm, hk⟩ := hp.lookup (.leaf l) (fun t => ⟨[], l, t⟩) rfl rfl (by simp)
  refine ⟨hv, he, hm, key_eq_leaf_iff.1 hk, fun ⟨g, hg, ht⟩ => ?_⟩
  rw [Pool.leaf, ← key_eq_leaf_iff.2 ht]
  exact hp.nodes_lookup hg _

theorem Valid.link (hp : p.Valid) (l : Link) {c : Handle} (hc : c ∈ p.nodes) :
    Yields p (.cons l c.type) (p.link l c) := by
  obtain ⟨hv, he, hm, hk⟩ := hp.lookup (.link l c.tag) (fun t => c.cons l t) rfl rfl
    (by simpa using hc)
  refine ⟨hv, he, hm, (hv.key_eq_link_iff hm (he.mem hc)).1 hk, fun ⟨g, hg, ht⟩ => ?_⟩
  rw [Pool.link, ← (hp.key_eq_link_iff hg hc).2 ht]
  exact hp.nodes_lookup hg _

/-! ### Chains -/

/-- What is built around what was built is built from the start. -/
theorem Yields.cons (hp : p.Valid) {l : Link} {t : ArgType} {r r' : Handle × Pool}
    (h : Yields p t r) (k : Yields r.2 (.cons l t) r') : Yields p (.cons l t) r' := by
  refine ⟨k.valid, h.grows.trans k.grows, k.mem, k.type_eq, fun hs => ?_⟩
  obtain ⟨g, hg, ht⟩ := hs
  have hq : Stores r.2 (.cons l t) := ⟨g, h.grows.mem hg, ht⟩
  obtain ⟨u, d, rfl, hd⟩ := Handle.exists_cons_of_type_cons ht
  rw [k.nodes_eq hq, h.nodes_eq ⟨d, hp.mem_child hg rfl, hd⟩]

/-- A look-up after a look-up for what is below. -/
theorem Yields.link (hp : p.Valid) {t : ArgType} {r : Handle × Pool} (h : Yields p t r)
    (l : Link) : Yields p (.cons l t) (r.2.link l r.1) := by
  have hl := h.valid.link l h.mem
  rw [h.type_eq] at hl
  exact h.cons hp hl

/-- What is stored is known below its own nodes too. -/
theorem Knows.child {h c : Handle} (hk : p.Knows h) (hc : h.child? = some c) : p.Knows c := by
  induction h using Handle.ind with
  | leaf l t => cases hc
  | cons l t h =>
    cases hc
    exact fun g hg => hk g (by rw [Handle.subchains_cons]; exact List.mem_cons_of_mem _ hg)

theorem Valid.mem_subchains (hp : p.Valid) {g h : Handle} (hm : h ∈ p.nodes)
    (hg : g ∈ h.subchains) : g ∈ p.nodes := by
  induction h using Handle.ind with
  | leaf l t =>
    obtain rfl := List.mem_singleton.1 hg
    exact hm
  | cons l t h ih =>
    rw [Handle.subchains_cons] at hg
    rcases List.mem_cons.1 hg with rfl | hg
    · exact hm
    · exact ih (hp.mem_child hm rfl) hg

theorem Valid.knows_of_mem (hp : p.Valid) {h : Handle} (hm : h ∈ p.nodes) : p.Knows h :=
  fun _ hg _ => hp.mem_subchains hm hg

theorem Knows.mem {h : Handle} (hk : p.Knows h) (ho : p.owns h.tag = true) : h ∈ p.nodes :=
  hk h (Handle.mem_subchains_self h) ho

/-- Settling a chain yields a stored node of its type. -/
theorem Valid.settle (hp : p.Valid) {h : Handle} (hk : p.Knows h) :
    Yields p h.type (p.settle h) := by
  induction h using Handle.ind with
  | leaf l t =>
    by_cases ho : p.owns t = true
    · rw [settle_of_owns ho]
      exact ⟨hp, .refl p, hk.mem ho, rfl, fun _ => rfl⟩
    · rw [settle_leaf_of_not_owns ho]
      exact hp.leaf l
  | cons l t h ih =>
    by_cases ho : p.owns t = true
    · rw [settle_of_owns ho]
      exact ⟨hp, .refl p, hk.mem ho, rfl, fun _ => rfl⟩
    · rw [settle_cons_of_not_owns ho]
      exact (ih (hk.child rfl)).link hp l

theorem Valid.wrap (hp : p.Valid) (l : Link) {h : Handle} (hk : p.Knows h) :
    Yields p (.cons l h.type) (p.wrap l h) := (hp.settle hk).link hp l

/-- Interning a node yields the stored node of its type. -/
theorem Valid.intern (hp : p.Valid) {h : Handle} (hk : p.Knows h) :
    Yields p h.type (p.intern h) := by
  induction h using Handle.ind with
  | leaf l t => exact hp.leaf l
  | cons l t h => exact hp.wrap l (hk.child rfl)

/-- The short way yields the stored node as well. -/
theorem Valid.canon (hp : p.Valid) {h : Handle} (hk : p.Knows h) :
    Yields p h.type (p.canon h) := by
  rw [Pool.canon]
  split
  next ho =>
    exact ⟨⟨hp.tag_eq, hp.child, hp.index_iff, hp.owns_iff, hp.misses_eq⟩,
      ⟨rfl, List.prefix_rfl⟩, hk.mem ho, rfl, fun _ => rfl⟩
  next => exact hp.intern hk

/-! ### Constructors -/

/-- What a constructor that may fail owes. A failure leaves the pool alone. -/
def Makes (p : Pool) : Except BuildError Handle × Pool → Prop
  | (.ok h, q) => ∃ t, t.WellFormed ∧ Yields p t (h, q)
  | (.error _, q) => q = p

theorem Valid.builtin (hp : p.Valid) (b : Builtin) : Yields p (.builtin b) (p.builtin b) :=
  hp.leaf (.builtin b)

theorem Valid.pointer (hp : p.Valid) (a : PointerAttrs) {h : Handle} (hk : p.Knows h) :
    Yields p (.pointer a h.type) (p.pointer a h) := hp.wrap (.pointer a) hk

theorem Valid.vector (hp : p.Valid) (n : UInt32) {h : Handle} (hk : p.Knows h) :
    Makes p (p.vector n h) := by
  cases hc : ArgType.checkVector n h.type with
  | error e =>
    rw [vector_of_error hc]
    exact rfl
  | ok =>
    obtain ⟨hn, hs⟩ := ArgType.checkVector_eq_ok_iff.1 hc
    simp only [Pool.vector, hc]
    exact ⟨_, ArgType.wellFormed_cons_vector hn hs, hp.wrap (.vector n) hk⟩

theorem Valid.named (hp : p.Valid) (name : String) : Makes p (p.named name) := by
  cases hc : ArgType.checkName name with
  | error e =>
    rw [named_of_error hc]
    exact rfl
  | ok =>
    simp only [Pool.named, hc]
    exact ⟨_, .named (ArgType.checkName_eq_ok_iff.1 hc), hp.leaf (.named name)⟩

theorem Valid.withAttrs (hp : p.Valid) {h : Handle} (hk : p.Knows h) (hw : h.type.WellFormed)
    (f : PointerAttrs → PointerAttrs) : Makes p (p.withAttrs h f) := by
  induction h using Handle.ind with
  | leaf l t => exact rfl
  | cons l t h =>
    cases l with
    | vector n => exact rfl
    | pointer a =>
      exact ⟨_, .pointer (f a) (hw.child (ArgType.child?_cons _ h.type)),
        hp.pointer (f a) (hk.child (Handle.child?_cons _ t h))⟩

/-! ### Looking without storing -/

theorem Valid.leaf?_eq_some_iff (hp : p.Valid) {l : Leaf} {g : Handle} :
    p.leaf? l = some g ↔ g ∈ p.nodes ∧ g.type = ⟨[], l⟩ := by
  rw [Pool.leaf?, hp.index_iff, key_eq_leaf_iff]

theorem Valid.link?_eq_some_iff (hp : p.Valid) {l : Link} {c g : Handle} (hc : c ∈ p.nodes) :
    p.link? l c = some g ↔ g ∈ p.nodes ∧ g.type = .cons l c.type := by
  rw [Pool.link?, hp.index_iff]
  exact and_congr_right fun hg => hp.key_eq_link_iff hg hc

/-- The stored node of a type is looked up through the stored node of the type below. -/
theorem Valid.bind_link?_eq_some_iff (hp : p.Valid) {l : Link} {t : ArgType} {r : Option Handle}
    (hr : ∀ {c : Handle}, r = some c ↔ c ∈ p.nodes ∧ c.type = t) {g : Handle} :
    r.bind (p.link? l) = some g ↔ g ∈ p.nodes ∧ g.type = .cons l t := by
  rw [Option.bind_eq_some_iff]
  constructor
  · rintro ⟨c, hc, hg⟩
    obtain ⟨hm, rfl⟩ := hr.1 hc
    exact (hp.link?_eq_some_iff hm).1 hg
  · rintro ⟨hg, ht⟩
    obtain ⟨u, c, rfl, rfl⟩ := Handle.exists_cons_of_type_cons ht
    have hm : c ∈ p.nodes := hp.mem_child hg (Handle.child?_cons l u c)
    exact ⟨c, hr.2 ⟨hm, rfl⟩, (hp.link?_eq_some_iff hm).2 ⟨hg, rfl⟩⟩

/-- A stored node is the only one of its type. -/
theorem Valid.some_eq_some_iff (hp : p.Valid) {h g : Handle} (hm : h ∈ p.nodes) :
    some h = some g ↔ g ∈ p.nodes ∧ g.type = h.type := by
  rw [Option.some.injEq]
  constructor
  · rintro rfl
    exact ⟨hm, rfl⟩
  · rintro ⟨hg, ht⟩
    exact (hp.eq_of_type_eq hg hm ht).symm

theorem Valid.settle?_eq_some_iff (hp : p.Valid) {h g : Handle} (hk : p.Knows h) :
    p.settle? h = some g ↔ g ∈ p.nodes ∧ g.type = h.type := by
  induction h using Handle.ind generalizing g with
  | leaf l t =>
    by_cases ho : p.owns t = true
    · rw [settle?_of_owns ho]
      exact hp.some_eq_some_iff (hk.mem ho)
    · rw [settle?_leaf_of_not_owns ho]
      exact hp.leaf?_eq_some_iff
  | cons l t h ih =>
    by_cases ho : p.owns t = true
    · rw [settle?_of_owns ho]
      exact hp.some_eq_some_iff (hk.mem ho)
    · rw [settle?_cons_of_not_owns ho]
      exact hp.bind_link?_eq_some_iff (ih (hk.child rfl))

theorem Valid.find?_eq_some_iff (hp : p.Valid) {h g : Handle} (hk : p.Knows h) :
    p.find? h = some g ↔ g ∈ p.nodes ∧ g.type = h.type := by
  induction h using Handle.ind with
  | leaf l t => exact hp.leaf?_eq_some_iff
  | cons l t h => exact hp.bind_link?_eq_some_iff (hp.settle?_eq_some_iff (hk.child rfl))

/-! ### Several types -/

/-- What building several types in a row yields: a later state of the pool, and stored nodes of
the types. If all of the types were there already, then nothing was stored. -/
structure YieldsAll (p : Pool) (ts : List ArgType) (r : List Handle × Pool) : Prop where
  valid : r.2.Valid
  grows : Extends p r.2
  mem : ∀ h ∈ r.1, h ∈ r.2.nodes
  types_eq : r.1.map Handle.type = ts
  nodes_eq : (∀ t ∈ ts, p.Stores t) → r.2.nodes = p.nodes

theorem Valid.yieldsAll_nil (hp : p.Valid) : YieldsAll p [] ([], p) :=
  ⟨hp, .refl p, by simp, rfl, fun _ => rfl⟩

/-- Stored nodes are told apart by their types, also several in a row. -/
theorem Valid.eq_of_types_eq (hp : p.Valid) {gs hs : List Handle} (hg : ∀ g ∈ gs, g ∈ p.nodes)
    (hh : ∀ h ∈ hs, h ∈ p.nodes) (e : gs.map Handle.type = hs.map Handle.type) : gs = hs := by
  induction gs generalizing hs with
  | nil => exact (List.map_eq_nil_iff.1 e.symm).symm
  | cons g gs ih =>
    cases hs with
    | nil => cases e
    | cons h hs =>
      obtain ⟨ht, hts⟩ := List.cons.inj e
      obtain ⟨hg, hgs⟩ := List.forall_mem_cons.1 hg
      obtain ⟨hh, hhs⟩ := List.forall_mem_cons.1 hh
      rw [hp.eq_of_type_eq hg hh ht, ih hgs hhs hts]

/-- If all of the types were there already, then the nodes of those types are what is yielded, and
nothing was stored or missed. -/
theorem YieldsAll.of_stored (hp : p.Valid) {ts : List ArgType} {r : List Handle × Pool}
    (h : YieldsAll p ts r) {hs : List Handle} (hm : ∀ h ∈ hs, h ∈ p.nodes)
    (ht : hs.map Handle.type = ts) :
    r.1 = hs ∧ r.2.nodes = p.nodes ∧ r.2.misses = p.misses := by
  have hn : r.2.nodes = p.nodes := h.nodes_eq fun t hts => by
    rw [← ht] at hts
    obtain ⟨g, hg, rfl⟩ := List.mem_map.1 hts
    exact ⟨g, hm g hg, rfl⟩
  refine ⟨h.valid.eq_of_types_eq h.mem (fun g hg => h.grows.mem (hm g hg)) ?_, hn, ?_⟩
  · rw [h.types_eq, ht]
  · rw [h.valid.misses_eq, hp.misses_eq, hn]

theorem Yields.cons_all {t : ArgType} {ts : List ArgType} {r : Handle × Pool}
    {rs : List Handle × Pool} (h : Yields p t r) (hs : YieldsAll r.2 ts rs) :
    YieldsAll p (t :: ts) (r.1 :: rs.1, rs.2) := by
  refine ⟨hs.valid, h.grows.trans hs.grows, ?_, ?_, fun hst => ?_⟩
  · exact List.forall_mem_cons.2 ⟨hs.grows.mem h.mem, hs.mem⟩
  · rw [List.map_cons, h.type_eq, hs.types_eq]
  · obtain ⟨ht, hts⟩ := List.forall_mem_cons.1 hst
    have hrest : ∀ t ∈ ts, r.2.Stores t := fun t hm => by
      obtain ⟨g, hg, he⟩ := hts t hm
      exact ⟨g, h.grows.mem hg, he⟩
    rw [hs.nodes_eq hrest, h.nodes_eq ht]

end Pool

end KernelSymbol
