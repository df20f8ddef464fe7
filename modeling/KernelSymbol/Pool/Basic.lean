import KernelSymbol.Handle
import Std.Data.HashMap
import Std.Data.HashSet

/-!
# Pools

A pool keeps one node for every shape of type that was interned into it, so that two of its own
handles have equal types exactly if they are the same node. A node is looked up by its own data
and the identity of the pool's node below it; one look-up costs the same however long the chain
is. Every look-up that may store a node is counted, as a hit or as a miss.

A chain from elsewhere is interned from below: the part under its first own node, if it meets
one, is taken as it is, and each node above it is looked up in turn.

## Main definitions

* `Key` — what a node is looked up by
* `Pool`, `Pool.owns` — a pool, and which nodes are its own
* `Pool.emptyOf`, `Pool.empty` — a pool to start with
* `Pool.leaf`, `Pool.link` — one counted look-up
* `Pool.settle` — the pool's own handle for a part of a chain
* `Pool.intern`, `Pool.canon` — the pool's own handle for a node; `canon` takes a short way for
  own nodes
* `Pool.find?`, `Pool.contains` — looking without storing or counting
* `Pool.canonAll` — interning several nodes in order
* `Pool.counts`, `Pool.types` — the counters and the stored types
-/

namespace KernelSymbol

/-- What a node is looked up by: its data, and the identity of the own node below it. -/
inductive Key where
  | leaf (l : Leaf)
  | link (l : Link) (child : Tag)
  deriving DecidableEq, Hashable

/-- The own nodes of a pool, in the order in which they were stored and by their keys, their
identities, and how often a look-up found a node or had to store it. -/
structure Pool where
  maker : Maker
  nodes : Array Handle
  index : Std.HashMap Key Handle
  tags : Std.HashSet Tag
  hits : Nat
  misses : Nat

namespace Pool

/-- A pool without nodes, whose nodes will carry the name of a maker. -/
def emptyOf (maker : Maker) : Pool := ⟨maker, #[], ∅, ∅, 0, 0⟩

/-- The pool with a number, without nodes. -/
def empty (id : Nat) : Pool := emptyOf (.pool id)

instance : Inhabited Pool := ⟨empty 0⟩

/-- How many nodes the pool has stored. -/
def size (p : Pool) : Nat := p.nodes.size

/-- Whether the pool has stored no node. -/
def isEmpty (p : Pool) : Bool := p.nodes.isEmpty

/-- Whether a node is one that the pool stored. -/
def owns (p : Pool) (t : Tag) : Bool := p.tags.contains t

/-- The identity that the next stored node gets. -/
def nextTag (p : Pool) : Tag := ⟨p.maker, p.nodes.size⟩

/-! ### One look-up -/

/-- The node with a key. If there is none, `make` is given a fresh identity and its result is
stored. -/
def lookup (p : Pool) (key : Key) (make : Tag → Handle) : Handle × Pool :=
  match p.index[key]? with
  | some h => (h, { p with hits := p.hits + 1 })
  | none =>
    let tag := p.nextTag
    let h := make tag
    (h, { p with
      nodes := p.nodes.push h
      index := p.index.insert key h
      tags := p.tags.insert tag
      misses := p.misses + 1 })

/-- The own node for a leaf. -/
def leaf (p : Pool) (l : Leaf) : Handle × Pool := p.lookup (.leaf l) fun t => ⟨[], l, t⟩

/-- The own node for a link above an own node. -/
def link (p : Pool) (l : Link) (child : Handle) : Handle × Pool :=
  p.lookup (.link l child.tag) fun t => child.cons l t

/-! ### Interning -/

/-- The part of a handle that is not the pool's own, outermost link first. -/
def foreignLinks (p : Pool) (h : Handle) : List (Link × Tag) :=
  h.links.takeWhile fun l => !p.owns l.2

/-- The part of a handle from its first own node on, or its leaf if no node above is own. -/
def ownTail (p : Pool) (h : Handle) : Handle :=
  { h with links := h.links.dropWhile fun l => !p.owns l.2 }

/-- The pool's own handle for a handle. Own nodes are taken as they are and cost no look-up; the
nodes above the first of them are looked up, innermost first. -/
def settle (p : Pool) (h : Handle) : Handle × Pool :=
  let above := p.foreignLinks h
  let base := p.ownTail h
  let start := if p.owns base.tag then (base, p) else p.leaf base.leaf
  above.foldr (fun l (child, p) => p.link l.1 child) start

theorem settle_of_owns {p : Pool} {h : Handle} (ho : p.owns h.tag = true) :
    p.settle h = (h, p) := by
  rcases h with ⟨_ | ⟨l, ls⟩, leaf, t⟩
  · have ho : p.owns t = true := ho
    simp [settle, foreignLinks, ownTail, ho]
  · have ho : p.owns l.2 = true := ho
    simp [settle, foreignLinks, ownTail, ho, Handle.tag]

theorem settle_leaf_of_not_owns {p : Pool} {l : Leaf} {t : Tag} (ho : ¬p.owns t = true) :
    p.settle ⟨[], l, t⟩ = p.leaf l := by
  simp [settle, foreignLinks, ownTail, ho]

/-- A node that is not own is looked up after what is below it. -/
theorem settle_cons_of_not_owns {p : Pool} {l : Link} {t : Tag} {h : Handle}
    (ho : ¬p.owns t = true) :
    p.settle (h.cons l t) = (p.settle h).2.link l (p.settle h).1 := by
  simp [settle, foreignLinks, ownTail, Handle.cons, ho]
  rfl

/-- The own node for a link above any node. -/
def wrap (p : Pool) (l : Link) (child : Handle) : Handle × Pool :=
  let (child, p) := p.settle child
  p.link l child

/-- The own node for a node. The outermost node is looked up in any case. -/
def intern (p : Pool) (h : Handle) : Handle × Pool :=
  match h.links with
  | [] => p.leaf h.leaf
  | (l, _) :: rest => p.wrap l { h with links := rest }

/-- The own node for a node. A node that is already own is returned after a single hit. -/
def canon (p : Pool) (h : Handle) : Handle × Pool :=
  if p.owns h.tag then (h, { p with hits := p.hits + 1 }) else p.intern h

/-- The own node for a type. -/
def internType (p : Pool) (t : ArgType) : Handle × Pool := p.intern (.outside 0 t)

/-- The own nodes for several nodes, which are interned in order. -/
def canonAll (p : Pool) (hs : List Handle) : List Handle × Pool := go p [] hs
where
  /-- Interns the rest; `done` holds, in reverse, the own nodes so far. -/
  go (p : Pool) (done : List Handle) : List Handle → List Handle × Pool
    | [] => (done.reverse, p)
    | h :: hs =>
      let (h, p) := p.canon h
      go p (h :: done) hs

/-! ### Looking without storing -/

/-- The own node for a leaf, if there is one. -/
def leaf? (p : Pool) (l : Leaf) : Option Handle := p.index[Key.leaf l]?

/-- The own node for a link above an own node, if there is one. -/
def link? (p : Pool) (l : Link) (child : Handle) : Option Handle := p.index[Key.link l child.tag]?

/-- The pool's own handle for a handle, if there is one. -/
def settle? (p : Pool) (h : Handle) : Option Handle :=
  let base := p.ownTail h
  let start := if p.owns base.tag then some base else p.leaf? base.leaf
  (p.foreignLinks h).foldr (fun l below => below.bind (p.link? l.1)) start

theorem settle?_of_owns {p : Pool} {h : Handle} (ho : p.owns h.tag = true) :
    p.settle? h = some h := by
  rcases h with ⟨_ | ⟨l, ls⟩, leaf, t⟩
  · have ho : p.owns t = true := ho
    simp [settle?, foreignLinks, ownTail, ho]
  · have ho : p.owns l.2 = true := ho
    simp [settle?, foreignLinks, ownTail, ho, Handle.tag]

theorem settle?_leaf_of_not_owns {p : Pool} {l : Leaf} {t : Tag} (ho : ¬p.owns t = true) :
    p.settle? ⟨[], l, t⟩ = p.leaf? l := by
  simp [settle?, foreignLinks, ownTail, ho]

/-- A node that is not own is looked for after what is below it. -/
theorem settle?_cons_of_not_owns {p : Pool} {l : Link} {t : Tag} {h : Handle}
    (ho : ¬p.owns t = true) :
    p.settle? (h.cons l t) = (p.settle? h).bind (p.link? l) := by
  simp [settle?, foreignLinks, ownTail, Handle.cons, ho]
  rfl

/-- The own node for a node, if there is one. -/
def find? (p : Pool) (h : Handle) : Option Handle :=
  match h.links with
  | [] => p.leaf? h.leaf
  | (l, _) :: rest => (p.settle? { h with links := rest }).bind (p.link? l)

/-- Whether the pool has a node for the type of a handle. -/
def contains (p : Pool) (h : Handle) : Bool := (p.find? h).isSome

/-! ### Counting -/

/-- The number of stored nodes, and how often a look-up found or stored one. -/
structure Counts where
  size : Nat
  hits : Nat
  misses : Nat
  deriving DecidableEq

/-- The counters of a pool. -/
def counts (p : Pool) : Counts := ⟨p.size, p.hits, p.misses⟩

/-- The types of the stored nodes, in the order in which they were stored. -/
def types (p : Pool) : List ArgType := p.nodes.toList.map Handle.type

/-- The diagnostic output of a pool: its counters. -/
def debug (p : Pool) : String :=
  "TypePool \x7b len: " ++ toString p.size ++ ", stats: PoolStats \x7b hits: " ++ toString p.hits
    ++ ", misses: " ++ toString p.misses ++ " \x7d \x7d"

end Pool

end KernelSymbol
