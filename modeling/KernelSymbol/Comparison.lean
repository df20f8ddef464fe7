import KernelSymbol.Handle

/-!
# Comparing several types

Which of several types are equal to each other, found in two ways: by `Handle.equals`, and by
comparing the outermost nodes and then what is below them.

## Main definitions

* `Handle.outsideAll` — several types, no two of which share a node
* `Handle.agrees` — the second way to compare
* `Handle.pairs` — the ordered pairs of positions whose handles are in some relation
-/

namespace KernelSymbol

namespace Handle

/-- Types of which no two share a node. -/
def outsideAll (start : Nat) (ts : List ArgType) : List Handle := go start [] ts
where
  /-- Numbers the nodes of the rest from `start`; `done` holds, in reverse, the handles so far. -/
  go (start : Nat) (done : List Handle) : List ArgType → List Handle
    | [] => done.reverse
    | t :: ts => go (start + t.depth + 1) (outside start t :: done) ts

/-- Whether the outermost nodes have equal kinds and data and what is below them is equal. -/
def agrees (g h : Handle) : Bool :=
  match g.links, h.links with
  | [], [] => g.leaf == h.leaf
  | (l, _) :: ls, (m, _) :: ms =>
    l == m && equals { g with links := ls } { h with links := ms }
  | _, _ => false

/-- The ordered pairs of positions in a list whose handles are in a relation, sorted by the first
position and then by the second. -/
def pairs (rel : Handle → Handle → Bool) (hs : List Handle) : List (Nat × Nat) :=
  hs.zipIdx.flatMap fun (g, i) =>
    hs.zipIdx.filterMap fun (h, j) => if rel g h then some (i, j) else none

end Handle

end KernelSymbol
