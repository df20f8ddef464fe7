import KernelSymbol.Attribute.Pointer

/-!
# Components of a symbol

What a later part of a symbol may refer back to: a pointer, a vector or a named type as a whole,
or what a pointer with attributes says after its `P`. The second kind is no type of its own: it
only ever stands behind a `P`.

Nodes are given by whatever identifies them, so the same components serve types, handles and
identities of nodes.

## Main definitions

* `Component` — a target of references
* `Component.map` — the same component over other nodes
-/

namespace KernelSymbol

/-- A part of a symbol that later parts may refer to. -/
inductive Component (α : Type) where
  /-- A complete type. -/
  | whole (node : α)
  /-- The attributes of a pointer together with what it points to. -/
  | qualified (attrs : PointerAttrs) (pointee : α)
  deriving DecidableEq, Hashable

namespace Component

variable {α β : Type}

/-- The same component over other nodes. -/
def map (f : α → β) : Component α → Component β
  | whole node => whole (f node)
  | qualified attrs pointee => qualified attrs (f pointee)

/-- The node that a component is about. -/
def node : Component α → α
  | whole node => node
  | qualified _ pointee => pointee

@[simp] theorem map_whole (f : α → β) (node : α) : (whole node).map f = whole (f node) := rfl

@[simp] theorem map_qualified (f : α → β) (attrs : PointerAttrs) (pointee : α) :
    (qualified attrs pointee).map f = qualified attrs (f pointee) := rfl

@[simp] theorem node_map (f : α → β) (c : Component α) : (c.map f).node = f c.node := by
  cases c <;> rfl

end Component

end KernelSymbol
