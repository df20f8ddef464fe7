import KernelSymbol.ArgType.Checked
import KernelSymbol.Pool.Basic

/-!
# Building types in a pool

Constructors that put one node above handles and return the pool's own node for the result. A
constructor that fails looks nothing up. Nodes below that are not the pool's own are interned
first. Nothing that is stored is ever changed: an edit of a pointer's attributes is a look-up of
the edited pointer.

## Main definitions

* `Pool.builtin`, `Pool.pointer`, `Pool.vector`, `Pool.named` — the constructors
* `Pool.withSpace`, `Pool.withQualifier` — a pointer with one attribute edited

## Main results

* `Pool.vector_of_error`, `Pool.named_of_error` — a failing constructor leaves the pool alone
-/

namespace KernelSymbol

namespace Pool

/-- The own node of a builtin. -/
def builtin (p : Pool) (b : Builtin) : Handle × Pool := p.leaf (.builtin b)

/-- The own node of a pointer. -/
def pointer (p : Pool) (a : PointerAttrs) (child : Handle) : Handle × Pool :=
  p.wrap (.pointer a) child

/-- The own node of a vector. -/
def vector (p : Pool) (length : UInt32) (element : Handle) : Except BuildError Handle × Pool :=
  match ArgType.checkVector length element.type with
  | .error e => (.error e, p)
  | .ok () =>
    let (h, p) := p.wrap (.vector length) element
    (.ok h, p)

/-- The own node of a named type. -/
def named (p : Pool) (name : String) : Except BuildError Handle × Pool :=
  match ArgType.checkName name with
  | .error e => (.error e, p)
  | .ok () =>
    let (h, p) := p.leaf (.named name)
    (.ok h, p)

/-- The own node of a pointer like `h` with its attributes edited by `f`. -/
def withAttrs (p : Pool) (h : Handle) (f : PointerAttrs → PointerAttrs) :
    Except BuildError Handle × Pool :=
  match h.links with
  | (.pointer a, _) :: rest =>
    let (h, p) := p.wrap (.pointer (f a)) { h with links := rest }
    (.ok h, p)
  | _ => (.error (.kindMismatch .pointer h.kind), p)

/-- The own node of a pointer like `h` into another address space. -/
def withSpace (p : Pool) (h : Handle) (s : AddressSpace) : Except BuildError Handle × Pool :=
  p.withAttrs h (·.withSpace s)

/-- The own node of a pointer like `h` with one qualifier added or removed. -/
def withQualifier (p : Pool) (h : Handle) (q : Qualifier) (on : Bool) :
    Except BuildError Handle × Pool :=
  p.withAttrs h (·.setQualifier q on)

/-- A vector that breaks its contract leaves the pool alone. -/
theorem vector_of_error {p : Pool} {length : UInt32} {element : Handle} {e : BuildError}
    (h : ArgType.checkVector length element.type = .error e) :
    p.vector length element = (.error e, p) := by simp [vector, h]

/-- A named type without a name leaves the pool alone. -/
theorem named_of_error {p : Pool} {name : String} {e : BuildError}
    (h : ArgType.checkName name = .error e) : p.named name = (.error e, p) := by
  simp [named, h]

end Pool

end KernelSymbol
