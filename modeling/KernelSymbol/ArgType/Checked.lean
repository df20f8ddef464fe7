import KernelSymbol.ArgType.Render

/-!
# Checked constructors

Vectors and named types have contracts: a vector has at least one element and its elements are
scalar builtins, and a named type has a name. The constructors here check them. A vector's
length is checked before its element.

## Main definitions

* `ArgType.named`, `ArgType.vector` — the checked constructors
* `ArgType.checkVector` — the contract of a vector on its own

## Main results

* `ArgType.checkVector_eq_ok_iff` — when a vector can be built
-/

namespace KernelSymbol

namespace ArgType

/-- The contract of a vector of `length` elements of type `element`. -/
def checkVector (length : UInt32) (element : ArgType) : Except BuildError Unit :=
  if length = 0 then .error .zeroLength
  else if element.isScalar then .ok ()
  else .error (.elementNotScalar element.render)

/-- A vector of `length` elements. -/
def vector (length : UInt32) (element : ArgType) : Except BuildError ArgType :=
  match checkVector length element with
  | .ok () => .ok (cons (.vector length) element)
  | .error e => .error e

/-- The contract of a named type. -/
def checkName (name : String) : Except BuildError Unit :=
  if name = "" then .error .emptyTypeName else .ok ()

/-- A type that is known by its name only. -/
def named (name : String) : Except BuildError ArgType :=
  match checkName name with
  | .ok () => .ok ⟨[], .named name⟩
  | .error e => .error e

theorem checkVector_eq_ok_iff {length : UInt32} {element : ArgType} :
    checkVector length element = .ok () ↔ length ≠ 0 ∧ element.isScalar = true := by
  rw [checkVector]
  split
  · simp_all
  · split <;> simp_all

theorem checkName_eq_ok_iff {name : String} : checkName name = .ok () ↔ name ≠ "" := by
  rw [checkName]
  split <;> simp_all

end ArgType

end KernelSymbol
