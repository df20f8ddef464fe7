import KernelSymbol.Kind

/-!
# Why a type cannot be built

A constructor, a setter or a cast that is given bad arguments has no effect and reports one of
the causes below. Numbers outside an enumeration are kept as they were given, and a rejected
vector element is kept as its rendering, because that is all the message needs.

## Main definitions

* `BuildError` — the causes
* `BuildError.message` — their wording
-/

namespace KernelSymbol

/-- A violated contract of a type constructor, setter or cast. -/
inductive BuildError where
  /-- A number that names no builtin type. -/
  | builtinOutOfRange (number : Nat)
  /-- A number that names no address space. -/
  | spaceOutOfRange (number : Nat)
  /-- A number that names no qualifier. -/
  | qualifierOutOfRange (number : Nat)
  /-- A vector without elements. -/
  | zeroLength
  /-- A vector whose element, rendered here, is no scalar builtin. -/
  | elementNotScalar (found : String)
  /-- A named type without a name. -/
  | emptyTypeName
  /-- A pointer, say, was needed and a type of another kind was given. -/
  | kindMismatch (expected found : Kind)
  deriving DecidableEq

namespace BuildError

/-- The wording of a cause. -/
def message : BuildError → String
  | builtinOutOfRange n => "primitive kind " ++ toString n ++ " is out of range"
  | spaceOutOfRange n => "address space " ++ toString n ++ " is out of range"
  | qualifierOutOfRange n => "qualifier " ++ toString n ++ " is out of range"
  | zeroLength => "vector length must be positive, found 0"
  | elementNotScalar found =>
    "vector element must be a scalar primitive, found `" ++ found ++ "`"
  | emptyTypeName => "user-defined type name must not be empty"
  | kindMismatch expected found =>
    "expected a " ++ expected.name ++ " type, found a " ++ found.name ++ " type"

end BuildError

end KernelSymbol
