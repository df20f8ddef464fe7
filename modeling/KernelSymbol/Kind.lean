/-!
# The four kinds of parameter type

Every parameter type is a builtin, a pointer, a vector or a named type. `Kind` is that
classification on its own, as diagnostics name it.

## Main definitions

* `Kind` — the four kinds
* `Kind.name` — the word for a kind in diagnostics
-/

namespace KernelSymbol

/-- What the outermost node of a parameter type is. -/
inductive Kind where
  | primitive
  | pointer
  | vector
  | userDefined
  deriving DecidableEq, Hashable

namespace Kind

/-- The four kinds, in the order diagnostics list them. -/
def all : List Kind := [primitive, pointer, vector, userDefined]

/-- The word for a kind in diagnostics. -/
def name : Kind → String
  | primitive => "primitive"
  | pointer => "pointer"
  | vector => "vector"
  | userDefined => "user-defined"

theorem mem_all (k : Kind) : k ∈ all := by cases k <;> decide

end Kind

end KernelSymbol
