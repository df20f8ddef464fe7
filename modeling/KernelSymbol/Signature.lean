import KernelSymbol.ArgType.Render

/-!
# Signatures of kernel functions

A function as a symbol sees it: its name and the list of its parameters. The result type is no
part of a symbol. Parameters are types where only their shape matters, and handles where their
identity matters too.

## Main definitions

* `Signature` — a name and parameters
* `Signature.push`, `Signature.arity`, `Signature.map` — one more parameter, their number, a
  change of each
* `Signature.display` — the readable form
-/

namespace KernelSymbol

/-- A function name and the parameters of the function. -/
@[ext] structure Signature (α : Type) where
  name : String
  params : List α
  deriving BEq

namespace Signature

variable {α β : Type}

/-- A signature is empty unless it says otherwise. -/
instance : Inhabited (Signature α) := ⟨"", []⟩

/-- A function without parameters. -/
def ofName (name : String) : Signature α := ⟨name, []⟩

/-- The signature with one more parameter at the end. -/
def push (s : Signature α) (param : α) : Signature α := { s with params := s.params ++ [param] }

/-- The number of parameters. -/
def arity (s : Signature α) : Nat := s.params.length

/-- Whether the function takes no parameters. -/
def isEmpty (s : Signature α) : Bool := s.params.isEmpty

/-- The signature with every parameter changed. -/
def map (f : α → β) (s : Signature α) : Signature β := ⟨s.name, s.params.map f⟩

/-- The readable form: the name, and the parameters between parentheses. -/
def display (s : Signature ArgType) : String :=
  s.name ++ "(" ++ ", ".intercalate (s.params.map ArgType.render) ++ ")"

@[simp] theorem arity_ofName (name : String) : (ofName name : Signature α).arity = 0 := rfl

@[simp] theorem arity_push (s : Signature α) (param : α) : (s.push param).arity = s.arity + 1 := by
  simp [arity, push]

@[simp] theorem arity_map (f : α → β) (s : Signature α) : (s.map f).arity = s.arity := by
  simp [arity, map]

end Signature

end KernelSymbol
