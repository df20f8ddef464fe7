import KernelSymbol.ArgType.Render

/-!
# What a row of pointers leads to

A type that keeps the contracts of the constructors is a row of pointers that leads to a builtin, to
a vector of builtins, or to a named type. An `Ending` is what the row leads to, as one piece: a
vector and its element are read and written together.

## Main definitions

* `Ending`, `Ending.type` — the end of a chain, and its type
* `Ending.render` — its readable form
-/

namespace KernelSymbol

/-- The end of a chain, behind its pointers. -/
inductive Ending where
  | builtin (b : Builtin)
  /-- So many elements of a builtin. -/
  | vector (length : UInt32) (element : Builtin)
  | named (name : String)
  deriving DecidableEq

namespace Ending

/-- The type of an ending. -/
def type : Ending → ArgType
  | builtin b => .builtin b
  | vector length element => .cons (.vector length) (.builtin element)
  | named name => ⟨[], .named name⟩

/-- The readable form of an ending: a name, and behind the name of an element how many there are. -/
def render : Ending → String
  | builtin b => b.name
  | vector length element => element.name ++ toString length.toNat
  | named name => name

/-- The text before stays as it is. -/
theorem renderOnto_type (text : String) (e : Ending) :
    e.type.renderOnto text = text ++ e.render := by
  cases e with
  | builtin b => rfl
  | vector n b =>
    rw [type, ArgType.renderOnto_cons]
    simp [ArgType.builtin, render, Link.opening, Link.closing, Leaf.render, String.append_assoc]
  | named name => rfl

end Ending

end KernelSymbol
