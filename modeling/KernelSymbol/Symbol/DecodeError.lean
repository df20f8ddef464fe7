import KernelSymbol.BuildError

/-!
# Why a text is no symbol

A fault is reported with the place where it was found. Readers know a place as the text that is
left from there on; a finished report counts bytes from the start. The type of places is a
parameter, so one type of faults serves both.

## Main definitions

* `DecodeError` — the causes, over any type of places
* `DecodeError.map` — the same cause at another notion of place
* `DecodeError.place?` — the place of a cause, if it has one
* `DecodeError.message` — the wording of a finished report
-/

namespace KernelSymbol

/-- A fault in a text that should be a symbol. -/
inductive DecodeError (π : Type) where
  /-- The text does not start like a symbol. -/
  | missingPrefix
  /-- The function name has length zero. -/
  | emptyName
  /-- The text stops too early. -/
  | unexpectedEnd (place : π)
  /-- A length has no digits or is too large. -/
  | expectedLength (place : π)
  /-- A character was needed and another one found. -/
  | expected (char : Char) (place : π)
  /-- No type starts with this character. -/
  | unknownCode (char : Char) (place : π)
  /-- A reference to nothing, or to something that is no type where a type is needed. -/
  | invalidReference (place : π)
  /-- A type that cannot be built. -/
  | invalidType (place : π) (cause : BuildError)
  deriving DecidableEq

namespace DecodeError

variable {π ρ : Type}

/-- The same cause at another notion of place. -/
def map (f : π → ρ) : DecodeError π → DecodeError ρ
  | missingPrefix => missingPrefix
  | emptyName => emptyName
  | unexpectedEnd p => unexpectedEnd (f p)
  | expectedLength p => expectedLength (f p)
  | expected c p => expected c (f p)
  | unknownCode c p => unknownCode c (f p)
  | invalidReference p => invalidReference (f p)
  | invalidType p cause => invalidType (f p) cause

/-- The place of a cause, if it has one. -/
def place? : DecodeError π → Option π
  | missingPrefix | emptyName => none
  | unexpectedEnd p | expectedLength p | expected _ p | unknownCode _ p | invalidReference p
  | invalidType p _ => some p

/-- The wording of a fault, with its place in bytes. -/
def message : DecodeError Nat → String
  | missingPrefix => "mangled name must start with `_Z`"
  | emptyName => "mangled function name is empty"
  | unexpectedEnd p => "unexpected end of input at offset " ++ toString p
  | expectedLength p => "expected a length at offset " ++ toString p
  | expected c p => "expected `" ++ c.toString ++ "` at offset " ++ toString p
  | unknownCode c p => "unknown type code `" ++ c.toString ++ "` at offset " ++ toString p
  | invalidReference p => "invalid substitution at offset " ++ toString p
  | invalidType p cause => "invalid type at offset " ++ toString p ++ ": " ++ cause.message

@[simp] theorem place?_map (f : π → ρ) (e : DecodeError π) : (e.map f).place? = e.place?.map f := by
  cases e <;> rfl

end DecodeError

end KernelSymbol
