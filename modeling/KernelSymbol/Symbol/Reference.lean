import KernelSymbol.Symbol.Cursor

/-!
# References on their own

The number of a reference is written through a buffer. Its last digit is found first, so the buffer
is filled from the end, and what is filled is then copied behind the text. Nothing but the size of
the numbers keeps the buffer from being too small.

Reading a reference ends with a look into the table. What a reference may stand for is a component,
which need not be a type.

## Main definitions

* `DigitBuffer`, `DigitBuffer.push?`, `DigitBuffer.write?` — the buffer, one more digit in front of
  those in it, and all digits of a number
* `writeReference?` — a text with a reference behind it
* `Decoder.candidate`, `Cursor.candidate` — what the reference at the front of a text stands for,
  and what the one at the cursor does
-/

namespace KernelSymbol

/-! ### Writing -/

/-- Sixteen cells, the first of which are still free. -/
structure DigitBuffer where
  cells : Vector Char 16
  free : Nat
  free_le : free ≤ 16

namespace DigitBuffer

/-- A buffer with nothing in it. -/
def empty : DigitBuffer := ⟨Vector.replicate 16 (Char.ofNat 0), 16, Nat.le_refl 16⟩

/-- What is in the buffer. -/
def toList (b : DigitBuffer) : List Char := b.cells.toList.drop b.free

/-- The buffer with a character in front of those in it, if there is a free cell. -/
def push? (c : Char) : DigitBuffer → Option DigitBuffer
  | ⟨_, 0, _⟩ => none
  | ⟨cells, free + 1, h⟩ => some ⟨cells.set free c, free, Nat.le_of_succ_le h⟩

/-- The buffer with the digits of a number in front of what is in it, if they fit. There is a digit
even if the number is zero. -/
def write? (b : DigitBuffer) (value : Nat) : Option DigitBuffer :=
  match b.push? (Radix.digitChar (value % 36)) with
  | none => none
  | some b => if _h : value / 36 = 0 then some b else b.write? (value / 36)
termination_by value

end DigitBuffer

/-- A text with a reference to a place of the table behind it, if the number fits the buffer. -/
def writeReference? (text : String) : Nat → Option String
  | 0 => some (text ++ "S" ++ "_")
  | id + 1 =>
    (DigitBuffer.empty.write? id).map fun b => text ++ "S" ++ String.ofList b.toList ++ "_"

/-! ### Reading -/

/-- What the reference at the front of a text stands for, and what follows it. -/
def Decoder.candidate (d : Decoder) (cs : List Char) : Read (Component Handle) :=
  match expect 'S' cs with
  | .error e => .error e
  | .ok rest =>
    match readReference cs rest with
    | .error e => .error e
    | .ok (index, rest) =>
      match d.component index cs with
      | .ok c => .ok (c, rest)
      | .error e => .error e

/-- What the reference at the cursor stands for, and where the cursor is behind it. -/
def Cursor.candidate (text : String) (d : Decoder) (pos : Nat) :
    Except Stop (Component Handle × Nat) := do
  let (index, next) ← reference text pos
  match d.table[index]? with
  | some c => .ok (c, next)
  | none => .error (.fault (.invalidReference pos))

end KernelSymbol
