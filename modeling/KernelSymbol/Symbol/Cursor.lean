import KernelSymbol.Symbol.Decoder

/-!
# Reading with a cursor

The decoder knows where it is by the text that is left. A program that reads bytes in place keeps
a number instead, the offset of its cursor, and with a number much can go wrong: it can run past
the end, come to stand inside a character, or overflow, and so can the ends of a slice and every
other number that is computed on the way: the length of a name, the number of a reference and the
place it stands for, and the count of the digits of that number. This module decodes a symbol in
that way. Each of these accidents stops it with a trap, the cursor being checked whenever it is
moved. So it says more than the decoder: wherever the two agree, no accident happened.

Offsets count bytes, and numbers are machine words of sixty-four bits; only the digits of a
reference are counted in a signed word of thirty-two. Zeros in front of a number do not make it
larger, so nothing else stops a run of digits before its count overflows. A byte stands for the
character with its number, which is the character itself if that is ASCII, and belongs to no
character that a symbol asks for otherwise.

## Main definitions

* `Trap`, `Stop` — the accidents, and why reading stops
* `Cursor.peek`, `Cursor.move`, `Cursor.slice?`, `Cursor.rest` — the byte at the cursor, moving it,
  and the text between two offsets
* `Cursor.length`, `Cursor.name`, `Cursor.reference`, `Cursor.attrs`, `Cursor.stem`,
  `Cursor.lexeme` — reading the parts of a symbol
* `Cursor.decode` — the signature that a symbol stands for
-/

namespace KernelSymbol

/-- What a program that moves a cursor over bytes must not run into. -/
inductive Trap where
  /-- A number that does not fit into a machine word. -/
  | overflow
  /-- An offset past the end of the text or inside a character. -/
  | misplaced
  /-- A turn of a loop that did not move the cursor on. -/
  | stuck
  deriving DecidableEq

/-- Why reading stops early: an accident, or a fault of the text. -/
inductive Stop where
  | trap (t : Trap)
  | fault (e : DecodeError Nat)
  deriving DecidableEq

namespace Cursor

variable (text : String)

/-! ### Words and offsets -/

/-- A number, if it fits into a machine word. -/
def word? (n : Nat) : Option Nat := if n < UInt64.size then some n else none

/-- A number that has to fit into a machine word. -/
def word (n : Nat) : Except Stop Nat :=
  match word? n with
  | some n => .ok n
  | none => .error (.trap .overflow)

/-- Whether an offset is within the text, or at its end, and not inside a character. -/
def isBoundary (offset : Nat) : Bool := (⟨offset⟩ : String.Pos.Raw).isValid text

/-- The cursor some bytes further on. -/
def move (pos count : Nat) : Except Stop Nat := do
  let next ← word (pos + count)
  if isBoundary text next then .ok next else .error (.trap .misplaced)

/-- The cursor is moved by as much as was asked for, and stays in the text. -/
theorem eq_of_move {text : String} {pos count next : Nat} (h : move text pos count = .ok next) :
    next = pos + count ∧ next ≤ text.utf8ByteSize := by
  rw [move, word, word?] at h
  split at h
  next n hn =>
    split at hn
    · cases hn
      simp only [bind, Except.bind] at h
      split at h
      next hv =>
        cases h
        exact ⟨rfl, (String.Pos.Raw.isValid_eq_true_iff.1 hv).le_utf8ByteSize⟩
      next => cases h
    · cases hn
  next => cases h

/-! ### Looking at the text -/

/-- The byte at the cursor, as the character with its number. -/
def peek (pos : Nat) : Option Char :=
  text.toByteArray.data[pos]?.map fun byte => Char.ofNat byte.toNat

/-- Whether the cursor is at the end of the text. -/
def atEnd (pos : Nat) : Bool := text.utf8ByteSize ≤ pos

/-- The text between two offsets, if it does not end before it starts, and no end is past the end
of the text or inside a character. -/
def slice? (start stop : Nat) : Option String :=
  if start ≤ stop ∧ isBoundary text start = true ∧ isBoundary text stop = true then
    some (String.Pos.Raw.extract text ⟨start⟩ ⟨stop⟩)
  else none

/-- The text between two offsets that have to be in order and in their places. -/
def slice (start stop : Nat) : Except Stop String :=
  match slice? text start stop with
  | some s => .ok s
  | none => .error (.trap .misplaced)

/-- The text from the cursor on; nothing if the cursor is misplaced. -/
def rest (pos : Nat) : String := (slice? text pos text.utf8ByteSize).getD ""

/-- Moves over a character of one byte, if it is there. -/
def eat (char : Char) (pos : Nat) : Except Stop (Bool × Nat) :=
  if peek text pos = some char then do
    let next ← move text pos 1
    .ok (true, next)
  else .ok (false, pos)

/-- Moves over a text, if it is there. -/
def eatText (front : String) (pos : Nat) : Except Stop (Bool × Nat) :=
  if front.toList.isPrefixOf (rest text pos).toList then do
    let next ← move text pos front.utf8ByteSize
    .ok (true, next)
  else .ok (false, pos)

/-- Moves over a character of one byte that has to be there. -/
def expect (char : Char) (pos : Nat) : Except Stop Nat := do
  let (found, next) ← eat text char pos
  if found then .ok next
  else if atEnd text pos then .error (.fault (.unexpectedEnd pos))
  else .error (.fault (.expected char pos))

/-! ### Numbers and names -/

/-- How many digits a text starts with, counted as bytes. -/
def digitCount (s : String) : Nat :=
  (s.toByteArray.data.toList.takeWhile fun byte => (Char.ofNat byte.toNat).isDigit).length

/-- A length. -/
def length (pos : Nat) : Except Stop (Nat × Nat) :=
  let count := digitCount (rest text pos)
  if count = 0 then
    .error (.fault (if atEnd text pos then .unexpectedEnd pos else .expectedLength pos))
  else do
    let next ← move text pos count
    let digits ← slice text pos next
    match word? (Radix.ten.value digits.toList) with
    | some n => .ok (n, next)
    | none => .error (.fault (.expectedLength pos))

/-- A name behind its length. -/
def name (pos : Nat) : Except Stop (String × Nat) := do
  let (n, start) ← length text pos
  match (word? (start + n)).bind (slice? text start) with
  | some s => do
    let next ← move text start n
    .ok (s, next)
  | none => .error (.fault (.unexpectedEnd text.utf8ByteSize))

/-- The digits of a reference are counted in a signed word of thirty-two bits. -/
def countBound : Nat := Int32.size / 2

/-- The number of a reference that starts at `start`, digit by digit, and how many digits it has;
`n` is the number and `count` the count so far. -/
def number (start n count pos : Nat) : Except Stop ((Nat × Nat) × Nat) :=
  match (peek text pos).filter Radix.thirtySix.isDigit with
  | none => .ok ((n, count), pos)
  | some d =>
    match (word? (n * 36)).bind fun n => word? (n + Radix.digitValue d) with
    | none => .error (.fault (.invalidReference start))
    | some n =>
      match _h : move text pos 1 with
      | .error e => .error e
      | .ok next =>
        if count + 1 < countBound then number start n (count + 1) next
        else .error (.trap .overflow)
termination_by text.utf8ByteSize - pos
decreasing_by
  have := eq_of_move _h
  omega

/-- The number of a reference that starts at `start`, and the `_` behind it, as a place in the
table. -/
def numbered (start pos : Nat) : Except Stop (Nat × Nat) := do
  let ((n, count), next) ← number text start 0 0 pos
  if count = 0 then .error (.fault (.invalidReference start))
  else do
    let next ← expect text '_' next
    let index ← word (n + 1)
    .ok (index, next)

/-- A reference, as a place in the table. -/
def reference (pos : Nat) : Except Stop (Nat × Nat) := do
  let next ← expect text 'S' pos
  let (lone, next) ← eat text '_' next
  if lone then .ok (0, next) else numbered text pos next

/-- The head of a vector, from its `D` on. -/
def vectorLength (pos : Nat) : Except Stop (UInt32 × Nat) := do
  let start ← move text pos 2
  let (n, next) ← length text start
  if n < UInt32.size then do
    let next ← expect text '_' next
    .ok (UInt32.ofNat n, next)
  else .error (.fault (.expectedLength start))

/-! ### Attributes of a pointer -/

/-- The address space of a pointer, if one is spelled out. -/
def space (pos : Nat) : Except Stop (Option AddressSpace × Nat) := do
  let (found, start) ← eatText text "U3AS" pos
  if found then
    match (peek text start).filter Char.isDigit with
    | none => .error (.fault (.expectedLength start))
    | some d => do
      let next ← move text start 1
      if d.toNat < '0'.toNat then .error (.trap .overflow)
      else
        match AddressSpace.ofNumber (d.toNat - '0'.toNat) with
        | .ok s => .ok (some s, next)
        | .error e => .error (.fault (.invalidType start e))
  else .ok (none, start)

/-- The attributes of a pointer, and whether any of them was spelled out. -/
def attrs (pos : Nat) : Except Stop ((PointerAttrs × Bool) × Nat) := do
  let (space, pos) ← space text pos
  let (restrict, pos) ← eat text Qualifier.restrict.letter pos
  let (volatile, pos) ← eat text Qualifier.volatile.letter pos
  let (const, pos) ← eat text Qualifier.const.letter pos
  let qualifiers := QualifierSet.ofFlags restrict volatile const
  .ok ((⟨space.getD default, qualifiers⟩, space.isSome || !qualifiers.isEmpty), pos)

/-! ### Parameters -/

/-- The fault that no type starts at the cursor. -/
def unknownCode (pos : Nat) : Stop :=
  match (rest text pos).toList with
  | c :: _ => .fault (.unknownCode c pos)
  | [] => .fault (.unexpectedEnd pos)

/-- A stem that is no pointer. Its place is kept as the text that is left there. -/
def stem (pos : Nat) : Except Stop (Stem × Nat) :=
  match peek text pos with
  | none => .error (.fault (.unexpectedEnd pos))
  | some c =>
    if c = 'S' then do
      let (i, next) ← reference text pos
      .ok (.reference i (rest text pos).toList, next)
    else if c = 'D' then do
      let next ← move text pos 1
      let (half, behind) ← eat text 'h' next
      if half then .ok (.builtin .half, behind) else .error (unknownCode text next)
    else if c.isDigit then do
      let (name, next) ← name text pos
      match Builtin.ofSpelling? (.source name) with
      | some b => .ok (.builtin b, next)
      | none => .ok (.named name (rest text pos).toList, next)
    else
      match Builtin.ofSpelling? (.letter c) with
      | some b => do
        let next ← move text pos 1
        .ok (.builtin b, next)
      | none => .error (unknownCode text pos)

/-- The rest of a parameter inside some openings. -/
def lexeme (openings : List Opening) (pos : Nat) : Except Stop (Lexeme × Nat) :=
  if ['D', 'v'].isPrefixOf (rest text pos).toList then
    match vectorLength text pos with
    | .error e => .error e
    | .ok (n, next) =>
      if pos < next ∧ next ≤ text.utf8ByteSize then
        lexeme (.vector n (rest text pos).toList :: openings) next
      else .error (.trap .stuck)
  else if peek text pos = some 'P' then
    match move text pos 1 with
    | .error e => .error e
    | .ok inner =>
      if peek text inner = some 'S' then do
        let (i, next) ← reference text inner
        .ok (⟨openings, .pointerTo i (rest text inner).toList⟩, next)
      else
        match attrs text inner with
        | .error e => .error e
        | .ok ((attrs, spelled), next) =>
          if pos < next ∧ next ≤ text.utf8ByteSize then
            lexeme (.pointer attrs spelled :: openings) next
          else .error (.trap .stuck)
  else do
    let (stem, next) ← stem text pos
    .ok (⟨openings, stem⟩, next)
termination_by text.utf8ByteSize - pos

/-- Reads one parameter and builds its type. -/
def param (d : Decoder) (pos : Nat) : Except Stop (Handle × Nat) × Decoder :=
  match lexeme text [] pos with
  | .error e => (.error e, d)
  | .ok (lexeme, next) =>
    match d.build lexeme with
    | (.ok h, d) => (.ok (h, next), d)
    | (.error e, d) =>
      (.error (.fault (e.map fun rest => text.utf8ByteSize - byteCount rest)), d)

/-- Reads parameters to the end of the text. `params` holds, in reverse, those read already. -/
def params (d : Decoder) (done : List Handle) (pos : Nat) : Except Stop (List Handle) × Decoder :=
  if atEnd text pos then (.ok done.reverse, d)
  else
    match param text d pos with
    | (.error e, d) => (.error e, d)
    | (.ok (h, next), d) =>
      if pos < next ∧ next ≤ text.utf8ByteSize then params d (h :: done) next
      else (.error (.trap .stuck), d)
termination_by text.utf8ByteSize - pos

/-- The name of the function. -/
def head : Except Stop (String × Nat) := do
  let (found, pos) ← eatText text "_Z" 0
  if found then do
    let (name, pos) ← name text pos
    if name = "" then .error (.fault .emptyName) else .ok (name, pos)
  else .error (.fault .missingPrefix)

/-- The signature that a symbol stands for, built in a pool. -/
def decode (pool : Pool) : Except Stop (Signature Handle) × Pool :=
  match head text with
  | .error e => (.error e, pool)
  | .ok (name, pos) =>
    if rest text pos = "v" then (.ok ⟨name, []⟩, pool)
    else if atEnd text pos then (.error (.fault (.unexpectedEnd pos)), pool)
    else
      match params text (.start pool) [] pos with
      | (.ok hs, d) => (.ok ⟨name, hs⟩, d.pool)
      | (.error e, d) => (.error e, d.pool)

end Cursor

end KernelSymbol
