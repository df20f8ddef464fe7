import KernelSymbol.Proofs.Faults
import KernelSymbol.Proofs.Roundtrip
import KernelSymbol.Symbol.Cursor
import Mathlib.Data.String.Basic

/-!
# The cursor stays where it should

Each reader with a cursor is compared with the one that keeps the text that is left: at the offset
of what is left, it does the same, and leaves the cursor at the offset of what the other one leaves.
So it meets no accident, for the other one has none to report. A reader with a cursor sees single
bytes; what makes this harmless is that it only ever asks for ASCII characters, which are one byte
and do not occur inside others.

Two accidents remain, both in references. The place that a reference stands for is one more than its
number, and nothing stops a number from being the last machine word. The digits of the number are
counted, and as zeros in front of it do not make it larger, nothing stops them from being too many
to count.

## Main definitions

* `Cursor.offset` — where the cursor is when so much of the text is left
* `Cursor.SameAscii` — what the first byte of a character tells about it
* `Refers`, `Overcounts` — a parameter refers to a certain place of the table, or has a reference
  with too many digits to count
* `Meets` — one of the parameters has a property

## Main results

* `Cursor.move_eq`, `Cursor.slice?_eq`, `Cursor.exists_peek` — moving, slicing and peeking at an
  offset
* `Cursor.number_eq`, `Cursor.number_eq_trap` — the number of a reference, and how counting its
  digits ends where there are too many
* `Cursor.length_eq`, `Cursor.name_eq`, `Cursor.reference_eq`, `Cursor.attrs_eq`, `Cursor.stem_eq`,
  `Cursor.lexeme_eq` — the parts of a symbol
* `Cursor.decode_eq`, `Cursor.decode_safe` — whole symbols
-/

namespace KernelSymbol

/-- The place of the table that a stem refers to, if it does. -/
def Stem.index? : Stem → Option Nat
  | .reference index _ | .pointerTo index _ => some index
  | _ => none

/-- The parameter at the front of a text refers to a place of the table. -/
def Refers (index : Nat) (cs : List Char) : Prop :=
  ∃ lexeme rest, readLexeme [] cs = .ok (lexeme, rest) ∧ lexeme.stem.index? = some index

/-- A text starts with more digits of a reference than can be counted. -/
def LongRun (cs : List Char) : Prop :=
  Cursor.countBound ≤ (cs.takeWhile Radix.thirtySix.isDigit).length

instance (cs : List Char) : Decidable (LongRun cs) := inferInstanceAs (Decidable (_ ≤ _))

/-- The parameter at the front of a text comes, behind its vectors and pointers, to a reference with
more digits than can be counted. -/
inductive Overcounts : List Char → Prop where
  | reference {cs : List Char} (h : LongRun cs) : Overcounts ('S' :: cs)
  | pointerTo {cs : List Char} (h : LongRun cs) : Overcounts ('P' :: 'S' :: cs)
  | vector {cs rest : List Char} {n : UInt32} (h : readVectorLength cs = .ok (n, rest))
    (hr : Overcounts rest) : Overcounts ('D' :: 'v' :: cs)
  | pointer {cs rest : List Char} {a : PointerAttrs × Bool} (hS : after? ['S'] cs = none)
    (h : readAttrs cs = .ok (a, rest)) (hr : Overcounts rest) : Overcounts ('P' :: cs)

/-- A text, when it is read parameter by parameter, comes to one at whose front a property holds. -/
inductive Meets (P : List Char → Prop) : List Char → Prop where
  | here {cs : List Char} (h : P cs) : Meets P cs
  | behind {cs rest : List Char} {lexeme : Lexeme} (h : readLexeme [] cs = .ok (lexeme, rest))
    (hr : Meets P rest) : Meets P cs

namespace Cursor

/-! ### Offsets -/

/-- The offset at which so much of a text is left. -/
def offset (text : String) (rest : List Char) : Nat := text.utf8ByteSize - byteCount rest

variable {text : String} {cs mid rest : List Char} {a c : Char}

theorem splitsAt_offset {front : List Char} (h : front ++ cs = text.toList) :
    SplitsAt text (offset text cs) front cs := by
  refine ⟨h, ?_⟩
  rw [offset, ← byteCount_toList, ← h, byteCount_append, Nat.add_sub_cancel]

@[simp] theorem offset_nil : offset text [] = text.utf8ByteSize := rfl

/-- What is in front of the rest is between the two offsets. -/
theorem offset_append (h : mid ++ cs <:+ text.toList) :
    offset text (mid ++ cs) + byteCount mid = offset text cs := by
  obtain ⟨front, h⟩ := h
  have h₁ := (splitsAt_offset h).2
  rw [← List.append_assoc] at h
  rw [← (splitsAt_offset h).2, byteCount_append, h₁]

theorem offset_le (h : cs <:+ text.toList) : offset text cs ≤ text.utf8ByteSize := by
  obtain ⟨front, h⟩ := h
  exact (splitsAt_offset h).le

theorem isBoundary_offset (h : cs <:+ text.toList) : isBoundary text (offset text cs) = true := by
  obtain ⟨front, h⟩ := h
  exact String.Pos.Raw.isValid_eq_true_iff.2 (splitsAt_offset h).isValid

theorem atEnd_offset (h : cs <:+ text.toList) : atEnd text (offset text cs) = cs.isEmpty := by
  obtain ⟨front, h⟩ := h
  have hs := splitsAt_offset h
  rw [Bool.eq_iff_iff, atEnd, decide_eq_true_iff, List.isEmpty_iff, ← hs.eq_iff]
  exact ⟨fun he => Nat.le_antisymm hs.le he, fun he => he.ge⟩

/-- Numbers up to the size of a text are machine words. -/
theorem word?_of_le {n : Nat} (hb : text.utf8ByteSize < textBound) (h : n ≤ text.utf8ByteSize) :
    word? n = some n := by
  have : textBound ≤ UInt64.size := by decide
  exact if_pos (by omega)

theorem move_eq (hb : text.utf8ByteSize < textBound) (h : mid ++ cs <:+ text.toList) :
    move text (offset text (mid ++ cs)) (byteCount mid) = .ok (offset text cs) := by
  have hcs : cs <:+ text.toList := (List.suffix_append ..).trans h
  rw [move, offset_append h, word, word?_of_le hb (offset_le hcs)]
  exact if_pos (isBoundary_offset hcs)

/-- Text that was read is between the two offsets. -/
theorem offset_lt (h : cs <:+ text.toList) (hr : rest <:+ cs) (hl : rest.length < cs.length) :
    offset text cs < offset text rest := by
  obtain ⟨front, rfl⟩ := hr
  have hpos : 0 < byteCount front := by
    rw [Nat.pos_iff_ne_zero, Ne, byteCount_eq_zero_iff]
    rintro rfl
    exact absurd hl (Nat.lt_irrefl _)
  rw [← offset_append h]
  omega

theorem isPrefixOf_eq (es cs : List Char) : es.isPrefixOf cs = (after? es cs).isSome := by
  rw [Bool.eq_iff_iff, List.isPrefixOf_iff_prefix, Option.isSome_iff_exists]
  exact exists_congr fun rest => by rw [after?_eq_some_iff, eq_comm]

theorem head?_eq_some_iff : cs.head? = some a ↔ ∃ rest, after? [a] cs = some rest := by
  rw [List.head?_eq_some_iff]
  exact exists_congr fun rest => by rw [after?_eq_some_iff]; rfl

theorem slice?_eq (h : mid ++ cs <:+ text.toList) :
    slice? text (offset text (mid ++ cs)) (offset text cs) = some (String.ofList mid) := by
  obtain ⟨front, hf⟩ := id h
  have len : ∀ l : List Char, String.utf8Len l = byteCount l := by
    intro l
    rw [← String.utf8ByteSize_ofList, utf8ByteSize_ofList]
  have hcs : cs <:+ text.toList := (List.suffix_append ..).trans h
  have htext : text = String.ofList (front ++ mid ++ cs) := by
    rw [List.append_assoc, hf, String.ofList_toList]
  have hle : offset text (mid ++ cs) ≤ offset text cs := by
    rw [← offset_append h]
    exact Nat.le_add_right ..
  have hextract : String.Pos.Raw.extract text ⟨offset text (mid ++ cs)⟩ ⟨offset text cs⟩ =
      String.ofList mid := by
    rw [← offset_append h, ← (splitsAt_offset hf).2]
    conv_lhs => rw [htext]
    rw [← len, ← len]
    exact String.extract_of_valid front mid cs
  rw [slice?, if_pos ⟨hle, isBoundary_offset h, isBoundary_offset hcs⟩, hextract]

/-- If there is text between a place and an offset behind it, then the offset is a place. -/
theorem exists_splits_of_slice? {n : Nat} (h : cs <:+ text.toList)
    (hs : slice? text (offset text cs) (offset text cs + n) ≠ none) :
    ∃ front rest, cs = front ++ rest ∧ byteCount front = n := by
  obtain ⟨before, h⟩ := h
  have hv : isBoundary text (offset text cs + n) = true := by
    rw [slice?] at hs
    split at hs
    next hc => exact hc.2.2
    next => exact absurd rfl hs
  obtain ⟨s, t, htext, hp⟩ :=
    String.Pos.Raw.isValid_iff_exists_append.1 (String.Pos.Raw.isValid_eq_true_iff.1 hv)
  have hlen : byteCount before + n = byteCount s.toList := by
    rw [String.Pos.Raw.ext_iff, String.byteIdx_rawEndPos] at hp
    rw [(splitsAt_offset h).2, byteCount_toList]
    exact hp
  have happ : before ++ cs = s.toList ++ t.toList := by rw [h, htext, String.toList_append]
  obtain ⟨mid, hmid, hcs⟩ | ⟨mid, hmid, ht⟩ := List.append_eq_append_iff.1 happ
  · refine ⟨mid, t.toList, hcs, ?_⟩
    rw [hmid, byteCount_append] at hlen
    exact (Nat.add_left_cancel hlen).symm
  · refine ⟨[], cs, rfl, ?_⟩
    rw [hmid, byteCount_append] at hlen
    rw [byteCount_nil]
    omega

theorem rest_eq (h : cs <:+ text.toList) :
    Cursor.rest text (offset text cs) = String.ofList cs := by
  have hs : slice? text (offset text (cs ++ [])) (offset text []) = some (String.ofList cs) :=
    slice?_eq (by rwa [List.append_nil])
  rw [List.append_nil, offset_nil] at hs
  rw [Cursor.rest, hs, Option.getD_some]

/-! ### Bytes -/

/-- The two characters are the same, or neither of them is ASCII. -/
def SameAscii (d c : Char) : Prop := ∀ a : Char, a.toNat < 128 → (d = a ↔ c = a)

theorem SameAscii.eq {d : Char} (h : SameAscii d c) (hc : c.toNat < 128) : d = c :=
  (h c hc).2 rfl

/-- A test that only ASCII passes does not tell such characters apart. -/
theorem SameAscii.test {d : Char} (h : SameAscii d c) {p : Char → Bool}
    (hp : ∀ a, p a = true → a.toNat < 128) : p d = p c := by
  by_cases hc : c.toNat < 128
  · rw [h.eq hc]
  · have hd : ¬d.toNat < 128 := fun hd => hc (by rw [(h d hd).1 rfl]; exact hd)
    rw [Bool.eq_iff_iff]
    exact ⟨fun h => absurd (hp d h) hd, fun h => absurd (hp c h) hc⟩

theorem utf8Size_of_ascii (h : c.toNat < 128) : c.utf8Size = 1 := by
  rw [Char.utf8Size_eq_one_iff, UInt32.le_iff_toNat_le]
  exact Nat.le_of_lt_succ h

theorem ascii_of_isDigit (r : Radix) (h : r.isDigit c = true) : c.toNat < 128 := by
  cases r with
  | ten =>
    have hc := Radix.bounds_of_isDigit h
    omega
  | thirtySix =>
    rcases Bool.or_eq_true_iff.1 h with h | h
    · have hc := Radix.bounds_of_isDigit h
      omega
    · have hc := Radix.bounds_of_isUpper h
      omega

/-- A byte that starts no ASCII character stands for no ASCII character. -/
theorem sameAscii_of_le {n : Nat} (hn : 128 ≤ n ∧ n < 256) (hc : 128 ≤ c.toNat) :
    SameAscii (Char.ofNat (UInt8.ofNat n).toNat) c := by
  have hd : (Char.ofNat (UInt8.ofNat n).toNat).toNat = n := by
    have hvalid : n.isValidChar := .inl (by omega)
    rw [UInt8.toNat_ofNat', Nat.mod_eq_of_lt hn.2, Char.ofNat, dif_pos hvalid]
    rfl
  intro a ha
  constructor
  · rintro rfl
    omega
  · rintro rfl
    omega

/-- The first byte of a character. -/
theorem exists_utf8EncodeChar (c : Char) : ∃ b bs, String.utf8EncodeChar c = b :: bs ∧
    SameAscii (Char.ofNat b.toNat) c ∧ (c.toNat < 128 → bs = []) := by
  have hv : c.val.toNat = c.toNat := rfl
  simp only [String.utf8EncodeChar, hv]
  split
  next h =>
    refine ⟨_, _, rfl, ?_, fun _ => rfl⟩
    rw [UInt8.toNat_ofNat', Nat.mod_eq_of_lt (by omega), Char.ofNat_toNat]
    exact fun a _ => Iff.rfl
  next h =>
    -- the first of several bytes is no ASCII character, and neither is the character
    have hc : 128 ≤ c.toNat := by omega
    split
    · exact ⟨_, _, rfl, sameAscii_of_le (by omega) hc, fun hlt => absurd hc (Nat.not_le.2 hlt)⟩
    · split
      · exact ⟨_, _, rfl, sameAscii_of_le (by omega) hc, fun hlt => absurd hc (Nat.not_le.2 hlt)⟩
      · exact ⟨_, _, rfl, sameAscii_of_le (by omega) hc, fun hlt => absurd hc (Nat.not_le.2 hlt)⟩

theorem toList_bytes (s : String) :
    s.toByteArray.data.toList = s.toList.flatMap String.utf8EncodeChar := by
  conv_lhs => rw [← String.ofList_toList (s := s)]
  rw [String.toByteArray_ofList, List.utf8Encode, List.data_toByteArray]

theorem length_flatMap_utf8EncodeChar (cs : List Char) :
    (cs.flatMap String.utf8EncodeChar).length = byteCount cs := by
  induction cs with
  | nil => rfl
  | cons c cs ih => rw [List.flatMap_cons, List.length_append, ih, byteCount_cons,
      String.length_utf8EncodeChar]

/-- The byte at a place, as the character with its number, is the character that is there, unless
neither of them is ASCII. -/
theorem exists_peek (h : c :: cs <:+ text.toList) :
    ∃ d, peek text (offset text (c :: cs)) = some d ∧ SameAscii d c := by
  obtain ⟨front, h⟩ := h
  obtain ⟨b, bs, hb, hs, -⟩ := exists_utf8EncodeChar c
  refine ⟨Char.ofNat b.toNat, ?_, hs⟩
  rw [peek, ← (splitsAt_offset h).2, ← Array.getElem?_toList, toList_bytes, ← h,
    List.flatMap_append, ← length_flatMap_utf8EncodeChar,
    List.getElem?_append_right (Nat.le_refl _), Nat.sub_self, List.flatMap_cons, hb]
  rfl

theorem peek_end : peek text text.utf8ByteSize = none := by
  rw [peek, ← Array.getElem?_toList, toList_bytes, List.getElem?_eq_none, Option.map_none]
  rw [length_flatMap_utf8EncodeChar, byteCount_toList]

theorem peek_eq_some_iff (ha : a.toNat < 128) (h : cs <:+ text.toList) :
    peek text (offset text cs) = some a ↔ cs.head? = some a := by
  cases cs with
  | nil => simp [peek_end]
  | cons c cs =>
    obtain ⟨d, hd, hs⟩ := exists_peek h
    rw [hd, List.head?_cons, Option.some.injEq, Option.some.injEq]
    exact hs a ha

/-! ### Small readers -/

section

variable (hb : text.utf8ByteSize < textBound)
include hb

/-- An ASCII character is one byte. -/
theorem move_one (hc : c.toNat < 128) (h : c :: cs <:+ text.toList) :
    move text (offset text (c :: cs)) 1 = .ok (offset text cs) := by
  have hm : move text (offset text ([c] ++ cs)) (byteCount [c]) = .ok (offset text cs) :=
    move_eq hb h
  rwa [byteCount_cons, byteCount_nil, utf8Size_of_ascii hc] at hm

/-- A character is moved over if it is there. -/
theorem eat_eq (ha : a.toNat < 128) (h : cs <:+ text.toList) :
    eat text a (offset text cs) = .ok (match after? [a] cs with
      | some rest => (true, offset text rest)
      | none => (false, offset text cs)) := by
  rw [eat]
  split
  next hp =>
    obtain ⟨rest, rfl⟩ := List.head?_eq_some_iff.1 ((peek_eq_some_iff ha h).1 hp)
    rw [move_one hb ha h]
    simp [after?, bind, Except.bind]
  next hp =>
    rw [peek_eq_some_iff ha h] at hp
    rw [after?_eq_none fun hm => hp hm]

/-- And so is a text. -/
theorem eatText_eq (front : String) (h : cs <:+ text.toList) :
    eatText text front (offset text cs) = .ok (match after? front.toList cs with
      | some rest => (true, offset text rest)
      | none => (false, offset text cs)) := by
  rw [eatText, rest_eq h, String.toList_ofList]
  cases hf : after? front.toList cs with
  | some rest =>
    obtain rfl := after?_eq_some_iff.1 hf
    have hm := move_eq hb h
    rw [byteCount_toList] at hm
    rw [isPrefixOf_eq, hf, hm]
    rfl
  | none =>
    rw [isPrefixOf_eq, hf]
    rfl

/-- A character that has to be there. -/
theorem expect_eq (ha : a.toNat < 128) (h : cs <:+ text.toList) :
    Cursor.expect text a (offset text cs) = match KernelSymbol.expect a cs with
      | .ok rest => .ok (offset text rest)
      | .error e => .error (.fault (e.map (offset text))) := by
  rw [Cursor.expect, eat_eq hb ha h, atEnd_offset h]
  cases cs with
  | nil => rfl
  | cons c cs =>
    rw [KernelSymbol.expect, after?, after?]
    by_cases hc : c = a
    · rw [if_pos hc, if_pos hc]
      rfl
    · rw [if_neg hc, if_neg hc]
      rfl

/-! ### Numbers and names -/

/-- What a reader returns, with offsets for the text that is left. -/
def located (text : String) {α : Type} : Read α → Except Stop (α × Nat)
  | .ok (a, rest) => .ok (a, offset text rest)
  | .error e => .error (.fault (e.map (offset text)))

omit hb in
/-- Digits are counted as they are read, since each of them is one byte. -/
theorem digitCount_ofList (cs : List Char) :
    digitCount (String.ofList cs) = byteCount (cs.takeWhile Char.isDigit) := by
  rw [digitCount, toList_bytes, String.toList_ofList]
  induction cs with
  | nil => rfl
  | cons c cs ih =>
    obtain ⟨b, bs, hc, hs, hbs⟩ := exists_utf8EncodeChar c
    have hd : (Char.ofNat b.toNat).isDigit = c.isDigit := hs.test fun a => ascii_of_isDigit .ten
    rw [List.flatMap_cons, hc, List.cons_append, List.takeWhile_cons, List.takeWhile_cons, hd]
    split
    next h =>
      have hlt := ascii_of_isDigit .ten h
      rw [hbs hlt, List.nil_append, List.length_cons, ih, byteCount_cons, utf8Size_of_ascii hlt,
        Nat.add_comm]
    next => rfl

theorem length_eq (h : cs <:+ text.toList) :
    Cursor.length text (offset text cs) = located text (readLength cs) := by
  have hten : Radix.ten.isDigit = Char.isDigit := rfl
  simp only [Cursor.length, readLength, rest_eq h, digitCount_ofList, atEnd_offset h, hten]
  have hcs : cs.takeWhile Char.isDigit ++ cs.dropWhile Char.isDigit = cs :=
    List.takeWhile_append_dropWhile
  generalize cs.takeWhile Char.isDigit = digits, cs.dropWhile Char.isDigit = rest at hcs ⊢
  subst hcs
  cases digits with
  | nil => cases rest <;> rfl
  | cons d digits =>
    have hpos := d.utf8Size_pos
    rw [if_neg (by rw [byteCount_cons]; omega), move_eq hb h]
    simp only [bind, Except.bind, slice, slice?_eq h, String.toList_ofList, List.isEmpty_cons,
      Bool.false_eq_true, ↓reduceIte, Radix.valueUpTo_eq]
    by_cases hn : Radix.ten.value (d :: digits) < numberBound
    · have hw : word? (Radix.ten.value (d :: digits)) = some (Radix.ten.value (d :: digits)) :=
        if_pos hn
      rw [hw, Nat.min_eq_right (Nat.le_of_lt hn), if_pos hn]
      rfl
    · have hw : word? (Radix.ten.value (d :: digits)) = none := if_neg hn
      rw [hw, if_neg (by omega)]
      rfl

/-- The text behind a place, as far as a number of bytes goes, if it goes so far. -/
theorem slice?_add (h : cs <:+ text.toList) (n : Nat) :
    (word? (offset text cs + n)).bind (slice? text (offset text cs)) =
      (splitBytes? n cs).map fun s => String.ofList s.1 := by
  cases hs : splitBytes? n cs with
  | some s =>
    obtain ⟨front, rest⟩ := s
    obtain ⟨rfl, rfl⟩ := splitBytes?_eq_some_iff.1 hs
    have hrest : rest <:+ text.toList := (List.suffix_append ..).trans h
    rw [offset_append h, word?_of_le hb (offset_le hrest), Option.bind_some, slice?_eq h]
    rfl
  | none =>
    refine Option.bind_eq_none_iff.2 fun m hm => ?_
    have hm : m = offset text cs + n := by
      rw [word?] at hm
      split at hm <;> cases hm
      rfl
    subst hm
    -- if the text were there, the offset would be a place, and the bytes could be split off
    by_contra hne
    obtain ⟨front, rest, hf, hc⟩ := exists_splits_of_slice? h hne
    rw [splitBytes?_eq_some_iff.2 ⟨hf, hc⟩] at hs
    cases hs

theorem name_eq (h : cs <:+ text.toList) :
    Cursor.name text (offset text cs) = located text (readName cs) := by
  rw [Cursor.name, length_eq hb h, readName]
  rcases hn : readLength cs with e | ⟨n, rest⟩
  · rfl
  · have hrest := (readLength_suffix hn).trans h
    simp only [located, bind, Except.bind, slice?_add hb hrest]
    cases hs : splitBytes? n rest with
    | none => rfl
    | some s =>
      obtain ⟨front, rest'⟩ := s
      obtain ⟨rfl, rfl⟩ := splitBytes?_eq_some_iff.1 hs
      simp only [Option.map_some, move_eq hb hrest]

/-! ### References -/

omit hb in
/-- The number that a number becomes by further digits. -/
def numberFrom (n : Nat) (cs : List Char) : Nat :=
  cs.foldl (fun v c => v * 36 + Radix.digitValue c) n

omit hb in
theorem le_numberFrom (n : Nat) (cs : List Char) : n ≤ numberFrom n cs := by
  induction cs generalizing n with
  | nil => exact Nat.le_refl n
  | cons c cs ih =>
    have hn : n ≤ n * 36 + Radix.digitValue c := by omega
    exact Nat.le_trans hn (ih _)

omit hb in
/-- A digit can be added unless the sum is too large; then the product may be too large already. -/
theorem word?_digit (n d : Nat) :
    ((word? (n * 36)).bind fun n => word? (n + d)) = word? (n * 36 + d) := by
  by_cases hn : n * 36 < UInt64.size
  · rw [word?, if_pos hn, Option.bind_some]
  · rw [word?, if_neg hn, Option.bind_none, word?, if_neg (by omega)]

/-- One more digit, if the number does not become too large by it: then it is counted. -/
theorem number_cons {start n count : Nat} (hc : Radix.thirtySix.isDigit c = true)
    (h : c :: cs <:+ text.toList) :
    number text start n count (offset text (c :: cs)) =
      if n * 36 + Radix.digitValue c < UInt64.size then
        if count + 1 < countBound then
          number text start (n * 36 + Radix.digitValue c) (count + 1) (offset text cs)
        else .error (.trap .overflow)
      else .error (.fault (.invalidReference start)) := by
  obtain ⟨d, hd, hs⟩ := exists_peek h
  have hlt := ascii_of_isDigit .thirtySix hc
  obtain rfl := hs.eq hlt
  have hm := move_one hb hlt h
  rw [number.eq_def, hd, Option.filter_some, if_pos hc]
  simp only [word?_digit]
  by_cases hw : n * 36 + Radix.digitValue d < UInt64.size
  · rw [word?, if_pos hw, if_pos hw]
    simp only
    split
    next he =>
      rw [hm] at he
      cases he
    next next he =>
      rw [hm] at he
      cases he
      rfl
  · rw [word?, if_neg hw, if_neg hw]

omit hb in
theorem number_of_stops {start n count : Nat} (hcs : Radix.thirtySix.Stops cs)
    (h : cs <:+ text.toList) :
    number text start n count (offset text cs) = .ok ((n, count), offset text cs) := by
  cases cs with
  | nil => rw [number.eq_def, offset_nil, peek_end]; rfl
  | cons c cs =>
    obtain ⟨d, hd, hs⟩ := exists_peek h
    have htest : Radix.thirtySix.isDigit d = Radix.thirtySix.isDigit c :=
      hs.test fun a => ascii_of_isDigit .thirtySix
    rw [Radix.stops_cons] at hcs
    rw [number.eq_def, hd, Option.filter_some, htest, hcs]
    rfl

/-- The number is accumulated digit by digit, and too large as soon as it is too large once. The
digits are counted, if they are not too many. -/
theorem number_eq {start n count : Nat} {digits : List Char} (hn : n < UInt64.size)
    (hd : ∀ c ∈ digits, Radix.thirtySix.isDigit c = true) (hrest : Radix.thirtySix.Stops rest)
    (h : digits ++ rest <:+ text.toList) (hcount : count + digits.length < countBound) :
    number text start n count (offset text (digits ++ rest)) =
      if numberFrom n digits < UInt64.size then
        .ok ((numberFrom n digits, count + digits.length), offset text rest)
      else .error (.fault (.invalidReference start)) := by
  induction digits generalizing n count with
  | nil => exact (number_of_stops hrest h).trans (if_pos hn).symm
  | cons c digits ih =>
    obtain ⟨hc, hd⟩ := List.forall_mem_cons.1 hd
    have h : c :: (digits ++ rest) <:+ text.toList := h
    have hlen : count + 1 + digits.length < countBound := by
      rw [List.length_cons] at hcount
      omega
    rw [List.cons_append, number_cons hb hc h, if_pos (by omega : count + 1 < countBound)]
    by_cases hw : n * 36 + Radix.digitValue c < UInt64.size
    · rw [if_pos hw, ih hw hd ((List.suffix_cons ..).trans h) hlen, List.length_cons,
        Nat.add_right_comm, Nat.add_assoc]
      rfl
    · -- the digits behind do not make it smaller again
      have hle := le_numberFrom (n * 36 + Radix.digitValue c) digits
      rw [if_neg hw]
      exact (if_neg (Nat.not_lt.2 (Nat.le_trans (Nat.not_lt.1 hw) hle))).symm

/-- Where there are too many digits to count, the count overflows, unless the number has become too
large before. -/
theorem number_eq_trap {start n count : Nat} {digits : List Char} (hne : digits ≠ [])
    (hd : ∀ c ∈ digits, Radix.thirtySix.isDigit c = true) (h : digits ++ rest <:+ text.toList)
    (hcount : count + digits.length = countBound) :
    number text start n count (offset text (digits ++ rest)) =
      if numberFrom n digits < UInt64.size then .error (.trap .overflow)
      else .error (.fault (.invalidReference start)) := by
  induction digits generalizing n count with
  | nil => exact absurd rfl hne
  | cons c digits ih =>
    obtain ⟨hc, hd⟩ := List.forall_mem_cons.1 hd
    have h : c :: (digits ++ rest) <:+ text.toList := h
    rw [List.length_cons] at hcount
    rw [List.cons_append, number_cons hb hc h]
    by_cases hw : n * 36 + Radix.digitValue c < UInt64.size
    · rw [if_pos hw]
      by_cases hnil : digits = []
      · subst hnil
        rw [if_neg (by rw [List.length_nil] at hcount; omega)]
        exact (if_pos hw).symm
      · have hpos := List.length_pos_iff.2 hnil
        rw [if_pos (by omega), ih hnil hd ((List.suffix_cons ..).trans h) (by omega)]
        rfl
    · have hle := le_numberFrom (n * 36 + Radix.digitValue c) digits
      rw [if_neg hw]
      exact (if_neg (Nat.not_lt.2 (Nat.le_trans (Nat.not_lt.1 hw) hle))).symm

/-- The number of a reference is read as it is without a cursor, unless it is the last machine
word or has too many digits to count. -/
theorem numbered_eq (h : 'S' :: cs <:+ text.toList) (hlone : after? ['_'] cs = none)
    (hrun : ¬LongRun cs) (hno : ∀ rest, readReference ('S' :: cs) cs ≠ .ok (numberBound, rest)) :
    numbered text (offset text ('S' :: cs)) (offset text cs) =
      located text (readReference ('S' :: cs) cs) := by
  have hcs : cs <:+ text.toList := (List.suffix_cons ..).trans h
  simp only [readReference, hlone, Radix.valueUpTo_eq] at hno ⊢
  have hid : cs.takeWhile Radix.thirtySix.isDigit ++ cs.dropWhile Radix.thirtySix.isDigit = cs :=
    List.takeWhile_append_dropWhile
  have hdigits : ∀ c ∈ cs.takeWhile Radix.thirtySix.isDigit, Radix.thirtySix.isDigit c = true :=
    fun c hc => by simpa using List.all_eq_true.1 List.all_takeWhile c hc
  have hstops := Radix.stops_dropWhile .thirtySix cs
  have hshort := Nat.not_le.1 hrun
  generalize cs.takeWhile Radix.thirtySix.isDigit = id,
    cs.dropWhile Radix.thirtySix.isDigit = rest at hid hno hdigits hstops hshort ⊢
  subst hid
  have hrest : rest <:+ text.toList := (List.suffix_append id rest).trans hcs
  rw [numbered, number_eq hb (by decide) hdigits hstops hcs (by rwa [Nat.zero_add]), Nat.zero_add]
  have hvalue : numberFrom 0 id = Radix.thirtySix.value id := rfl
  have hsize : numberBound = UInt64.size := rfl
  rw [hsize] at hno ⊢
  rw [hvalue]
  by_cases hlt : Radix.thirtySix.value id < UInt64.size
  · have hcounted : id.length = 0 ↔ ¬Counted id := by
      rw [List.length_eq_zero_iff]
      refine ⟨fun he hc => hc.ne_nil he, fun hc => Decidable.not_not.1 fun hne => hc ?_⟩
      exact counted_of_length_lt hne (Nat.lt_trans hshort (by decide))
    simp only [bind, Except.bind, if_pos hlt, hcounted, Nat.min_eq_right (Nat.le_of_lt hlt),
      Nat.not_le.2 hlt, or_false] at hno ⊢
    split
    next => rfl
    next hne =>
      rw [expect_eq hb (by decide) hrest]
      simp only [if_neg hne] at hno
      cases hexp : KernelSymbol.expect '_' rest with
      | error e => rfl
      | ok tail =>
        -- the only number whose place is no word is the one that was excluded
        have hlast : Radix.thirtySix.value id + 1 < UInt64.size := by
          refine Nat.lt_of_le_of_ne hlt fun he => hno tail ?_
          rw [hexp]
          exact congrArg (fun n => Except.ok (n, tail)) he
        simp only [word, word?, if_pos hlast]
        rfl
  · have hlarge : UInt64.size ≤ min UInt64.size (Radix.thirtySix.value id) :=
      Nat.le_min.2 ⟨Nat.le_refl _, Nat.not_lt.1 hlt⟩
    simp only [bind, Except.bind, if_neg hlt, hlarge, or_true, ↓reduceIte]
    rfl

/-- A reference is read as it is without a cursor, unless its number is the last machine word or has
too many digits to count. -/
theorem reference_eq (h : 'S' :: cs <:+ text.toList) (hrun : ¬LongRun cs)
    (hno : ∀ rest, readReference ('S' :: cs) cs ≠ .ok (numberBound, rest)) :
    Cursor.reference text (offset text ('S' :: cs)) =
      located text (readReference ('S' :: cs) cs) := by
  have hcs : cs <:+ text.toList := (List.suffix_cons ..).trans h
  rw [Cursor.reference, expect_eq hb (by decide) h, KernelSymbol.expect, if_pos rfl]
  simp only [bind, Except.bind, eat_eq hb (by decide : '_'.toNat < 128) hcs]
  cases hlone : after? ['_'] cs with
  | some rest =>
    rw [readReference, hlone]
    rfl
  | none => exact numbered_eq hb h hlone hrun hno

/-- A reference with too many digits to count ends in a trap, unless its number is too large. -/
theorem reference_eq_trap {digits : List Char} (h : 'S' :: (digits ++ rest) <:+ text.toList)
    (hd : ∀ c ∈ digits, Radix.thirtySix.isDigit c = true) (hlen : digits.length = countBound) :
    Cursor.reference text (offset text ('S' :: (digits ++ rest))) =
      if Radix.thirtySix.value digits < UInt64.size then .error (.trap .overflow)
      else .error (.fault (.invalidReference (offset text ('S' :: (digits ++ rest))))) := by
  have hcs : digits ++ rest <:+ text.toList := (List.suffix_cons ..).trans h
  have hne : digits ≠ [] := by
    rintro rfl
    cases hlen
  have hlone : after? ['_'] (digits ++ rest) = none := by
    obtain ⟨c, tail, rfl⟩ := List.exists_cons_of_ne_nil hne
    refine after?_eq_none fun hm => ?_
    obtain rfl : c = '_' := by simpa using hm
    exact absurd (hd _ List.mem_cons_self) (by decide)
  have hvalue : numberFrom 0 digits = Radix.thirtySix.value digits := rfl
  rw [Cursor.reference, expect_eq hb (by decide) h, KernelSymbol.expect, if_pos rfl]
  simp only [bind, Except.bind, eat_eq hb (by decide : '_'.toNat < 128) hcs, hlone]
  rw [numbered, number_eq_trap hb hne hd hcs (by rw [Nat.zero_add, hlen]), hvalue]
  by_cases hlt : Radix.thirtySix.value digits < UInt64.size
  · rw [if_pos hlt, if_pos hlt]
    rfl
  · rw [if_neg hlt, if_neg hlt]
    rfl

/-! ### Vectors and attributes -/

theorem vectorLength_eq (h : 'D' :: 'v' :: cs <:+ text.toList) :
    Cursor.vectorLength text (offset text ('D' :: 'v' :: cs)) =
      located text (readVectorLength cs) := by
  have hcs : cs <:+ text.toList := (List.suffix_append ['D', 'v'] cs).trans h
  have hm : move text (offset text (['D', 'v'] ++ cs)) 2 = .ok (offset text cs) := move_eq hb h
  rw [List.cons_append, List.singleton_append] at hm
  rw [Cursor.vectorLength, hm, readVectorLength]
  simp only [bind, Except.bind, length_eq hb hcs]
  rcases hn : readLength cs with e | ⟨n, rest⟩
  · rfl
  · have hrest : rest <:+ text.toList := (readLength_suffix hn).trans hcs
    simp only [located]
    split
    next =>
      rw [expect_eq hb (by decide) hrest]
      cases KernelSymbol.expect '_' rest <;> rfl
    next => rfl

theorem space_eq (h : cs <:+ text.toList) :
    Cursor.space text (offset text cs) = located text (readSpace cs) := by
  have hfront : "U3AS".toList = ['U', '3', 'A', 'S'] := by decide
  rw [Cursor.space, readSpace, eatText_eq hb "U3AS" h, hfront]
  cases hU : after? ['U', '3', 'A', 'S'] cs with
  | none => rfl
  | some behind =>
    have hbehind : behind <:+ text.toList := (after?_suffix hU).trans h
    simp only [bind, Except.bind]
    cases behind with
    | nil =>
      rw [offset_nil, peek_end]
      rfl
    | cons c tail =>
      obtain ⟨d, hd, hs⟩ := exists_peek hbehind
      have htest : d.isDigit = c.isDigit := hs.test fun a => ascii_of_isDigit .ten
      rw [hd, Option.filter_some, htest]
      by_cases hc : c.isDigit = true
      · have hlt := ascii_of_isDigit .ten hc
        obtain rfl := hs.eq hlt
        have hvalue : Radix.digitValue d = d.toNat - '0'.toNat := if_pos hc
        have hle : ¬d.toNat < '0'.toNat := Nat.not_lt.2 (Radix.bounds_of_isDigit hc).1
        simp only [if_pos hc, move_one hb hlt hbehind, if_neg hle, hvalue]
        cases AddressSpace.ofNumber (d.toNat - '0'.toNat) <;> rfl
      · simp only [if_neg hc]
        rfl

theorem eat_letter_eq (q : Qualifier) (h : cs <:+ text.toList) :
    eat text q.letter (offset text cs) =
      .ok ((readQualifier q cs).1, offset text (readQualifier q cs).2) := by
  have hq : q.letter.toNat < 128 := by cases q <;> decide
  rw [eat_eq hb hq h, readQualifier]
  cases after? [q.letter] cs <;> rfl

theorem attrs_eq (h : cs <:+ text.toList) :
    Cursor.attrs text (offset text cs) = located text (readAttrs cs) := by
  rw [Cursor.attrs, readAttrs, space_eq hb h]
  rcases hs : readSpace cs with e | ⟨space, cs₁⟩
  · rfl
  · have h₁ : cs₁ <:+ text.toList := (readSpace_suffix hs).trans h
    have h₂ := (readQualifier_suffix .restrict cs₁).trans h₁
    have h₃ := (readQualifier_suffix .volatile _).trans h₂
    simp only [located, bind, Except.bind, eat_letter_eq hb _ h₁, eat_letter_eq hb _ h₂,
      eat_letter_eq hb _ h₃]
    rfl

/-! ### Parameters -/

omit hb in
/-- The fault at a place where no type starts. -/
theorem unknownCode_eq (h : cs <:+ text.toList) :
    unknownCode text (offset text cs) = .fault (match cs.head? with
      | some c => .unknownCode c (offset text cs)
      | none => .unexpectedEnd (offset text cs)) := by
  rw [unknownCode, rest_eq h, String.toList_ofList]
  cases cs <;> rfl

omit hb in
theorem eq_of_extended {b : Builtin} (h : b.spelling = .extended c) : c = 'h' := by
  cases b <;> cases h
  rfl

/-- A builtin that is spelled as a letter behind `D`. -/
theorem extended_eq (h : cs <:+ text.toList) :
    (do
      let (half, behind) ← eat text 'h' (offset text cs)
      if half then .ok (Stem.builtin .half, behind)
      else .error (unknownCode text (offset text cs)) : Except Stop (Stem × Nat)) =
        located text (readExtended cs) := by
  rw [eat_eq hb (by decide) h, unknownCode_eq h]
  cases cs with
  | nil => rfl
  | cons c tail =>
    rw [after?, readExtended, readBuiltin]
    by_cases hc : c = 'h'
    · subst hc
      have hhalf : Builtin.ofSpelling? (.extended 'h') = some .half :=
        Builtin.ofSpelling?_eq_some_iff.2 rfl
      rw [hhalf]
      rfl
    · rw [if_neg hc, Builtin.ofSpelling?_eq_none_iff.2 fun b hs => hc (eq_of_extended hs)]
      rfl

omit hb in
theorem ascii_of_letter {b : Builtin} (h : b.spelling = .letter c) : c.toNat < 128 := by
  cases b <;> simp only [Builtin.spelling, Spelling.letter.injEq, reduceCtorEq] at h <;>
    (subst h; decide)

/-- A builtin that is spelled as one letter. -/
theorem letter_eq {d : Char} (hs : SameAscii d c) (h : c :: cs <:+ text.toList) :
    (match Builtin.ofSpelling? (.letter d) with
      | some b => do
        let next ← move text (offset text (c :: cs)) 1
        .ok (Stem.builtin b, next)
      | none => .error (unknownCode text (offset text (c :: cs))) : Except Stop (Stem × Nat)) =
    located text (readBuiltin (.letter c) c (c :: cs) cs) := by
  rw [readBuiltin, unknownCode_eq h]
  by_cases hc : c.toNat < 128
  · obtain rfl := hs.eq hc
    rw [move_one hb hc h]
    cases Builtin.ofSpelling? (.letter d) <;> rfl
  · -- no builtin is spelled with such a character
    have hd : ¬d.toNat < 128 := fun hd => hc (by rw [(hs d hd).1 rfl]; exact hd)
    rw [Builtin.ofSpelling?_eq_none_iff.2 fun b hb => hc (ascii_of_letter hb),
      Builtin.ofSpelling?_eq_none_iff.2 fun b hb => hd (ascii_of_letter hb)]
    rfl

/-- A stem is read as it is without a cursor, unless it is a reference to a place behind the last
machine word, or one with too many digits to count. -/
theorem stem_eq (h : cs <:+ text.toList) (hrun : ∀ tail, cs = 'S' :: tail → ¬LongRun tail)
    (hno : ∀ place rest, readStem cs ≠ .ok (.reference numberBound place, rest)) :
    Cursor.stem text (offset text cs) = located text (readStem cs) := by
  cases cs with
  | nil =>
    rw [Cursor.stem, offset_nil, peek_end]
    rfl
  | cons c cs =>
    have hcs : cs <:+ text.toList := (List.suffix_cons ..).trans h
    obtain ⟨d, hd, hs⟩ := exists_peek h
    have htest : d.isDigit = c.isDigit := hs.test fun a => ascii_of_isDigit .ten
    rw [readStem] at hno ⊢
    simp only [Cursor.stem, hd, hs 'S' (by decide), hs 'D' (by decide), htest, rest_eq h,
      String.toList_ofList]
    by_cases hS : c = 'S'
    · subst hS
      simp only [↓reduceIte, readTypeReference] at hno ⊢
      rw [reference_eq hb h (hrun cs rfl)]
      · rcases readReference ('S' :: cs) cs with e | ⟨i, rest⟩ <;> rfl
      · intro rest hr
        exact hno ('S' :: cs) rest (by rw [hr])
    · simp only [if_neg hS]
      by_cases hD : c = 'D'
      · subst hD
        rw [if_pos rfl, if_pos rfl, move_one hb (by decide) h]
        exact extended_eq hb hcs
      · simp only [if_neg hD]
        by_cases hc : c.isDigit = true
        · simp only [if_pos hc, name_eq hb h, readNamed]
          rcases readName (c :: cs) with e | ⟨name, rest⟩
          · rfl
          · simp only [located, bind, Except.bind]
            cases Builtin.ofSpelling? (.source name) <;> rfl
        · rw [if_neg hc, if_neg hc]
          exact letter_eq hb hs h

/-- One turn of reading a parameter, at a vector. -/
theorem lexeme_vector (openings : List Opening) (h : 'D' :: 'v' :: cs <:+ text.toList) :
    Cursor.lexeme text openings (offset text ('D' :: 'v' :: cs)) =
      match readVectorLength cs with
      | .error e => .error (.fault (e.map (offset text)))
      | .ok (n, rest) =>
        Cursor.lexeme text (.vector n ('D' :: 'v' :: cs) :: openings) (offset text rest) := by
  rw [Cursor.lexeme.eq_def, rest_eq h, String.toList_ofList, isPrefixOf_eq, vectorLength_eq hb h]
  rcases hn : readVectorLength cs with e | ⟨n, rest⟩
  · rfl
  · have hs := readVectorLength_suffix hn
    have hlt : offset text ('D' :: 'v' :: cs) < offset text rest := by
      refine offset_lt h (hs.trans (List.suffix_append ['D', 'v'] cs)) ?_
      exact Nat.lt_succ_of_lt (Nat.lt_succ_of_le hs.length_le)
    have hin := And.intro hlt (offset_le (hs.trans ((List.suffix_append ['D', 'v'] cs).trans h)))
    exact if_pos hin

/-- One turn of reading a parameter, at a `P`. -/
theorem lexeme_eq_of_pointer (openings : List Opening) (h : 'P' :: cs <:+ text.toList) :
    Cursor.lexeme text openings (offset text ('P' :: cs)) =
      if peek text (offset text cs) = some 'S' then do
        let (i, next) ← reference text (offset text cs)
        .ok (⟨openings, .pointerTo i cs⟩, next)
      else
        match attrs text (offset text cs) with
        | .error e => .error e
        | .ok ((attrs, spelled), next) =>
          if offset text ('P' :: cs) < next ∧ next ≤ text.utf8ByteSize then
            lexeme text (.pointer attrs spelled :: openings) next
          else .error (.trap .stuck) := by
  have hcs : cs <:+ text.toList := (List.suffix_cons ..).trans h
  have hpeek : peek text (offset text ('P' :: cs)) = some 'P' :=
    (peek_eq_some_iff (by decide) h).2 rfl
  have hv : after? ['D', 'v'] ('P' :: cs) = none := rfl
  have hturn := Cursor.lexeme.eq_def text openings (offset text ('P' :: cs))
  rw [rest_eq h, String.toList_ofList, isPrefixOf_eq, hv, hpeek, move_one hb (by decide) h] at hturn
  simp only [Option.isSome_none, Bool.false_eq_true, ↓reduceIte, rest_eq hcs,
    String.toList_ofList] at hturn
  exact hturn

/-- One turn of reading a parameter, at a pointer to what is referred to. -/
theorem lexeme_pointerTo (openings : List Opening) (h : 'P' :: 'S' :: cs <:+ text.toList)
    (hrun : ¬LongRun cs) (hno : ∀ rest, readReference ('S' :: cs) cs ≠ .ok (numberBound, rest)) :
    Cursor.lexeme text openings (offset text ('P' :: 'S' :: cs)) =
      match readReference ('S' :: cs) cs with
      | .error e => .error (.fault (e.map (offset text)))
      | .ok (i, rest) => .ok (⟨openings, .pointerTo i ('S' :: cs)⟩, offset text rest) := by
  have hcs : 'S' :: cs <:+ text.toList := (List.suffix_cons ..).trans h
  have hpeek : peek text (offset text ('S' :: cs)) = some 'S' :=
    (peek_eq_some_iff (by decide) hcs).2 rfl
  rw [lexeme_eq_of_pointer hb openings h, if_pos hpeek, reference_eq hb hcs hrun hno]
  rcases readReference ('S' :: cs) cs with e | ⟨i, rest⟩ <;> rfl

/-- One turn of reading a parameter, at another pointer. -/
theorem lexeme_pointer (openings : List Opening) (h : 'P' :: cs <:+ text.toList)
    (hS : after? ['S'] cs = none) :
    Cursor.lexeme text openings (offset text ('P' :: cs)) =
      match readAttrs cs with
      | .error e => .error (.fault (e.map (offset text)))
      | .ok ((attrs, spelled), rest) =>
        Cursor.lexeme text (.pointer attrs spelled :: openings) (offset text rest) := by
  have hcs : cs <:+ text.toList := (List.suffix_cons ..).trans h
  have hpeek : peek text (offset text cs) ≠ some 'S' := by
    rw [Ne, peek_eq_some_iff (by decide) hcs, head?_eq_some_iff, hS]
    exact nofun
  rw [lexeme_eq_of_pointer hb openings h, if_neg hpeek, attrs_eq hb hcs]
  rcases ha : readAttrs cs with e | ⟨⟨attrs, spelled⟩, rest⟩
  · rfl
  · have hs := readAttrs_suffix ha
    have hlt : offset text ('P' :: cs) < offset text rest :=
      offset_lt h (hs.trans (List.suffix_cons ..)) (Nat.lt_succ_of_le hs.length_le)
    have hin := And.intro hlt (offset_le (hs.trans hcs))
    exact if_pos hin

/-- The last turn of reading a parameter, at its stem. -/
theorem lexeme_stem (openings : List Opening) (h : cs <:+ text.toList)
    (hv : after? ['D', 'v'] cs = none) (hp : after? ['P'] cs = none)
    (hrun : ∀ tail, cs = 'S' :: tail → ¬LongRun tail)
    (hno : ∀ place rest, readStem cs ≠ .ok (.reference numberBound place, rest)) :
    Cursor.lexeme text openings (offset text cs) =
      match readStem cs with
      | .error e => .error (.fault (e.map (offset text)))
      | .ok (stem, rest) => .ok (⟨openings, stem⟩, offset text rest) := by
  have hpeek : peek text (offset text cs) ≠ some 'P' := by
    rw [Ne, peek_eq_some_iff (by decide) h, head?_eq_some_iff, hp]
    exact nofun
  rw [Cursor.lexeme.eq_def, rest_eq h, String.toList_ofList, isPrefixOf_eq, hv, if_neg hpeek,
    stem_eq hb h hrun hno]
  rcases readStem cs with e | ⟨stem, rest⟩ <;> rfl

omit hb in
theorem not_longRun (hrun : ¬Overcounts cs) : ∀ tail, cs = 'S' :: tail → ¬LongRun tail := by
  rintro tail rfl hl
  exact hrun (.reference hl)

/-- A parameter is read as it is without a cursor, unless it refers to a place behind the last
machine word or comes to a reference with too many digits to count. The induction follows the
reader. -/
theorem lexeme_eq (openings : List Opening) (h : cs <:+ text.toList) (hrun : ¬Overcounts cs)
    (hno : ∀ lexeme rest, readLexeme openings cs = .ok (lexeme, rest) →
      lexeme.stem.index? ≠ some numberBound) :
    Cursor.lexeme text openings (offset text cs) = located text (readLexeme openings cs) := by
  fun_induction readLexeme openings cs with
  | case1 openings cs tail hv e hn =>
    obtain rfl : cs = 'D' :: 'v' :: tail := after?_eq_some_iff.1 hv
    rw [lexeme_vector hb openings h, hn]
    rfl
  | case2 openings cs tail hv n tail' hn ih =>
    obtain rfl : cs = 'D' :: 'v' :: tail := after?_eq_some_iff.1 hv
    rw [lexeme_vector hb openings h, hn]
    exact ih ((readVectorLength_suffix hn).trans ((after?_suffix hv).trans h))
      (fun hr => hrun (.vector hn hr)) hno
  | case3 openings cs hv tail hp tail' hS e hr =>
    obtain rfl : tail = 'S' :: tail' := after?_eq_some_iff.1 hS
    obtain rfl : cs = 'P' :: 'S' :: tail' := after?_eq_some_iff.1 hp
    rw [lexeme_pointerTo hb openings h (fun hl => hrun (.pointerTo hl)) (by simp [hr]), hr]
    rfl
  | case4 openings cs hv tail hp tail' hS i tail'' hr =>
    obtain rfl : tail = 'S' :: tail' := after?_eq_some_iff.1 hS
    obtain rfl : cs = 'P' :: 'S' :: tail' := after?_eq_some_iff.1 hp
    have hi : ∀ rest, readReference ('S' :: tail') tail' ≠ .ok (numberBound, rest) := by
      intro rest he
      rw [hr] at he
      cases he
      exact hno _ _ rfl rfl
    rw [lexeme_pointerTo hb openings h (fun hl => hrun (.pointerTo hl)) hi, hr]
    rfl
  | case5 openings cs hv tail hp hS e ha =>
    obtain rfl : cs = 'P' :: tail := after?_eq_some_iff.1 hp
    rw [lexeme_pointer hb openings h hS, ha]
    rfl
  | case6 openings cs hv tail hp hS attrs spelled tail' ha ih =>
    obtain rfl : cs = 'P' :: tail := after?_eq_some_iff.1 hp
    rw [lexeme_pointer hb openings h hS, ha]
    exact ih ((readAttrs_suffix ha).trans ((after?_suffix hp).trans h))
      (fun hr => hrun (.pointer hS ha hr)) hno
  | case7 openings cs hv hp e hs =>
    rw [lexeme_stem hb openings h hv hp (not_longRun hrun) (by simp [hs]), hs]
    rfl
  | case8 openings cs hv hp stem tail hs =>
    have hi : ∀ place rest, readStem cs ≠ .ok (.reference numberBound place, rest) := by
      intro place rest he
      rw [hs] at he
      cases he
      exact hno _ _ rfl rfl
    rw [lexeme_stem hb openings h hv hp (not_longRun hrun) hi, hs]
    rfl

/-! ### Whole symbols -/

/-- What is built is what is built without a cursor. -/
theorem param_eq (d : Decoder) (h : cs <:+ text.toList) (hrun : ¬Overcounts cs)
    (hno : ¬Refers numberBound cs) :
    Cursor.param text d (offset text cs) = (located text (d.param cs).1, (d.param cs).2) := by
  have hi : ∀ lexeme rest, readLexeme [] cs = .ok (lexeme, rest) →
      lexeme.stem.index? ≠ some numberBound := fun lexeme rest hl he => hno ⟨_, _, hl, he⟩
  rw [Cursor.param, Decoder.param, lexeme_eq hb [] h hrun hi]
  rcases readLexeme [] cs with e | ⟨lexeme, rest⟩
  · rfl
  · simp only [located]
    rcases d.build lexeme with ⟨e | g, d'⟩ <;> rfl

/-- Parameters are read and built as they are without a cursor. The induction follows the decoder,
and each parameter moves the cursor on. -/
theorem params_eq (d : Decoder) (done : List Handle) (h : cs <:+ text.toList)
    (hrun : ¬Meets Overcounts cs) (hno : ¬Meets (Refers numberBound) cs) :
    Cursor.params text d done (offset text cs) =
      ((d.readParams done cs).1.mapError fun e => .fault (e.map (offset text)),
        (d.readParams done cs).2) := by
  fun_induction Decoder.readParams d done cs with
  | case1 d done cs he =>
    rw [Cursor.params.eq_def, atEnd_offset h, if_pos he]
    rfl
  | case2 d done cs he e d' hp =>
    rw [Cursor.params.eq_def, atEnd_offset h, if_neg he,
      param_eq hb d h (fun ho => hrun (.here ho)) (fun hr => hno (.here hr)), hp]
    rfl
  | case3 d done cs he g rest d' hp ih =>
    have hs := Decoder.param_suffix hp
    have hin := And.intro (offset_lt h hs (Decoder.param_length hp)) (offset_le (hs.trans h))
    have behind : ∀ {P : List Char → Prop}, ¬Meets P cs → ¬Meets P rest := by
      intro P hno hr
      rw [Decoder.param] at hp
      split at hp
      next => cases hp
      next hl =>
        split at hp <;> cases hp
        exact hno (.behind hl hr)
    rw [Cursor.params.eq_def, atEnd_offset h, if_neg he,
      param_eq hb d h (fun ho => hrun (.here ho)) (fun hr => hno (.here hr)), hp]
    simp only [located, if_pos hin]
    exact ih (hs.trans h) (behind hrun) (behind hno)

theorem head_eq : Cursor.head text = located text (readHead text.toList) := by
  have hstart : offset text text.toList = 0 := by rw [offset, byteCount_toList, Nat.sub_self]
  have hfront : "_Z".toList = ['_', 'Z'] := by decide
  have heat := eatText_eq hb "_Z" (List.suffix_refl text.toList)
  rw [hstart, hfront] at heat
  rw [Cursor.head, heat, readHead]
  cases hZ : after? ['_', 'Z'] text.toList with
  | none => rfl
  | some rest =>
    simp only [bind, Except.bind, ↓reduceIte, name_eq hb (after?_suffix hZ)]
    rcases readName rest with e | ⟨name, tail⟩
    · rfl
    · simp only [located]
      split <;> rfl

/-- A symbol is decoded as it is without a cursor, unless one of its parameters refers to the place
behind the last machine word or has a reference with too many digits to count. -/
theorem decode_eq (pool : Pool)
    (hrun : ∀ name rest, readHead text.toList = .ok (name, rest) → ¬Meets Overcounts rest)
    (hno : ∀ name rest, readHead text.toList = .ok (name, rest) →
      ¬Meets (Refers numberBound) rest) :
    Cursor.decode text pool =
      ((KernelSymbol.decode text pool).1.mapError .fault, (KernelSymbol.decode text pool).2) := by
  rw [Cursor.decode, head_eq hb, KernelSymbol.decode, decodeText]
  rcases hh : readHead text.toList with e | ⟨name, cs⟩
  · rfl
  · have hcs := readHead_suffix hh
    have hv : "v" = String.ofList ['v'] := rfl
    have hlone : String.ofList cs = "v" ↔ cs = ['v'] := by rw [hv, String.ofList_inj]
    simp only [located, rest_eq hcs, hlone, atEnd_offset hcs, decodeParams]
    split
    · rfl
    · split
      next he =>
        obtain rfl := List.isEmpty_iff.1 he
        rfl
      next =>
        rw [params_eq hb _ _ hcs (hrun name cs hh) (hno name cs hh)]
        rcases (Decoder.start pool).readParams [] cs with ⟨e | hs, d⟩ <;> rfl

/-- A symbol whose first parameter is a reference with too many digits to count ends in a trap. -/
theorem decode_eq_trap {name : String} {digits : List Char}
    (hhead : readHead text.toList = .ok (name, 'S' :: (digits ++ rest)))
    (hd : ∀ c ∈ digits, Radix.thirtySix.isDigit c = true) (hlen : digits.length = countBound)
    (hv : Radix.thirtySix.value digits < UInt64.size) (pool : Pool) :
    Cursor.decode text pool = (.error (.trap .overflow), pool) := by
  have hcs := readHead_suffix hhead
  have hpeek := (peek_eq_some_iff (a := 'S') (by decide) hcs).2 rfl
  have hlexeme : Cursor.lexeme text [] (offset text ('S' :: (digits ++ rest))) =
      .error (.trap .overflow) := by
    rw [Cursor.lexeme.eq_def, rest_eq hcs, String.toList_ofList, hpeek, Cursor.stem, hpeek]
    simp only [if_pos, reference_eq_trap hb hcs hd hlen, if_pos hv]
    rfl
  have hparams : Cursor.params text (.start pool) [] (offset text ('S' :: (digits ++ rest))) =
      (.error (.trap .overflow), .start pool) := by
    rw [Cursor.params.eq_def, atEnd_offset hcs, Cursor.param, hlexeme]
    rfl
  have hlone : String.ofList ('S' :: (digits ++ rest)) ≠ "v" := by
    rw [show "v" = String.ofList ['v'] from rfl, Ne, String.ofList_inj]
    simp
  rw [Cursor.decode, head_eq hb, hhead]
  simp only [located, rest_eq hcs, if_neg hlone, atEnd_offset hcs, List.isEmpty_cons, hparams]
  rfl

end

/-- Decoding is safe. With a cursor and in machine words, in whatever pool, a text is decoded to
what it is decoded to without them: no number overflows, and wherever the cursor or an end of a
slice is, it is not past the end of the text nor inside a character. The offset of a fault is not,
either, and it says what is wrong: it is the end of the text if the text is too short, and
otherwise, unless a length is missing, it is the offset of the character that the fault is about.
Texts are shorter than half the range of machine words. The number of a reference must not be the
last machine word, as the place that it stands for is one more, and it must not have `2 ^ 31` digits
or more, zeros in front of it included, as they are counted in a signed word of thirty-two bits. -/
theorem decode_safe (text : String) (pool : Pool) (hsize : text.utf8ByteSize < textBound)
    (hrun : ∀ name rest, readHead text.toList = .ok (name, rest) → ¬Meets Overcounts rest)
    (hno : ∀ name rest, readHead text.toList = .ok (name, rest) →
      ¬Meets (Refers numberBound) rest) :
    (∀ t, (Cursor.decode text pool).1 ≠ .error (.trap t)) ∧
    Cursor.decode text pool =
      ((KernelSymbol.decode text pool).1.mapError .fault, (KernelSymbol.decode text pool).2) ∧
    ∀ (e : DecodeError Nat) (q : Pool), KernelSymbol.decode text pool = (.error e, q) →
      e.Fits (SplitsAt text) ∧
      ∀ o, e.place? = some o →
        (⟨o⟩ : String.Pos.Raw).IsValid text ∧ o ≤ text.utf8ByteSize ∧
          (e = .unexpectedEnd o → o = text.utf8ByteSize) ∧
          (o = text.utf8ByteSize → e = .unexpectedEnd o ∨ e = .expectedLength o) := by
  have heq := decode_eq hsize pool hrun hno
  refine ⟨fun t ht => ?_, heq, fun e q h => ⟨fits_of_decode h, fun o ho => place_of_decode h ho⟩⟩
  rw [heq] at ht
  cases hr : (KernelSymbol.decode text pool).1 <;> simp [hr, Except.mapError] at ht

theorem readLexeme_nil (openings : List Opening) :
    readLexeme openings [] = .error (.unexpectedEnd []) := by
  rw [readLexeme.eq_def]
  rfl

/-- A text with one parameter only. -/
theorem not_meets_of_last {P : List Char → Prop} {cs : List Char} {lexeme : Lexeme}
    (h : readLexeme [] cs = .ok (lexeme, [])) (hcs : ¬P cs) (hnil : ¬P []) : ¬Meets P cs := by
  rintro (hP | ⟨h', hP | ⟨h'', -⟩⟩)
  · exact hcs hP
  · rw [h] at h'
    cases h'
    exact hnil hP
  · rw [h] at h'
    cases h'
    rw [readLexeme_nil] at h''
    cases h''

theorem not_refers_of_eq {index : Nat} {cs rest : List Char} {lexeme : Lexeme}
    (h : readLexeme [] cs = .ok (lexeme, rest)) (hi : lexeme.stem.index? ≠ some index) :
    ¬Refers index cs := by
  rintro ⟨lexeme', rest', h', hi'⟩
  rw [h] at h'
  cases h'
  exact hi hi'

theorem not_refers_nil (index : Nat) : ¬Refers index [] := by
  rintro ⟨lexeme, rest, h, -⟩
  rw [readLexeme_nil] at h
  cases h

/-- A pointer to a component that is not there is a fault at the `S` of the reference. -/
theorem decode_safe_danglingPointer :
    Cursor.decode "_Z1fPS_" (.empty 0) = (.error (.fault (.invalidReference 5)), .empty 0) ∧
      ∃ before after, SplitsAt "_Z1fPS_" 5 before ('S' :: after) := by
  have hhead : readHead "_Z1fPS_".toList = .ok ("f", ['P', 'S', '_']) := by rfl
  have hlexeme : readLexeme [] ['P', 'S', '_'] = .ok (⟨[], .pointerTo 0 ['S', '_']⟩, []) := by
    rw [readLexeme.eq_def]
    rfl
  have hrun : ∀ name rest, readHead "_Z1fPS_".toList = .ok (name, rest) →
      ¬Meets Overcounts rest := by
    intro name rest hh
    rw [hhead] at hh
    cases hh
    refine not_meets_of_last hlexeme ?_ nofun
    rintro (_ | hl | _ | ⟨hS, -, -⟩)
    · exact absurd hl (by decide)
    · cases hS
  have hno : ∀ name rest, readHead "_Z1fPS_".toList = .ok (name, rest) →
      ¬Meets (Refers numberBound) rest := by
    intro name rest hh
    rw [hhead] at hh
    cases hh
    exact not_meets_of_last hlexeme (not_refers_of_eq hlexeme (by decide)) (not_refers_nil _)
  have hdecode : KernelSymbol.decode "_Z1fPS_" (.empty 0) =
      (.error (.invalidReference 5), .empty 0) := by
    have hparam : (Decoder.start (.empty 0)).param ['P', 'S', '_'] =
        (.error (.invalidReference ['S', '_']), .start (.empty 0)) := by
      rw [Decoder.param, hlexeme]
      rfl
    have hparams : decodeParams ['P', 'S', '_'] (.empty 0) =
        (.error (.invalidReference ['S', '_']), .empty 0) := by
      rw [decodeParams, Decoder.readParams.eq_def, hparam]
      rfl
    simp only [KernelSymbol.decode, decodeText, hhead, hparams]
    rfl
  obtain ⟨-, hcursor, hfits⟩ := decode_safe "_Z1fPS_" (.empty 0) (by decide) hrun hno
  obtain ⟨before, after, hs⟩ := (hfits _ _ hdecode).1
  refine ⟨?_, before, after, hs⟩
  rw [hcursor, hdecode]
  rfl

/-- A text that is a reference whose number is zero refers to the second place. -/
theorem not_meets_refers_zero {digits : List Char}
    (hd : ∀ c ∈ digits, Radix.thirtySix.isDigit c = true) (hc : Counted digits)
    (hv : Radix.thirtySix.value digits = 0) :
    ¬Meets (Refers numberBound) ('S' :: (digits ++ ['_'])) := by
  have hr : readReference ('S' :: (digits ++ ['_'])) (digits ++ ['_']) = .ok (1, []) :=
    readReference_eq_ok_iff.2
      ⟨_, (List.append_nil _).symm, .later ⟨by decide, hc.ne_nil, hd, hv⟩ hc⟩
  have hlexeme := readLexeme.eq_def [] ('S' :: (digits ++ ['_']))
  simp only [after?, readStem, readTypeReference, hr] at hlexeme
  have hplace : some 1 ≠ some numberBound := by decide
  exact not_meets_of_last hlexeme (not_refers_of_eq hlexeme hplace) (not_refers_nil _)

/-- A symbol whose only parameter is a reference with some zeros for a number. -/
def paddedText (zeros : Nat) : String :=
  String.ofList (['_', 'Z', '1', 'f', 'S'] ++ (List.replicate zeros '0' ++ ['_']))

theorem readHead_paddedText (zeros : Nat) : readHead (paddedText zeros).toList =
    .ok ("f", 'S' :: (List.replicate zeros '0' ++ ['_'])) := by
  rw [paddedText, String.toList_ofList]
  generalize List.replicate zeros '0' ++ ['_'] = cs
  rfl

/-- If the zeros are too many to count, the count overflows, although the number is zero. -/
theorem decode_unsafe_paddedText : (paddedText countBound).utf8ByteSize < textBound ∧
    (∀ name rest, readHead (paddedText countBound).toList = .ok (name, rest) →
      ¬Meets (Refers numberBound) rest) ∧
    Cursor.decode (paddedText countBound) (.empty 0) =
      (.error (.trap .overflow), .empty 0) := by
  have hsize : (paddedText countBound).utf8ByteSize < textBound := by
    rw [paddedText, utf8ByteSize_ofList, byteCount_append, byteCount_append, byteCount_replicate]
    decide +kernel
  have hhead := readHead_paddedText countBound
  have hd : ∀ c ∈ List.replicate countBound '0', Radix.thirtySix.isDigit c = true := fun _ =>
    Radix.isDigit_of_mem_replicate_zero
  have hlen : (List.replicate countBound '0').length = countBound := List.length_replicate
  have hv := Radix.thirtySix.value_replicate_zero countBound
  -- from here on, nothing looks at the zeros themselves
  generalize List.replicate countBound '0' = digits at hhead hd hlen hv
  refine ⟨hsize, fun name rest hh => ?_, decode_eq_trap hsize hhead hd hlen (by rw [hv]; decide) _⟩
  rw [hhead, Except.ok.injEq, Prod.mk.injEq] at hh
  obtain ⟨-, rfl⟩ := hh
  refine not_meets_refers_zero hd ?_ hv
  rw [Counted, hlen]
  decide

end Cursor

end KernelSymbol
