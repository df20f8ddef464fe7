import KernelSymbol.Symbol.Code
import KernelSymbol.Symbol.DecodeError

/-!
# Reading the small parts of a symbol

Readers take the text that is left and return what they read together with what is left then. A
fault carries the text that is left at its place. What is left is always a suffix of what was
given, so no reader runs past the end or stops inside a character.

## Main definitions

* `byteCount`, `splitBytes?` — the size of a text in bytes, and a cut after so many bytes
* `after?`, `expect` — what follows a given text, or a given character
* `readLength`, `readName` — a length, and a name behind its length
* `Counted` — digits of a reference whose count is not zero
* `readReference` — the rest of a reference, as a place in the table
* `readAttrs` — what a pointer says after its `P`

## Main results

* `after?_eq_some_iff`, `splitBytes?_eq_some_iff` — what is read and what is left make up the text
* `readLength_suffix`, `readName_suffix`, `readReference_suffix`, `readAttrs_suffix` — what is
  left is a suffix of the text
* `readLength_length`, `readName_length` — a length and a name use up some text
-/

namespace KernelSymbol

/-- A fault whose place is the text that is left there. -/
abbrev Fault := DecodeError (List Char)

/-- What was read, and the text that is left; or a fault. -/
abbrev Read (α : Type) := Except Fault (α × List Char)

/-! ### Cutting text -/

/-- The size of a text in bytes. -/
def byteCount (cs : List Char) : Nat := cs.foldl (fun n c => n + c.utf8Size) 0

/-- What follows a given text. -/
def after? : List Char → List Char → Option (List Char)
  | [], cs => some cs
  | _ :: _, [] => none
  | e :: es, c :: cs => if c = e then after? es cs else none

/-- The text cut after so many bytes. There is no such cut past the end or inside a character. -/
def splitBytes? (n : Nat) (cs : List Char) : Option (List Char × List Char) := go n [] cs
where
  /-- The cut, where `before` holds in reverse what was passed already. -/
  go (n : Nat) (before : List Char) : List Char → Option (List Char × List Char)
    | [] => if n = 0 then some (before.reverse, []) else none
    | c :: cs =>
      if n = 0 then some (before.reverse, c :: cs)
      else if n < c.utf8Size then none
      else go (n - c.utf8Size) (c :: before) cs

@[simp] theorem byteCount_nil : byteCount [] = 0 := rfl

/-- Counting may start anywhere. -/
theorem foldl_utf8Size (n : Nat) (cs : List Char) :
    cs.foldl (fun n c => n + c.utf8Size) n = n + byteCount cs := by
  induction cs generalizing n with
  | nil => rfl
  | cons c cs ih =>
    rw [byteCount, List.foldl_cons, List.foldl_cons, ih, ih, Nat.zero_add, Nat.add_assoc]

@[simp] theorem byteCount_cons (c : Char) (cs : List Char) :
    byteCount (c :: cs) = c.utf8Size + byteCount cs := by
  rw [byteCount, List.foldl_cons, foldl_utf8Size, Nat.zero_add]

@[simp] theorem byteCount_append (cs ds : List Char) :
    byteCount (cs ++ ds) = byteCount cs + byteCount ds := by
  rw [byteCount, List.foldl_append, foldl_utf8Size]
  rfl

@[simp] theorem byteCount_replicate (n : Nat) (c : Char) :
    byteCount (List.replicate n c) = n * c.utf8Size := by
  induction n with
  | zero => simp
  | succ n ih => rw [List.replicate_succ, byteCount_cons, ih, Nat.succ_mul, Nat.add_comm]

theorem after?_eq_some_iff {es cs rest : List Char} :
    after? es cs = some rest ↔ cs = es ++ rest := by
  induction es generalizing cs with
  | nil => simp [after?, eq_comm]
  | cons e es ih =>
    cases cs with
    | nil => simp [after?]
    | cons c cs =>
      by_cases h : c = e <;> simp [after?, h, ih]

/-- A cut after `n` bytes is what makes up the text with a front of `n` bytes. -/
theorem splitBytes?_eq_some_iff {n : Nat} {cs front rest : List Char} :
    splitBytes? n cs = some (front, rest) ↔ cs = front ++ rest ∧ byteCount front = n := by
  have key : ∀ (cs : List Char) (n : Nat) (before : List Char),
      splitBytes?.go n before cs = some (front, rest) ↔
        ∃ mid, front = before.reverse ++ mid ∧ cs = mid ++ rest ∧ byteCount mid = n := by
    intro cs
    induction cs with
    | nil =>
      intro n before
      by_cases h : n = 0
      · subst h
        simp only [splitBytes?.go, ↓reduceIte, Option.some.injEq, Prod.mk.injEq]
        constructor
        · rintro ⟨rfl, rfl⟩
          exact ⟨[], by simp⟩
        · rintro ⟨mid, rfl, hm, -⟩
          obtain ⟨rfl, rfl⟩ : mid = [] ∧ rest = [] := by simpa using hm.symm
          simp
      · simp only [splitBytes?.go, if_neg h, reduceCtorEq, false_iff]
        rintro ⟨mid, -, hm, hn⟩
        obtain ⟨rfl, rfl⟩ : mid = [] ∧ rest = [] := by simpa using hm.symm
        exact h hn.symm
    | cons c cs ih =>
      intro n before
      have hc : 0 < c.utf8Size := c.utf8Size_pos
      by_cases h : n = 0
      · subst h
        simp only [splitBytes?.go, ↓reduceIte, Option.some.injEq, Prod.mk.injEq]
        constructor
        · rintro ⟨rfl, rfl⟩
          exact ⟨[], by simp⟩
        · rintro ⟨mid, rfl, hm, hn⟩
          cases mid with
          | nil => simpa using hm
          | cons d mid =>
            rw [byteCount_cons] at hn
            have := d.utf8Size_pos
            omega
      · simp only [splitBytes?.go, if_neg h]
        by_cases hl : n < c.utf8Size
        · simp only [if_pos hl, reduceCtorEq, false_iff]
          rintro ⟨mid, -, hm, hn⟩
          cases mid with
          | nil => exact h hn.symm
          | cons d mid =>
            obtain ⟨rfl, -⟩ : c = d ∧ cs = mid ++ rest := by simpa using hm
            rw [byteCount_cons] at hn
            omega
        · simp only [if_neg hl, ih]
          constructor
          · rintro ⟨mid, rfl, rfl, hn⟩
            refine ⟨c :: mid, by simp, by simp, ?_⟩
            rw [byteCount_cons]
            omega
          · rintro ⟨mid, rfl, hm, hn⟩
            cases mid with
            | nil => exact absurd hn.symm h
            | cons d mid =>
              obtain ⟨rfl, rfl⟩ : c = d ∧ cs = mid ++ rest := by simpa using hm
              rw [byteCount_cons] at hn
              exact ⟨mid, by simp, rfl, by omega⟩
  simpa [splitBytes?, and_assoc] using key cs n []

/-- What follows a character that has to be there. -/
def expect (char : Char) (cs : List Char) : Except Fault (List Char) :=
  match cs with
  | [] => .error (.unexpectedEnd [])
  | c :: rest => if c = char then .ok rest else .error (.expected char (c :: rest))

theorem expect_eq_ok_iff {char : Char} {cs rest : List Char} :
    expect char cs = .ok rest ↔ cs = char :: rest := by
  cases cs with
  | nil => simp [expect]
  | cons c cs => by_cases h : c = char <;> simp [expect, h]

/-! ### Numbers and names -/

/-- Lengths and reference numbers stay below this bound. -/
def numberBound : Nat := UInt64.size

/-- Every text has fewer bytes than this, half of what a number can say. -/
def textBound : Nat := UInt64.size / 2

/-- The digits of a reference are counted in a word of thirty-two bits. There have to be digits, and
that is asked of the count: where no overflow is checked, it comes round to zero again. -/
def Counted (digits : List Char) : Prop := digits.length % UInt32.size ≠ 0

instance (digits : List Char) : Decidable (Counted digits) :=
  inferInstanceAs (Decidable (_ ≠ _))

theorem Counted.ne_nil {digits : List Char} (h : Counted digits) : digits ≠ [] := by
  rintro rfl
  exact h rfl

/-- Few enough digits are counted as what they are. -/
theorem counted_of_length_lt {digits : List Char} (hne : digits ≠ [])
    (h : digits.length < UInt32.size) : Counted digits := by
  rw [Counted, Nat.mod_eq_of_lt h]
  exact mt List.length_eq_zero_iff.1 hne

/-- A length: as many digits as there are. A length that is too large is as bad as none. -/
def readLength (cs : List Char) : Read Nat :=
  let digits := cs.takeWhile Radix.ten.isDigit
  if digits.isEmpty then
    if cs.isEmpty then .error (.unexpectedEnd []) else .error (.expectedLength cs)
  else
    let n := Radix.ten.valueUpTo numberBound digits
    if n < numberBound then .ok (n, cs.dropWhile Radix.ten.isDigit)
    else .error (.expectedLength cs)

/-- A name behind its length. A length that ends past the text or inside a character is a fault
at the end of the text. -/
def readName (cs : List Char) : Read String :=
  match readLength cs with
  | .error e => .error e
  | .ok (n, rest) =>
    match splitBytes? n rest with
    | some (name, rest) => .ok (String.ofList name, rest)
    | none => .error (.unexpectedEnd [])

/-- The rest of a reference behind its `S`, as a place in the table. `start` is where the
reference starts. Its number, if it has one, is counted from the second place. -/
def readReference (start cs : List Char) : Read Nat :=
  match after? ['_'] cs with
  | some rest => .ok (0, rest)
  | none =>
    let id := cs.takeWhile Radix.thirtySix.isDigit
    let n := Radix.thirtySix.valueUpTo numberBound id
    if ¬Counted id ∨ numberBound ≤ n then .error (.invalidReference start)
    else
      match expect '_' (cs.dropWhile Radix.thirtySix.isDigit) with
      | .ok rest => .ok (n + 1, rest)
      | .error e => .error e

/-- The length of a vector and the `_` behind it. -/
def readVectorLength (cs : List Char) : Read UInt32 :=
  match readLength cs with
  | .error e => .error e
  | .ok (n, rest) =>
    if n < UInt32.size then
      match expect '_' rest with
      | .ok rest => .ok (UInt32.ofNat n, rest)
      | .error e => .error e
    else .error (.expectedLength cs)

/-! ### Attributes of a pointer -/

/-- The address space of a pointer, if one is spelled out. -/
def readSpace (cs : List Char) : Read (Option AddressSpace) :=
  match after? ['U', '3', 'A', 'S'] cs with
  | none => .ok (none, cs)
  | some [] => .error (.expectedLength [])
  | some (d :: rest) =>
    if d.isDigit then
      match AddressSpace.ofNumber (Radix.digitValue d) with
      | .ok s => .ok (some s, rest)
      | .error e => .error (.invalidType (d :: rest) e)
    else .error (.expectedLength (d :: rest))

/-- Whether a qualifier is spelled out, and what follows it. -/
def readQualifier (q : Qualifier) (cs : List Char) : Bool × List Char :=
  match after? [q.letter] cs with
  | some rest => (true, rest)
  | none => (false, cs)

/-- The qualifiers that are spelled out, in their order and each at most once. -/
def readQualifiers (cs : List Char) : QualifierSet × List Char :=
  let (restrict, cs) := readQualifier .restrict cs
  let (volatile, cs) := readQualifier .volatile cs
  let (const, cs) := readQualifier .const cs
  (.ofFlags restrict volatile const, cs)

/-- The attributes of a pointer, and whether any of them was spelled out. The private space may
be spelled out too. -/
def readAttrs (cs : List Char) : Read (PointerAttrs × Bool) :=
  match readSpace cs with
  | .error e => .error e
  | .ok (space, rest) =>
    let (qualifiers, rest) := readQualifiers rest
    .ok ((⟨space.getD default, qualifiers⟩, space.isSome || !qualifiers.isEmpty), rest)

/-! ### What is left is a suffix -/

theorem readLength_suffix {cs rest : List Char} {n : Nat} (h : readLength cs = .ok (n, rest)) :
    rest <:+ cs := by
  rw [readLength] at h
  dsimp only at h
  split at h
  · split at h <;> cases h
  · split at h
    · cases h
      exact List.dropWhile_suffix _
    · cases h

theorem expect_suffix {c : Char} {cs rest : List Char} (h : expect c cs = .ok rest) :
    rest <:+ cs := by
  rw [expect_eq_ok_iff.1 h]
  exact List.suffix_cons ..

theorem after?_suffix {es cs rest : List Char} (h : after? es cs = some rest) : rest <:+ cs := by
  rw [after?_eq_some_iff.1 h]
  exact List.suffix_append ..

theorem readName_suffix {cs rest : List Char} {name : String} (h : readName cs = .ok (name, rest)) :
    rest <:+ cs := by
  rw [readName] at h
  split at h
  · cases h
  next n mid hn =>
    split at h
    next front back hb =>
      cases h
      obtain ⟨rfl, -⟩ := splitBytes?_eq_some_iff.1 hb
      exact (List.suffix_append ..).trans (readLength_suffix hn)
    · cases h

theorem readLength_length {cs rest : List Char} {n : Nat} (h : readLength cs = .ok (n, rest)) :
    rest.length < cs.length := by
  rw [readLength] at h
  dsimp only at h
  split at h
  · split at h <;> cases h
  next hd =>
    split at h
    · cases h
      have hl := congrArg List.length (@List.takeWhile_append_dropWhile _ Radix.ten.isDigit cs)
      have hp := List.length_pos_iff.2 (mt List.isEmpty_iff.2 hd)
      rw [List.length_append] at hl
      omega
    · cases h

theorem readName_length {cs rest : List Char} {name : String}
    (h : readName cs = .ok (name, rest)) : rest.length < cs.length := by
  rw [readName] at h
  split at h
  · cases h
  next n mid hn =>
    split at h
    next front back hb =>
      cases h
      have hl := readLength_length hn
      rw [(splitBytes?_eq_some_iff.1 hb).1, List.length_append] at hl
      omega
    · cases h

theorem readReference_suffix {start cs rest : List Char} {i : Nat}
    (h : readReference start cs = .ok (i, rest)) : rest <:+ cs := by
  rw [readReference] at h
  split at h
  next hr =>
    cases h
    exact after?_suffix hr
  · dsimp only at h
    split at h
    · cases h
    · split at h
      next hr =>
        cases h
        exact (expect_suffix hr).trans (List.dropWhile_suffix _)
      · cases h

theorem readVectorLength_suffix {cs rest : List Char} {n : UInt32}
    (h : readVectorLength cs = .ok (n, rest)) : rest <:+ cs := by
  rw [readVectorLength] at h
  split at h
  · cases h
  next hn =>
    split at h
    · split at h
      next hr =>
        cases h
        exact (expect_suffix hr).trans (readLength_suffix hn)
      · cases h
    · cases h

theorem readSpace_suffix {cs rest : List Char} {s : Option AddressSpace}
    (h : readSpace cs = .ok (s, rest)) : rest <:+ cs := by
  rw [readSpace] at h
  split at h
  · cases h
    exact List.suffix_rfl
  · cases h
  next d back hb =>
    split at h
    · split at h
      · cases h
        exact (List.suffix_cons ..).trans (after?_suffix hb)
      · cases h
    · cases h

theorem readQualifier_suffix (q : Qualifier) (cs : List Char) : (readQualifier q cs).2 <:+ cs := by
  rw [readQualifier]
  split
  next h => exact after?_suffix h
  · exact List.suffix_rfl

theorem readQualifiers_suffix (cs : List Char) : (readQualifiers cs).2 <:+ cs :=
  (readQualifier_suffix ..).trans ((readQualifier_suffix ..).trans (readQualifier_suffix ..))

theorem readAttrs_suffix {cs rest : List Char} {r : PointerAttrs × Bool}
    (h : readAttrs cs = .ok (r, rest)) : rest <:+ cs := by
  rw [readAttrs] at h
  split at h
  · cases h
  next hs =>
    cases h
    exact (readQualifiers_suffix _).trans (readSpace_suffix hs)

end KernelSymbol
