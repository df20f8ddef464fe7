import KernelSymbol.Symbol.Cursor

/-!
# Reading a parameter by recursive descent

The decoder collects the openings of a parameter before it builds anything, so nesting costs no
call stack. This module reads a parameter the way the grammar is written: a vector reads its
head, then its element, and then builds itself; a pointer reads its attributes, then what it
points to, and then records its attributes and builds itself. It says what the decoder does
without mentioning how.

## Main definitions

* `Decoder.descend` — one parameter, by recursive descent
-/

namespace KernelSymbol

namespace Decoder

/-- What is built from a type that was read, with the text that is left as it is. -/
def inside (result : Read Handle × Decoder)
    (f : Decoder → Handle → Except Fault Handle × Decoder) : Read Handle × Decoder :=
  match result with
  | (.error e, d) => (.error e, d)
  | (.ok (h, rest), d) =>
    match f d h with
    | (.ok h, d) => (.ok (h, rest), d)
    | (.error e, d) => (.error e, d)

/-- Reads a parameter and builds its type, by recursive descent. -/
def descend (d : Decoder) (cs : List Char) : Read Handle × Decoder :=
  match _hv : after? ['D', 'v'] cs with
  | some rest =>
    match _hn : readVectorLength rest with
    | .error e => (.error e, d)
    | .ok (n, rest') => inside (descend d rest') fun d h => d.closeOne h (.vector n cs)
  | none =>
    match _hp : after? ['P'] cs with
    | some rest =>
      match after? ['S'] rest with
      | some rest' =>
        match readReference rest rest' with
        | .error e => (.error e, d)
        | .ok (i, rest'') =>
          match d.resolve (.pointerTo i rest) with
          | (.ok h, d) => (.ok (h, rest''), d)
          | (.error e, d) => (.error e, d)
      | none =>
        match _ha : readAttrs rest with
        | .error e => (.error e, d)
        | .ok ((attrs, spelled), rest') =>
          inside (descend d rest') fun d h => d.closeOne h (.pointer attrs spelled)
    | none =>
      match readStem cs with
      | .error e => (.error e, d)
      | .ok (stem, rest) =>
        match d.resolve stem with
        | (.ok h, d) => (.ok (h, rest), d)
        | (.error e, d) => (.error e, d)
termination_by cs.length
decreasing_by
  · have h₁ := (readVectorLength_suffix _hn).length_le
    rw [after?_eq_some_iff.1 _hv]
    simp only [List.cons_append, List.nil_append, List.length_cons]
    omega
  · have h₁ := (readAttrs_suffix _ha).length_le
    rw [after?_eq_some_iff.1 _hp]
    simp only [List.cons_append, List.nil_append, List.length_cons]
    omega

end Decoder

namespace Cursor

variable {text : String}

/-! ### Where the cursor is -/

theorem le_of_isBoundary {pos : Nat} (h : isBoundary text pos = true) : pos ≤ text.utf8ByteSize :=
  (String.Pos.Raw.isValid_eq_true_iff.1 h).le_utf8ByteSize

/-- The cursor is in the text, and not before `pos`. -/
structure Between (text : String) (pos next : Nat) : Prop where
  le : pos ≤ next
  boundary : isBoundary text next = true

theorem Between.trans {pos mid next : Nat} (h : Between text pos mid) (k : Between text mid next) :
    Between text pos next := ⟨Nat.le_trans h.le k.le, k.boundary⟩

/-- What succeeds after something else succeeds after that. -/
theorem exists_of_bind {α β : Type} {x : Except Stop α} {f : α → Except Stop β} {b : β}
    (h : x >>= f = .ok b) : ∃ a, x = .ok a ∧ f a = .ok b := by
  cases x with
  | error e => cases h
  | ok a => exact ⟨a, rfl, h⟩

theorem between_of_move {pos count next : Nat} (h : move text pos count = .ok next) :
    Between text pos next := by
  have hle := Nat.le_add_right pos count
  rw [← (eq_of_move h).1] at hle
  obtain ⟨_, -, hn⟩ := exists_of_bind h
  split at hn
  next hb =>
    cases hn
    exact ⟨hle, hb⟩
  next => cases hn

theorem between_of_eat {char : Char} {pos next : Nat} {found : Bool}
    (hb : isBoundary text pos = true) (h : eat text char pos = .ok (found, next)) :
    Between text pos next := by
  rw [eat] at h
  split at h
  · obtain ⟨_, hm, hn⟩ := exists_of_bind h
    cases hn
    exact between_of_move hm
  · cases h
    exact ⟨Nat.le_refl _, hb⟩

/-- A character that is found is moved over. -/
theorem lt_of_eat {char : Char} {pos next : Nat} (h : eat text char pos = .ok (true, next)) :
    pos < next ∧ isBoundary text next = true := by
  rw [eat] at h
  split at h
  · obtain ⟨_, hm, hn⟩ := exists_of_bind h
    cases hn
    exact ⟨by rw [(eq_of_move hm).1]; exact Nat.lt_succ_self _, (between_of_move hm).boundary⟩
  · cases h

theorem lt_of_expect {char : Char} {pos next : Nat} (h : expect text char pos = .ok next) :
    pos < next ∧ isBoundary text next = true := by
  obtain ⟨⟨found, mid⟩, he, hn⟩ := exists_of_bind h
  dsimp only at hn
  split at hn
  next hf =>
    cases hn
    subst hf
    exact lt_of_eat he
  next => split at hn <;> cases hn

theorem between_of_length {pos n next : Nat} (h : length text pos = .ok (n, next)) :
    Between text pos next := by
  rw [length] at h
  split at h
  · cases h
  · obtain ⟨mid, hm, h⟩ := exists_of_bind h
    obtain ⟨_, -, h⟩ := exists_of_bind h
    split at h <;> cases h
    exact between_of_move hm

/-- The head of a vector moves the cursor on. -/
theorem lt_of_vectorLength {pos next : Nat} {n : UInt32}
    (h : vectorLength text pos = .ok (n, next)) :
    pos < next ∧ isBoundary text next = true := by
  obtain ⟨start, hm, h⟩ := exists_of_bind h
  obtain ⟨⟨_, mid⟩, hl, h⟩ := exists_of_bind h
  dsimp only at h
  split at h
  · obtain ⟨last, he, h⟩ := exists_of_bind h
    cases h
    obtain ⟨hlt, hb⟩ := lt_of_expect he
    exact ⟨Nat.lt_of_le_of_lt ((between_of_move hm).trans (between_of_length hl)).le hlt, hb⟩
  · cases h

theorem between_of_space {pos next : Nat} {space : Option AddressSpace}
    (hb : isBoundary text pos = true) (h : Cursor.space text pos = .ok (space, next)) :
    Between text pos next := by
  obtain ⟨⟨found, start⟩, he, h⟩ := exists_of_bind h
  have hstart : Between text pos start := by
    rw [eatText] at he
    split at he
    · obtain ⟨_, hm, hn⟩ := exists_of_bind he
      cases hn
      exact between_of_move hm
    · cases he
      exact ⟨Nat.le_refl _, hb⟩
  dsimp only at h
  split at h
  · split at h
    · cases h
    · obtain ⟨last, hm, h⟩ := exists_of_bind h
      split at h
      · cases h
      · split at h <;> cases h
        exact hstart.trans (between_of_move hm)
  · cases h
    exact hstart

/-- Attributes leave the cursor where it is, or move it on. -/
theorem between_of_attrs {pos next : Nat} {r : PointerAttrs × Bool}
    (hb : isBoundary text pos = true) (h : attrs text pos = .ok (r, next)) :
    Between text pos next := by
  obtain ⟨⟨_, p₁⟩, h₁, h⟩ := exists_of_bind h
  obtain ⟨⟨_, p₂⟩, h₂, h⟩ := exists_of_bind h
  obtain ⟨⟨_, p₃⟩, h₃, h⟩ := exists_of_bind h
  obtain ⟨⟨_, p₄⟩, h₄, h⟩ := exists_of_bind h
  cases h
  have b₁ := between_of_space hb h₁
  have b₂ := between_of_eat b₁.boundary h₂
  have b₃ := between_of_eat b₂.boundary h₃
  exact b₁.trans (b₂.trans (b₃.trans (between_of_eat b₃.boundary h₄)))

/-- So a `P` and attributes move it on. -/
theorem lt_of_pointer {pos inner next : Nat} {r : PointerAttrs × Bool}
    (hm : move text pos 1 = .ok inner) (h : attrs text inner = .ok (r, next)) :
    pos < next ∧ isBoundary text next = true := by
  have hb := between_of_attrs (between_of_move hm).boundary h
  have hle := hb.le
  rw [(eq_of_move hm).1] at hle
  exact ⟨hle, hb.boundary⟩

/-! ### Recursive descent -/

variable (text)

/-- What was built, with the cursor where it is. The place of a fault is an offset. -/
def built (next : Nat) (r : Except Fault Handle × Decoder) : Except Stop (Handle × Nat) × Decoder :=
  match r with
  | (.ok h, d) => (.ok (h, next), d)
  | (.error e, d) => (.error (.fault (e.map fun rest => text.utf8ByteSize - byteCount rest)), d)

/-- What is built from a type that was read. -/
def inside (r : Except Stop (Handle × Nat) × Decoder)
    (f : Decoder → Handle → Except Fault Handle × Decoder) :
    Except Stop (Handle × Nat) × Decoder :=
  match r with
  | (.ok (h, next), d) => built text next (f d h)
  | (.error e, d) => (.error e, d)

/-- Reads a parameter and builds its type, by recursive descent with a cursor. -/
def descend (d : Decoder) (pos : Nat) : Except Stop (Handle × Nat) × Decoder :=
  if ['D', 'v'].isPrefixOf (rest text pos).toList then
    match _hn : vectorLength text pos with
    | .error e => (.error e, d)
    | .ok (n, next) =>
      inside text (descend d next) fun d h => d.closeOne h (.vector n (rest text pos).toList)
  else if peek text pos = some 'P' then
    match _hm : move text pos 1 with
    | .error e => (.error e, d)
    | .ok inner =>
      if peek text inner = some 'S' then
        match reference text inner with
        | .error e => (.error e, d)
        | .ok (i, next) => built text next (d.resolve (.pointerTo i (rest text inner).toList))
      else
        match _ha : attrs text inner with
        | .error e => (.error e, d)
        | .ok ((attrs, spelled), next) =>
          inside text (descend d next) fun d h => d.closeOne h (.pointer attrs spelled)
  else
    match stem text pos with
    | .error e => (.error e, d)
    | .ok (stem, next) => built text next (d.resolve stem)
termination_by text.utf8ByteSize - pos
decreasing_by
  · obtain ⟨hlt, hb⟩ := lt_of_vectorLength _hn
    have hle := le_of_isBoundary hb
    omega
  · obtain ⟨hlt, hb⟩ := lt_of_pointer _hm _ha
    have hle := le_of_isBoundary hb
    omega

end Cursor

end KernelSymbol
