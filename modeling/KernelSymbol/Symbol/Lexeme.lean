import KernelSymbol.Symbol.Reader

/-!
# The text of one parameter

Before any type is built, the text of a parameter is read as a whole: the pointers and vectors
that it opens, from the outermost inwards, and the stem they stand around. The stem is a builtin,
a name or a reference, or a pointer to a reference, which is read as one piece because the
reference may be to the attributes of the pointer as well.

Reading goes by the form of the text alone. Whether a reference points to something and whether
a vector is acceptable is decided when the type is built.

## Main definitions

* `Opening`, `Stem`, `Lexeme` — the pieces of a parameter
* `readStem`, `readLexeme` — reading them

## Main results

* `readStem_length`, `readLexeme_length` — reading a parameter uses up some text
-/

namespace KernelSymbol

/-- A pointer or a vector around a type that is still to be read. -/
inductive Opening where
  /-- A pointer, and whether any of its attributes was spelled out. -/
  | pointer (attrs : PointerAttrs) (spelled : Bool)
  /-- A vector, and where it starts. -/
  | vector (length : UInt32) (place : List Char)
  deriving DecidableEq

/-- What the openings stand around. -/
inductive Stem where
  /-- A builtin. -/
  | builtin (b : Builtin)
  /-- A name, and where its length starts. -/
  | named (name : String) (place : List Char)
  /-- A reference to a type, and where it starts. -/
  | reference (index : Nat) (place : List Char)
  /-- A pointer to what is referred to, and where the reference starts. -/
  | pointerTo (index : Nat) (place : List Char)
  deriving DecidableEq

/-- The text of a parameter: its openings, innermost first, and its stem. -/
structure Lexeme where
  openings : List Opening
  stem : Stem
  deriving DecidableEq

/-! ### Reading -/

/-- A builtin with a certain spelling, which ends before `rest`. The spelling is known by
the character `c` at `place`. -/
def readBuiltin (spelling : Spelling) (c : Char) (place rest : List Char) : Read Stem :=
  match Builtin.ofSpelling? spelling with
  | some b => .ok (.builtin b, rest)
  | none => .error (.unknownCode c place)

/-- A builtin that is spelled as a letter behind `D`, from that letter on. -/
def readExtended : List Char → Read Stem
  | [] => .error (.unexpectedEnd [])
  | c :: rest => readBuiltin (.extended c) c (c :: rest) rest

/-- A builtin that is spelled like a name, or a named type. -/
def readNamed (cs : List Char) : Read Stem :=
  match readName cs with
  | .error e => .error e
  | .ok (name, rest) =>
    match Builtin.ofSpelling? (.source name) with
    | some b => .ok (.builtin b, rest)
    | none => .ok (.named name cs, rest)

/-- A reference to a type. `cs` is what follows its `S`, and `start` is where the `S` is. -/
def readTypeReference (start cs : List Char) : Read Stem :=
  match readReference start cs with
  | .ok (i, rest) => .ok (.reference i start, rest)
  | .error e => .error e

/-- A stem that is no pointer. -/
def readStem : List Char → Read Stem
  | [] => .error (.unexpectedEnd [])
  | c :: rest =>
    if c = 'S' then readTypeReference (c :: rest) rest
    else if c = 'D' then readExtended rest
    else if c.isDigit then readNamed (c :: rest)
    else readBuiltin (.letter c) c (c :: rest) rest

theorem readBuiltin_rest {s : Spelling} {c : Char} {place rest rest' : List Char} {stem : Stem}
    (h : readBuiltin s c place rest = .ok (stem, rest')) : rest' = rest := by
  rw [readBuiltin] at h
  split at h <;> cases h
  rfl

theorem readExtended_suffix {cs rest : List Char} {stem : Stem}
    (h : readExtended cs = .ok (stem, rest)) : rest <:+ cs := by
  cases cs with
  | nil => cases h
  | cons c tail =>
    obtain rfl := readBuiltin_rest h
    exact List.suffix_cons ..

theorem readTypeReference_suffix {start cs rest : List Char} {stem : Stem}
    (h : readTypeReference start cs = .ok (stem, rest)) : rest <:+ cs := by
  rw [readTypeReference] at h
  split at h
  next hr =>
    cases h
    exact readReference_suffix hr
  · cases h

theorem readNamed_length {cs rest : List Char} {stem : Stem}
    (h : readNamed cs = .ok (stem, rest)) : rest.length < cs.length := by
  rw [readNamed] at h
  split at h
  · cases h
  next hn =>
    split at h <;>
    · cases h
      exact readName_length hn

theorem readStem_length {cs rest : List Char} {stem : Stem} (h : readStem cs = .ok (stem, rest)) :
    rest.length < cs.length := by
  cases cs with
  | nil => cases h
  | cons c tail =>
    have key : rest <:+ tail → rest.length < (c :: tail).length := fun hs =>
      Nat.lt_succ_of_le hs.length_le
    rw [readStem] at h
    split at h
    · exact key (readTypeReference_suffix h)
    · split at h
      · exact key (readExtended_suffix h)
      · split at h
        · exact readNamed_length h
        · obtain rfl := readBuiltin_rest h
          exact key List.suffix_rfl

/-- The rest of a parameter inside some openings. -/
def readLexeme (openings : List Opening) (cs : List Char) : Read Lexeme :=
  match _hv : after? ['D', 'v'] cs with
  | some rest =>
    match _hn : readVectorLength rest with
    | .error e => .error e
    | .ok (n, rest') => readLexeme (.vector n cs :: openings) rest'
  | none =>
    match _hp : after? ['P'] cs with
    | some rest =>
      match after? ['S'] rest with
      | some rest' =>
        match readReference rest rest' with
        | .error e => .error e
        | .ok (i, rest'') => .ok (⟨openings, .pointerTo i rest⟩, rest'')
      | none =>
        match _ha : readAttrs rest with
        | .error e => .error e
        | .ok ((attrs, spelled), rest') => readLexeme (.pointer attrs spelled :: openings) rest'
    | none =>
      match readStem cs with
      | .error e => .error e
      | .ok (stem, rest) => .ok (⟨openings, stem⟩, rest)
termination_by cs.length
decreasing_by
  · have h₁ := (readVectorLength_suffix _hn).length_le
    rw [after?_eq_some_iff.1 _hv]
    simp only [List.cons_append, List.nil_append, List.length_cons]
    omega
  · have h₁ := (readAttrs_suffix _ha).length_le
    rw [after?_eq_some_iff.1 _hp]
    simp only [List.cons_append, List.nil_append, List.length_cons]
    omega

theorem readLexeme_length {openings : List Opening} {cs rest : List Char} {lexeme : Lexeme}
    (h : readLexeme openings cs = .ok (lexeme, rest)) : rest.length < cs.length := by
  fun_induction readLexeme openings cs with
  | case1 => cases h
  | case2 openings cs tail hv n tail' hn ih =>
    have h₁ := (readVectorLength_suffix hn).length_le
    have h₂ := (after?_suffix hv).length_le
    have h₃ := ih h
    omega
  | case3 => cases h
  | case4 openings cs hv tail hp tail' hs i tail'' hr =>
    cases h
    have h₁ := (readReference_suffix hr).length_le
    rw [after?_eq_some_iff.1 hp, after?_eq_some_iff.1 hs]
    simp only [List.cons_append, List.nil_append, List.length_cons]
    omega
  | case5 => cases h
  | case6 openings cs hv tail hp hs attrs spelled tail' ha ih =>
    have h₁ := (readAttrs_suffix ha).length_le
    have h₂ := (after?_suffix hp).length_le
    have h₃ := ih h
    omega
  | case7 => cases h
  | case8 openings cs hv hp stem tail hs =>
    cases h
    exact readStem_length hs

end KernelSymbol
