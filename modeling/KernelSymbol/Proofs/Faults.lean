import KernelSymbol.Proofs.Acceptance

/-!
# Where the faults of a text are

A fault carries its place, and the place says what is wrong: the end of the text, the first
character of a code that is unknown, the `S` of a reference to nothing, the `D` of a vector that
cannot be built. A place cuts the text in two, and what a fault tells is about the two parts. The
readers know a place as the second part; a finished report counts the bytes of the first.

## Main definitions

* `DecodeError.Fits`, `DecodeError.HasPlace` — what a fault tells about the text around its place,
  if it has one
* `Splits`, `SplitsAt` — how a place cuts a text, as the text that is left and as an offset

## Main results

* `DecodeError.Fits.of_suffix` — a fault in the rest of a text is a fault in the text
* `Decoder.fits_of_descend`, `Decoder.fits_of_readParams` — the faults of parameters
* `fits_of_decode` — the faults of a whole symbol, with offsets
* `Decoder.place_of_readParams` — the faults of parameters have places
* `SplitsAt.isValid`, `place_of_decode` — the offsets are offsets of characters, or of the end
-/

namespace KernelSymbol

/-! ### What a fault tells -/

/-- What a fault tells about the text around its place; `At place before after` says that the place
cuts the text into these two. -/
def DecodeError.Fits {π : Type} (At : π → List Char → List Char → Prop) : DecodeError π → Prop
  | .missingPrefix | .emptyName => True
  | .unexpectedEnd p => ∃ before, At p before []
  | .expectedLength p => ∃ before after, At p before after
  | .expected char p => ∃ before c after, At p before (c :: after) ∧ c ≠ char
  | .unknownCode c p => ∃ before after, At p before (c :: after)
  | .invalidReference p => ∃ before after, At p before ('S' :: after)
  | .invalidType p .zeroLength | .invalidType p (.elementNotScalar _) =>
    ∃ before after, At p before ('D' :: 'v' :: after)
  | .invalidType p (.spaceOutOfRange n) =>
    ∃ before d after, At p (before ++ ['U', '3', 'A', 'S']) (d :: after) ∧ d.isDigit = true ∧
      Radix.digitValue d = n
  | .invalidType p .emptyTypeName =>
    ∃ before d after rest, At p before (d :: after) ∧ d.isDigit = true ∧
      readName (d :: after) = .ok ("", rest)
  | .invalidType _ _ => False

/-- A fault that has a place. The two others are found in the head of a symbol only. -/
def DecodeError.HasPlace {π : Type} (e : DecodeError π) : Prop := ∃ p, e.place? = some p

/-- The text that is left at a place is the second part of the text. -/
def Splits (cs place before after : List Char) : Prop := before ++ after = cs ∧ place = after

/-- An offset is the size of the first part of the text. -/
def SplitsAt (text : String) (offset : Nat) (before after : List Char) : Prop :=
  before ++ after = text.toList ∧ byteCount before = offset

/-- What a fault tells at one notion of place it tells at another one, also if the text has more in
front there. -/
theorem DecodeError.Fits.map {π ρ : Type} {At : π → List Char → List Char → Prop}
    {At' : ρ → List Char → List Char → Prop} {f : π → ρ} (front : List Char)
    (hf : ∀ {p before after}, At p before after → At' (f p) (front ++ before) after)
    {e : DecodeError π} (h : e.Fits At) : (e.map f).Fits At' := by
  cases e with
  | missingPrefix | emptyName => trivial
  | unexpectedEnd p =>
    obtain ⟨before, h⟩ := h
    exact ⟨_, hf h⟩
  | expectedLength p =>
    obtain ⟨before, after, h⟩ := h
    exact ⟨_, _, hf h⟩
  | expected char p =>
    obtain ⟨before, c, after, h, hc⟩ := h
    exact ⟨_, c, _, hf h, hc⟩
  | unknownCode c p =>
    obtain ⟨before, after, h⟩ := h
    exact ⟨_, _, hf h⟩
  | invalidReference p =>
    obtain ⟨before, after, h⟩ := h
    exact ⟨_, _, hf h⟩
  | invalidType p cause =>
    cases cause with
    | zeroLength | elementNotScalar found =>
      obtain ⟨before, after, h⟩ := h
      exact ⟨_, _, hf h⟩
    | spaceOutOfRange n =>
      obtain ⟨before, d, after, h, hd⟩ := h
      refine ⟨front ++ before, d, after, ?_, hd⟩
      rw [List.append_assoc]
      exact hf h
    | emptyTypeName =>
      obtain ⟨before, d, after, rest, h, hd⟩ := h
      exact ⟨_, d, after, rest, hf h, hd⟩
    | _ => exact h

/-- The place of a fault cuts the text. Nothing is left there if the text is too short, and else
only if a length is missing. -/
theorem DecodeError.Fits.exists_at {π : Type} {At : π → List Char → List Char → Prop}
    {e : DecodeError π} {p : π} (h : e.Fits At) (hp : e.place? = some p) :
    ∃ before after, At p before after ∧ (e = .unexpectedEnd p → after = []) ∧
      (after = [] → e = .unexpectedEnd p ∨ e = .expectedLength p) := by
  cases e with
  | missingPrefix | emptyName => cases hp
  | unexpectedEnd p =>
    cases hp
    obtain ⟨before, h⟩ := h
    exact ⟨_, _, h, fun _ => rfl, fun _ => .inl rfl⟩
  | expectedLength p =>
    cases hp
    obtain ⟨before, after, h⟩ := h
    exact ⟨_, _, h, nofun, fun _ => .inr rfl⟩
  | expected char p =>
    cases hp
    obtain ⟨before, c, after, h, -⟩ := h
    exact ⟨_, _, h, nofun, nofun⟩
  | unknownCode c p | invalidReference p =>
    cases hp
    obtain ⟨before, after, h⟩ := h
    exact ⟨_, _, h, nofun, nofun⟩
  | invalidType p cause =>
    cases hp
    cases cause with
    | zeroLength | elementNotScalar found =>
      obtain ⟨before, after, h⟩ := h
      exact ⟨_, _, h, nofun, nofun⟩
    | spaceOutOfRange n =>
      obtain ⟨before, d, after, h, -⟩ := h
      exact ⟨_, _, h, nofun, nofun⟩
    | emptyTypeName =>
      obtain ⟨before, d, after, rest, h, -⟩ := h
      exact ⟨_, _, h, nofun, nofun⟩
    | _ => exact h.elim

@[simp] theorem DecodeError.map_id {π : Type} (e : DecodeError π) : e.map id = e := by
  cases e <;> rfl

/-- A fault in the rest of a text is a fault in the text. -/
theorem DecodeError.Fits.of_suffix {e : Fault} {cs ds : List Char} (h : e.Fits (Splits cs))
    (hs : cs <:+ ds) : e.Fits (Splits ds) := by
  obtain ⟨front, rfl⟩ := hs
  rw [← e.map_id]
  exact h.map front fun hp => ⟨by rw [List.append_assoc, hp.1], hp.2⟩

/-! ### Readers -/

variable {cs rest : List Char} {e : Fault}

theorem fits_unexpectedEnd (cs : List Char) :
    (DecodeError.unexpectedEnd [] : Fault).Fits (Splits cs) := ⟨cs, List.append_nil cs, rfl⟩

theorem fits_expectedLength (cs : List Char) :
    (DecodeError.expectedLength cs : Fault).Fits (Splits cs) := ⟨[], cs, rfl, rfl⟩

theorem fits_of_expect {c : Char} (h : expect c cs = .error e) : e.Fits (Splits cs) := by
  cases cs with
  | nil =>
    cases h
    exact fits_unexpectedEnd []
  | cons d cs =>
    rw [expect] at h
    split at h
    next => cases h
    next hd =>
      cases h
      exact ⟨[], d, cs, ⟨rfl, rfl⟩, hd⟩

theorem fits_of_readLength (h : readLength cs = .error e) : e.Fits (Splits cs) := by
  rw [readLength] at h
  dsimp only at h
  split at h
  next =>
    split at h
    · cases h
      exact fits_unexpectedEnd cs
    · cases h
      exact fits_expectedLength cs
  next =>
    split at h
    · cases h
    · cases h
      exact fits_expectedLength cs

theorem fits_of_readName (h : readName cs = .error e) : e.Fits (Splits cs) := by
  rw [readName] at h
  split at h
  next hn =>
    cases h
    exact fits_of_readLength hn
  next =>
    split at h
    · cases h
    · cases h
      exact fits_unexpectedEnd cs

/-- A reference that cannot be read is a fault at its `S` or further on. -/
theorem fits_of_readReference (h : readReference ('S' :: cs) cs = .error e) :
    e.Fits (Splits ('S' :: cs)) := by
  rw [readReference] at h
  split at h
  next => cases h
  next =>
    dsimp only at h
    split at h
    next =>
      cases h
      exact ⟨[], cs, rfl, rfl⟩
    next =>
      split at h
      next => cases h
      next he =>
        cases h
        exact (fits_of_expect he).of_suffix
          ((List.dropWhile_suffix _).trans (List.suffix_cons 'S' cs))

theorem fits_of_readVectorLength (h : readVectorLength cs = .error e) : e.Fits (Splits cs) := by
  rw [readVectorLength] at h
  split at h
  next hn =>
    cases h
    exact fits_of_readLength hn
  next hn =>
    split at h
    next =>
      split at h
      next => cases h
      next he =>
        cases h
        exact (fits_of_expect he).of_suffix (readLength_suffix hn)
    next =>
      cases h
      exact fits_expectedLength cs

/-- A number of no address space is a fault at the digit behind `U3AS`. -/
theorem fits_of_readSpace (h : readSpace cs = .error e) : e.Fits (Splits cs) := by
  rw [readSpace] at h
  split at h
  next => cases h
  next hU =>
    cases h
    exact (fits_expectedLength []).of_suffix (after?_suffix hU)
  next d back hU =>
    split at h
    next hd =>
      split at h
      next => cases h
      next hs =>
        cases h
        rw [AddressSpace.ofNumber] at hs
        split at hs
        next => cases hs
        next =>
          cases hs
          exact ⟨[], d, back, ⟨(after?_eq_some_iff.1 hU).symm, rfl⟩, hd, rfl⟩
    next =>
      cases h
      exact (fits_expectedLength _).of_suffix (after?_suffix hU)

theorem fits_of_readAttrs (h : readAttrs cs = .error e) : e.Fits (Splits cs) := by
  rw [readAttrs] at h
  split at h
  next hs =>
    cases h
    exact fits_of_readSpace hs
  next => cases h

theorem fits_of_readBuiltin {s : Spelling} {c : Char}
    (h : readBuiltin s c (c :: cs) rest = .error e) : e.Fits (Splits (c :: cs)) := by
  rw [readBuiltin] at h
  split at h
  next => cases h
  next =>
    cases h
    exact ⟨[], cs, rfl, rfl⟩

theorem fits_of_readStem (h : readStem cs = .error e) : e.Fits (Splits cs) := by
  cases cs with
  | nil =>
    cases h
    exact fits_unexpectedEnd []
  | cons c cs =>
    rw [readStem] at h
    split at h
    next hS =>
      subst hS
      rw [readTypeReference] at h
      split at h
      next => cases h
      next hr =>
        cases h
        exact fits_of_readReference hr
    next =>
      split at h
      next =>
        cases cs with
        | nil =>
          cases h
          exact fits_unexpectedEnd _
        | cons d cs => exact (fits_of_readBuiltin h).of_suffix (List.suffix_cons ..)
      next =>
        split at h
        next =>
          rw [readNamed] at h
          split at h
          next hn =>
            cases h
            exact fits_of_readName hn
          next => split at h <;> cases h
        next => exact fits_of_readBuiltin h

/-! ### Building -/

/-- The places in a stem are where it starts: a name at a digit, a reference at its `S`. -/
theorem place_of_readStem {stem : Stem} (h : readStem cs = .ok (stem, rest)) :
    (∃ b, stem = .builtin b) ∨
    (∃ name d tail, stem = .named name cs ∧ cs = d :: tail ∧ d.isDigit = true ∧
      readName cs = .ok (name, rest)) ∨
    ∃ i tail, stem = .reference i cs ∧ cs = 'S' :: tail := by
  cases cs with
  | nil => cases h
  | cons c cs =>
    rw [readStem] at h
    split at h
    next hS =>
      subst hS
      rw [readTypeReference] at h
      split at h <;> cases h
      exact .inr (.inr ⟨_, cs, rfl, rfl⟩)
    next =>
      split at h
      next =>
        cases cs with
        | nil => cases h
        | cons d cs =>
          obtain ⟨b, rfl, -⟩ := exists_of_readBuiltin h
          exact .inl ⟨b, rfl⟩
      next =>
        split at h
        next hd =>
          rw [readNamed] at h
          split at h
          next => cases h
          next name tail hn =>
            split at h <;> cases h
            · exact .inl ⟨_, rfl⟩
            · exact .inr (.inl ⟨name, c, cs, rfl, rfl, hd, hn⟩)
        next =>
          obtain ⟨b, rfl, -⟩ := exists_of_readBuiltin h
          exact .inl ⟨b, rfl⟩

theorem readStem_suffix {stem : Stem} (h : readStem cs = .ok (stem, rest)) : rest <:+ cs := by
  cases cs with
  | nil => cases h
  | cons c cs =>
    rw [readStem] at h
    split at h
    next => exact (readTypeReference_suffix h).trans (List.suffix_cons ..)
    next =>
      split at h
      next => exact (readExtended_suffix h).trans (List.suffix_cons ..)
      next =>
        split at h
        next =>
          rw [readNamed] at h
          split at h
          next => cases h
          next hn => split at h <;> cases h <;> exact readName_suffix hn
        next =>
          obtain rfl := readBuiltin_rest h
          exact List.suffix_cons ..

theorem readLexeme_suffix {openings : List Opening} {lexeme : Lexeme}
    (h : readLexeme openings cs = .ok (lexeme, rest)) : rest <:+ cs := by
  fun_induction readLexeme openings cs with
  | case1 => cases h
  | case2 openings cs tail hv n tail' hn ih =>
    exact (ih h).trans ((readVectorLength_suffix hn).trans (after?_suffix hv))
  | case3 => cases h
  | case4 openings cs hv tail hp tail' hs i tail'' hr =>
    cases h
    exact (readReference_suffix hr).trans ((after?_suffix hs).trans (after?_suffix hp))
  | case5 => cases h
  | case6 openings cs hv tail hp hs attrs spelled tail' ha ih =>
    exact (ih h).trans ((readAttrs_suffix ha).trans (after?_suffix hp))
  | case7 => cases h
  | case8 openings cs hv hp stem tail hs =>
    cases h
    exact readStem_suffix hs

namespace Decoder

variable {d d' : Decoder}

theorem param_suffix {h : Handle} (hp : d.param cs = (.ok (h, rest), d')) : rest <:+ cs := by
  rw [param] at hp
  split at hp
  next => cases hp
  next hl =>
    split at hp <;> cases hp
    exact readLexeme_suffix hl

/-- A component that is not there is a fault at the place of the reference. -/
theorem fits_of_component {i : Nat} {tail : List Char}
    (h : d.component i ('S' :: tail) = .error e) : e.Fits (Splits ('S' :: tail)) := by
  rw [component] at h
  split at h <;> cases h
  exact ⟨[], tail, rfl, rfl⟩

/-- A stem that has no type is a fault where it starts. -/
theorem fits_of_resolve {stem : Stem} (hs : readStem cs = .ok (stem, rest))
    (h : d.resolve stem = (.error e, d')) : e.Fits (Splits cs) := by
  obtain ⟨b, rfl⟩ | ⟨name, c, tail, rfl, rfl, hc, hn⟩ | ⟨i, tail, rfl, rfl⟩ := place_of_readStem hs
  · cases h
  · simp only [resolve] at h
    by_cases hne : name = ""
    · subst hne
      rw [named_of_error (e := .emptyTypeName) _ rfl] at h
      cases h
      exact ⟨[], c, tail, rest, ⟨rfl, rfl⟩, hc, hn⟩
    · have hok : ArgType.checkName name = .ok () := ArgType.checkName_eq_ok_iff.2 hne
      simp only [named, Pool.named, hok] at h
      cases h
  · simp only [resolve] at h
    split at h
    next => cases h
    next =>
      cases h
      exact ⟨[], tail, rfl, rfl⟩
    next hc =>
      cases h
      exact fits_of_component hc

/-- A pointer to what is not there is a fault at the `S` behind its `P`. -/
theorem fits_of_resolve_pointerTo {i : Nat} {tail : List Char}
    (h : d.resolve (.pointerTo i ('S' :: tail)) = (.error e, d')) :
    e.Fits (Splits ('S' :: tail)) := by
  simp only [resolve] at h
  split at h
  next => cases h
  next => cases h
  next hc =>
    cases h
    exact fits_of_component hc

/-- A vector that breaks its contract is a fault at its `D`; a pointer has no contract. -/
theorem fits_of_closeOne {h : Handle} {opening : Opening}
    (hp : ∀ n place, opening = .vector n place → place = cs ∧ ['D', 'v'] <+: cs)
    (hc : d.closeOne h opening = (.error e, d')) : e.Fits (Splits cs) := by
  cases opening with
  | pointer a spelled => cases hc
  | vector n place =>
    obtain ⟨rfl, tail, rfl⟩ := hp n place rfl
    rcases hv : ArgType.checkVector n h.type with cause | ok
    · rw [closeOne, vector_of_error _ hv] at hc
      cases hc
      rw [ArgType.checkVector] at hv
      split at hv
      · cases hv
        exact ⟨[], tail, rfl, rfl⟩
      · split at hv
        · cases hv
        · cases hv
          exact ⟨[], tail, rfl, rfl⟩
    · simp only [closeOne, vector, Pool.vector, hv] at hc
      cases hc

/-- What goes wrong inside was read before or is built around it. -/
theorem eq_error_of_inside {r : Read Handle × Decoder}
    {f : Decoder → Handle → Except Fault Handle × Decoder} (h : inside r f = (.error e, d')) :
    r = (.error e, d') ∨ ∃ g d₁, f d₁ g = (.error e, d') := by
  obtain ⟨e' | ⟨g, tail⟩, d₁⟩ := r
  · exact .inl h
  · rw [inside] at h
    split at h
    next => cases h
    next hf =>
      cases h
      exact .inr ⟨g, d₁, hf⟩

/-- The faults of a parameter. The induction follows recursive descent, where a fault is found in
the text from which it was read, and carries over to the whole text by `of_suffix`. -/
theorem fits_of_descend (h : d.descend cs = (.error e, d')) : e.Fits (Splits cs) := by
  fun_induction Decoder.descend d cs with
  | case1 cs tail hv e₁ hn =>
    cases h
    exact (fits_of_readVectorLength hn).of_suffix (after?_suffix hv)
  | case2 cs tail hv n tail' hn ih =>
    obtain h | ⟨g, d₁, h⟩ := eq_error_of_inside h
    · exact (ih h).of_suffix ((readVectorLength_suffix hn).trans (after?_suffix hv))
    · refine fits_of_closeOne (fun n' place hp => ?_) h
      cases hp
      exact ⟨rfl, tail, (after?_eq_some_iff.1 hv).symm⟩
  | case3 cs hv tail hp tail' hS e₁ hr =>
    cases h
    rw [after?_eq_some_iff.1 hS] at hr hp
    exact (fits_of_readReference hr).of_suffix (after?_suffix hp)
  | case4 cs hv tail hp tail' hS i tail'' hr h₁ d₁ hd => cases h
  | case5 cs hv tail hp tail' hS i tail'' hr e₁ d₁ hd =>
    cases h
    rw [after?_eq_some_iff.1 hS] at hd hp
    exact (fits_of_resolve_pointerTo hd).of_suffix (after?_suffix hp)
  | case6 cs hv tail hp hS e₁ ha =>
    cases h
    exact (fits_of_readAttrs ha).of_suffix (after?_suffix hp)
  | case7 cs hv tail hp hS attrs spelled tail' ha ih =>
    obtain h | ⟨g, d₁, h⟩ := eq_error_of_inside h
    · exact (ih h).of_suffix ((readAttrs_suffix ha).trans (after?_suffix hp))
    · exact fits_of_closeOne (fun n place hp => by cases hp) h
  | case8 cs hv hp e₁ hs =>
    cases h
    exact fits_of_readStem hs
  | case9 cs hv hp stem tail hs h₁ d₁ hd => cases h
  | case10 cs hv hp stem tail hs e₁ d₁ hd =>
    cases h
    exact fits_of_resolve hs hd

theorem fits_of_readParams {params : List Handle}
    (h : d.readParams params cs = (.error e, d')) : e.Fits (Splits cs) := by
  fun_induction Decoder.readParams d params cs with
  | case1 d params cs he => cases h
  | case2 d params cs he e₁ d₁ hp =>
    cases h
    rw [param_eq_descend] at hp
    exact fits_of_descend hp
  | case3 d params cs he g tail d₁ hp ih =>
    exact (ih h).of_suffix (param_suffix hp)

end Decoder

/-! ### Whole symbols -/

variable {p q : Pool}

theorem fits_of_readHead (h : readHead cs = .error e) : e.Fits (Splits cs) := by
  rw [readHead] at h
  split at h
  next =>
    cases h
    trivial
  next hZ =>
    split at h
    next hn =>
      cases h
      exact (fits_of_readName hn).of_suffix (after?_suffix hZ)
    next =>
      split at h <;> cases h
      trivial

theorem readHead_suffix {name : String} (h : readHead cs = .ok (name, rest)) : rest <:+ cs := by
  rw [readHead] at h
  split at h
  next => cases h
  next hZ =>
    split at h
    next => cases h
    next hn =>
      split at h <;> cases h
      exact (readName_suffix hn).trans (after?_suffix hZ)

theorem fits_of_decodeParams (h : decodeParams cs p = (.error e, q)) : e.Fits (Splits cs) := by
  rw [decodeParams] at h
  split at h
  next => cases h
  next =>
    split at h
    next =>
      cases h
      exact fits_unexpectedEnd cs
    next =>
      rcases hr : (Decoder.start p).readParams [] cs with ⟨e' | hs, d⟩
      · rw [hr] at h
        cases h
        exact Decoder.fits_of_readParams hr
      · rw [hr] at h
        cases h

theorem fits_of_decodeText (h : decodeText cs p = (.error e, q)) : e.Fits (Splits cs) := by
  rw [decodeText] at h
  split at h
  next hh =>
    cases h
    exact fits_of_readHead hh
  next hh =>
    split at h
    next => cases h
    next hparams =>
      cases h
      exact (fits_of_decodeParams hparams).of_suffix (readHead_suffix hh)

theorem fits_of_decode {text : String} {e : DecodeError Nat} (h : decode text p = (.error e, q)) :
    e.Fits (SplitsAt text) := by
  rw [decode] at h
  split at h
  next => cases h
  next hf =>
    cases h
    refine (fits_of_decodeText hf).map [] fun {place before after} hp => ?_
    obtain ⟨htext, rfl⟩ := hp
    refine ⟨htext, ?_⟩
    rw [List.nil_append, ← byteCount_toList, ← htext, byteCount_append, Nat.add_sub_cancel]

/-! ### Faults with a place -/

theorem hasPlace_of_expect {c : Char} (h : expect c cs = .error e) : e.HasPlace := by
  cases cs with
  | nil =>
    cases h
    exact ⟨_, rfl⟩
  | cons d cs =>
    rw [expect] at h
    split at h <;> cases h
    exact ⟨_, rfl⟩

theorem hasPlace_of_readLength (h : readLength cs = .error e) : e.HasPlace := by
  rw [readLength] at h
  dsimp only at h
  split at h <;> split at h <;> cases h <;> exact ⟨_, rfl⟩

theorem hasPlace_of_readName (h : readName cs = .error e) : e.HasPlace := by
  rw [readName] at h
  split at h
  next hn =>
    cases h
    exact hasPlace_of_readLength hn
  next =>
    split at h <;> cases h
    exact ⟨_, rfl⟩

theorem hasPlace_of_readReference {start : List Char} (h : readReference start cs = .error e) :
    e.HasPlace := by
  rw [readReference] at h
  split at h
  next => cases h
  next =>
    dsimp only at h
    split at h
    next =>
      cases h
      exact ⟨_, rfl⟩
    next =>
      split at h
      next => cases h
      next he =>
        cases h
        exact hasPlace_of_expect he

theorem hasPlace_of_readVectorLength (h : readVectorLength cs = .error e) : e.HasPlace := by
  rw [readVectorLength] at h
  split at h
  next hn =>
    cases h
    exact hasPlace_of_readLength hn
  next =>
    split at h
    next =>
      split at h
      next => cases h
      next he =>
        cases h
        exact hasPlace_of_expect he
    next =>
      cases h
      exact ⟨_, rfl⟩

theorem hasPlace_of_readAttrs (h : readAttrs cs = .error e) : e.HasPlace := by
  rw [readAttrs] at h
  split at h
  next hs =>
    cases h
    rw [readSpace] at hs
    split at hs
    next => cases hs
    next =>
      cases hs
      exact ⟨_, rfl⟩
    next =>
      split at hs
      next =>
        split at hs <;> cases hs
        exact ⟨_, rfl⟩
      next =>
        cases hs
        exact ⟨_, rfl⟩
  next => cases h

theorem hasPlace_of_readBuiltin {s : Spelling} {c : Char} {place : List Char}
    (h : readBuiltin s c place rest = .error e) : e.HasPlace := by
  rw [readBuiltin] at h
  split at h <;> cases h
  exact ⟨_, rfl⟩

theorem hasPlace_of_readStem (h : readStem cs = .error e) : e.HasPlace := by
  rw [readStem.eq_def] at h
  split at h
  next =>
    cases h
    exact ⟨_, rfl⟩
  next c tail =>
    split at h
    next =>
      rw [readTypeReference] at h
      split at h <;> cases h
      next hr => exact hasPlace_of_readReference hr
    next =>
      split at h
      next =>
        rw [readExtended.eq_def] at h
        split at h
        next =>
          cases h
          exact ⟨_, rfl⟩
        next => exact hasPlace_of_readBuiltin h
      next =>
        split at h
        next =>
          rw [readNamed] at h
          split at h
          next hn =>
            cases h
            exact hasPlace_of_readName hn
          next => split at h <;> cases h
        next => exact hasPlace_of_readBuiltin h

theorem hasPlace_of_readLexeme {openings : List Opening} (h : readLexeme openings cs = .error e) :
    e.HasPlace := by
  fun_induction readLexeme openings cs with
  | case1 openings cs tail hv e₁ hn =>
    cases h
    exact hasPlace_of_readVectorLength hn
  | case2 openings cs tail hv n tail' hn ih => exact ih h
  | case3 openings cs hv tail hp tail' hs e₁ hr =>
    cases h
    exact hasPlace_of_readReference hr
  | case4 => cases h
  | case5 openings cs hv tail hp hs e₁ ha =>
    cases h
    exact hasPlace_of_readAttrs ha
  | case6 openings cs hv tail hp hs attrs spelled tail' ha ih => exact ih h
  | case7 openings cs hv hp e₁ hs =>
    cases h
    exact hasPlace_of_readStem hs
  | case8 => cases h

namespace Decoder

variable {d d' : Decoder}

theorem hasPlace_of_resolve {stem : Stem} (h : d.resolve stem = (.error e, d')) : e.HasPlace := by
  have hr := d.resolves stem
  rw [h] at hr
  cases hr with
  | fault he => exact ⟨_, he⟩

theorem hasPlace_of_close {g : Handle} {openings : List Opening}
    (h : d.close g openings = (.error e, d')) : e.HasPlace := by
  induction openings generalizing d g with
  | nil => cases h
  | cons opening openings ih =>
    have hc := d.closes g opening
    rw [close] at h
    generalize d.closeOne g opening = r at hc h
    cases hc with
    | fault place =>
      cases h
      exact ⟨_, rfl⟩
    | plain | spelled | vector => exact ih h

theorem hasPlace_of_param (h : d.param cs = (.error e, d')) : e.HasPlace := by
  rw [param] at h
  split at h
  next hl =>
    cases h
    exact hasPlace_of_readLexeme hl
  next lexeme tail hl =>
    split at h <;> cases h
    next hb =>
      rw [build] at hb
      split at hb
      next => exact hasPlace_of_close hb
      next hr =>
        cases hb
        exact hasPlace_of_resolve hr

/-- A fault in parameters has its place in their text. -/
theorem place_of_readParams {params : List Handle} (h : d.readParams params cs = (.error e, d')) :
    ∃ place, e.place? = some place ∧ place <:+ cs := by
  have hplace : e.HasPlace := by
    fun_induction Decoder.readParams d params cs with
    | case1 => cases h
    | case2 d params cs he e₁ d₁ hp =>
      cases h
      exact hasPlace_of_param hp
    | case3 d params cs he g tail d₁ hp ih => exact ih h
  obtain ⟨place, hp⟩ := hplace
  obtain ⟨before, after, ⟨rfl, rfl⟩, -⟩ := (fits_of_readParams h).exists_at hp
  exact ⟨_, hp, List.suffix_append ..⟩

end Decoder

/-! ### Offsets -/

variable {text : String} {o : Nat} {before after : List Char}

theorem byteCount_eq_zero_iff : byteCount cs = 0 ↔ cs = [] := by
  cases cs with
  | nil => simp
  | cons c cs =>
    have hc := c.utf8Size_pos
    simp only [byteCount_cons, reduceCtorEq, iff_false]
    omega

/-- A place at which a text is cut is no further on than its end. -/
theorem SplitsAt.le (h : SplitsAt text o before after) : o ≤ text.utf8ByteSize := by
  rw [← byteCount_toList, ← h.1, byteCount_append, h.2]
  exact Nat.le_add_right ..

/-- It is the end if and only if nothing is left there. -/
theorem SplitsAt.eq_iff (h : SplitsAt text o before after) :
    o = text.utf8ByteSize ↔ after = [] := by
  rw [← byteCount_toList, ← h.1, byteCount_append, h.2, Nat.left_eq_add, byteCount_eq_zero_iff]

/-- It is not inside a character. -/
theorem SplitsAt.isValid (h : SplitsAt text o before after) :
    (⟨o⟩ : String.Pos.Raw).IsValid text := by
  have htext : text = String.ofList before ++ String.ofList after := by
    rw [← String.ofList_append, h.1, String.ofList_toList]
  refine String.Pos.Raw.isValid_iff_exists_append.2 ⟨_, _, htext, ?_⟩
  rw [String.Pos.Raw.ext_iff, String.byteIdx_rawEndPos, utf8ByteSize_ofList, h.2]

/-- Every fault has its place between characters; only a text that stops too early, and a length
that is missing, are faults at the end of the text. -/
theorem place_of_decode {e : DecodeError Nat} (h : decode text p = (.error e, q))
    (ho : e.place? = some o) :
    (⟨o⟩ : String.Pos.Raw).IsValid text ∧ o ≤ text.utf8ByteSize ∧
      (e = .unexpectedEnd o → o = text.utf8ByteSize) ∧
      (o = text.utf8ByteSize → e = .unexpectedEnd o ∨ e = .expectedLength o) := by
  obtain ⟨before, after, hs, hend, hempty⟩ := (fits_of_decode h).exists_at ho
  exact ⟨hs.isValid, hs.le, fun he => hs.eq_iff.2 (hend he), fun he => hempty (hs.eq_iff.1 he)⟩

end KernelSymbol
