import KernelSymbol.Symbol.Grammar

/-!
# The small parts of a symbol are read as they are spelled

Each reader of a number, a name, a reference or the attributes of a pointer accepts exactly the
lenient spellings of the grammar, and what it leaves is what follows the spelling. Numbers and
names are read to their end whatever comes next, because a run of digits stops in front of a
character that is no digit of the same radix. Attributes stop early only if the text behind them
could go on with more attributes.

## Main definitions

* `Radix.Stops` — a text that does not continue a run of digits
* `NoAttrs` — a text that does not continue the attributes of a pointer

## Main results

* `readLength_eq_ok_iff`, `readName_eq_ok_iff`, `readReference_eq_ok_iff`,
  `readVectorLength_eq_ok_iff` — the readers accept exactly the spellings
* `readAttrs_append`, `attrsText_of_readAttrs` — the same for attributes, in two halves
-/

namespace KernelSymbol

/-! ### Runs of digits -/

/-- A text that does not start with a digit, so a run of digits in front of it ends there. -/
def Radix.Stops (r : Radix) (cs : List Char) : Prop := ∀ c ∈ cs.head?, r.isDigit c = false

theorem Radix.stops_cons {r : Radix} {c : Char} {cs : List Char} :
    r.Stops (c :: cs) ↔ r.isDigit c = false := by simp [Radix.Stops]

theorem Radix.stops_dropWhile (r : Radix) (cs : List Char) :
    r.Stops (cs.dropWhile r.isDigit) := by
  intro c hc
  have h := List.head?_dropWhile_not r.isDigit cs
  rw [Option.mem_def.1 hc] at h
  simpa using h

theorem Radix.Stops.takeWhile_eq_nil {r : Radix} {cs : List Char} (h : r.Stops cs) :
    cs.takeWhile r.isDigit = [] := by
  cases cs with
  | nil => rfl
  | cons c cs => simp [Radix.stops_cons.1 h]

theorem Radix.Stops.dropWhile_eq_self {r : Radix} {cs : List Char} (h : r.Stops cs) :
    cs.dropWhile r.isDigit = cs := by
  cases cs with
  | nil => rfl
  | cons c cs => simp [Radix.stops_cons.1 h]

/-- A run of digits is cut off whole. -/
theorem Radix.Stops.span {r : Radix} {digits rest : List Char} (h : r.Stops rest)
    (hd : ∀ c ∈ digits, r.isDigit c = true) :
    (digits ++ rest).takeWhile r.isDigit = digits ∧
      (digits ++ rest).dropWhile r.isDigit = rest := by
  rw [List.takeWhile_append_of_pos hd, List.dropWhile_append_of_pos hd, h.takeWhile_eq_nil,
    h.dropWhile_eq_self, List.append_nil]
  exact ⟨rfl, rfl⟩

/-- The run of digits at the front of a text spells its value, if there is a digit at all and the
value is not too large. -/
theorem numberText_takeWhile {r : Radix} {cs : List Char} (hne : cs.takeWhile r.isDigit ≠ [])
    (hlt : r.value (cs.takeWhile r.isDigit) < numberBound) :
    NumberText .lenient r (r.value (cs.takeWhile r.isDigit)) (cs.takeWhile r.isDigit) :=
  ⟨hlt, hne, fun c hc => by simpa using List.all_eq_true.1 List.all_takeWhile c hc, rfl⟩

theorem NumberText.lenient {style : Style} {r : Radix} {n : Nat} {cs : List Char}
    (h : NumberText style r n cs) : NumberText .lenient r n cs := by
  cases style with
  | lenient => exact h
  | strict =>
    obtain ⟨hn, rfl⟩ := h
    exact ⟨hn, r.digits_ne_nil n, fun c => Radix.isDigit_of_mem_digits, r.value_digits n⟩

theorem NumberText.head {style : Style} {r : Radix} {n : Nat} {cs : List Char}
    (h : NumberText style r n cs) : ∃ c tail, cs = c :: tail ∧ r.isDigit c = true := by
  obtain ⟨-, hne, hd, -⟩ := h.lenient
  obtain ⟨c, tail, rfl⟩ := List.exists_cons_of_ne_nil hne
  exact ⟨c, tail, rfl, hd c List.mem_cons_self⟩

/-! ### Lengths -/

theorem readLength_eq_ok_iff {cs rest : List Char} {n : Nat} :
    readLength cs = .ok (n, rest) ↔
      ∃ digits, cs = digits ++ rest ∧ NumberText .lenient .ten n digits ∧
        Radix.ten.Stops rest := by
  constructor
  · intro h
    simp only [readLength, Radix.valueUpTo_eq] at h
    split at h
    · split at h <;> cases h
    next hd =>
      split at h
      next hlt =>
        cases h
        have hv : Radix.ten.value (cs.takeWhile Radix.ten.isDigit) < numberBound := by omega
        rw [Nat.min_eq_right (Nat.le_of_lt hv)]
        exact ⟨_, List.takeWhile_append_dropWhile.symm,
          numberText_takeWhile (mt List.isEmpty_iff.2 hd) hv, Radix.stops_dropWhile _ cs⟩
      next => cases h
  · rintro ⟨digits, rfl, ⟨hn, hne, hd, rfl⟩, hs⟩
    obtain ⟨ht, hr⟩ := hs.span hd
    simp only [readLength, Radix.valueUpTo_eq, ht, hr]
    rw [if_neg (by simpa using hne), Nat.min_eq_right (Nat.le_of_lt hn), if_pos hn]

/-- Reading the length of a vector accepts exactly its spellings with the `_` behind them. -/
theorem readVectorLength_eq_ok_iff {cs rest : List Char} {n : UInt32} :
    readVectorLength cs = .ok (n, rest) ↔
      ∃ digits, cs = digits ++ '_' :: rest ∧ NumberText .lenient .ten n.toNat digits := by
  constructor
  · intro h
    rw [readVectorLength] at h
    split at h
    · cases h
    next m mid hm =>
      obtain ⟨digits, rfl, hd, -⟩ := readLength_eq_ok_iff.1 hm
      split at h
      next hlt =>
        split at h
        next rest' hr =>
          cases h
          refine ⟨digits, by rw [expect_eq_ok_iff.1 hr], ?_⟩
          rwa [UInt32.toNat_ofNat_of_lt' hlt]
        next => cases h
      next => cases h
  · rintro ⟨digits, rfl, hd⟩
    have hs : Radix.ten.Stops ('_' :: rest) := Radix.stops_cons.2 rfl
    have hl := readLength_eq_ok_iff.2 ⟨digits, rfl, hd, hs⟩
    have hx : expect '_' ('_' :: rest) = .ok rest := expect_eq_ok_iff.2 rfl
    simp only [readVectorLength, hl, hx, if_pos n.toNat_lt_size, UInt32.ofNat_toNat]

/-! ### Names -/

/-- The bytes of a text are those of the string that holds it. -/
theorem utf8ByteSize_ofList (cs : List Char) : (String.ofList cs).utf8ByteSize = byteCount cs := by
  induction cs with
  | nil => rfl
  | cons c cs ih => rw [byteCount_cons, ← ih, String.ofList_cons]; simp

theorem byteCount_toList (s : String) : byteCount s.toList = s.utf8ByteSize := by
  rw [← utf8ByteSize_ofList, String.ofList_toList]

theorem length_le_byteCount (cs : List Char) : cs.length ≤ byteCount cs := by
  induction cs with
  | nil => exact Nat.le_refl 0
  | cons c cs ih =>
    have := c.utf8Size_pos
    rw [byteCount_cons, List.length_cons]
    omega

theorem length_le_utf8ByteSize (s : String) : s.length ≤ s.utf8ByteSize := by
  have h := length_le_byteCount s.toList
  rwa [byteCount_toList, String.length_toList] at h

/-- Reading a name that is not empty accepts exactly its spellings. -/
theorem readName_eq_ok_iff {cs rest : List Char} {name : String} (hne : name ≠ "") :
    readName cs = .ok (name, rest) ↔
      ∃ front, cs = front ++ rest ∧ NameText .lenient name front := by
  constructor
  · intro h
    rw [readName] at h
    split at h
    · cases h
    next n mid hn =>
      split at h
      next front back hb =>
        cases h
        obtain ⟨digits, rfl, hd, hs⟩ := readLength_eq_ok_iff.1 hn
        obtain ⟨rfl, rfl⟩ := splitBytes?_eq_some_iff.1 hb
        cases front with
        | nil => exact absurd rfl hne
        | cons c tail =>
          refine ⟨digits ++ c :: tail, by simp, c, tail, digits, String.toList_ofList,
            Radix.stops_cons.1 hs, ?_, rfl⟩
          rwa [utf8ByteSize_ofList]
      next => cases h
  · rintro ⟨front, rfl, c, tail, digits, hname, hc, hd, rfl⟩
    obtain rfl : name = String.ofList (c :: tail) := by rw [← hname, String.ofList_toList]
    have hs : Radix.ten.Stops (c :: tail ++ rest) := Radix.stops_cons.2 hc
    have hl : readLength (digits ++ c :: tail ++ rest) = .ok (_, c :: tail ++ rest) :=
      readLength_eq_ok_iff.2 ⟨digits, by simp, hd, hs⟩
    have hb : splitBytes? (String.ofList (c :: tail)).utf8ByteSize (c :: tail ++ rest)
        = some (c :: tail, rest) :=
      splitBytes?_eq_some_iff.2 ⟨rfl, (utf8ByteSize_ofList _).symm⟩
    simp only [readName, hl, hb]

/-! ### References -/

/-- The digits of a number below the bound are few. -/
theorem counted_digits {n : Nat} (h : n < numberBound) : Counted (Radix.thirtySix.digits n) := by
  refine counted_of_length_lt (Radix.digits_ne_nil _ _) ?_
  calc (Radix.thirtySix.digits n).length
      ≤ (Radix.thirtySix.digits numberBound).length := Radix.length_digits_le _ (Nat.le_of_lt h)
    _ < UInt32.size := by decide +kernel

theorem readReference_eq_ok_iff {start cs rest : List Char} {i : Nat} :
    readReference start cs = .ok (i, rest) ↔
      ∃ front, 'S' :: cs = front ++ rest ∧ ReferenceText .lenient i front := by
  constructor
  · intro h
    simp only [readReference, Radix.valueUpTo_eq] at h
    split at h
    next rest' hr =>
      cases h
      exact ⟨['S', '_'], by rw [after?_eq_some_iff.1 hr]; rfl, .first⟩
    next =>
      split at h
      · cases h
      next hc =>
        obtain ⟨hd, hv⟩ := not_or.1 hc
        split at h
        next rest' hx =>
          cases h
          have hv : Radix.thirtySix.value (cs.takeWhile Radix.thirtySix.isDigit) < numberBound := by
            omega
          rw [Nat.min_eq_right (Nat.le_of_lt hv)]
          have hd := Decidable.not_not.1 hd
          refine ⟨_, ?_, .later (numberText_takeWhile hd.ne_nil hv) hd⟩
          have hcut := @List.takeWhile_append_dropWhile _ Radix.thirtySix.isDigit cs
          rw [expect_eq_ok_iff.1 hx] at hcut
          simp [hcut]
        next => cases h
  · rintro ⟨front, hf, hr⟩
    cases hr with
    | first =>
      obtain rfl : cs = '_' :: rest := by simpa using hf
      have ha : after? ['_'] ('_' :: rest) = some rest := after?_eq_some_iff.2 rfl
      simp only [readReference, ha]
    | @later n digits hn hcount =>
      obtain rfl : cs = digits ++ '_' :: rest := by simpa using hf
      obtain ⟨c, tail, rfl, hc⟩ := hn.head
      obtain ⟨hlt, hne, hd, rfl⟩ := hn
      have hs : Radix.thirtySix.Stops ('_' :: rest) := Radix.stops_cons.2 rfl
      obtain ⟨ht, hr⟩ := hs.span hd
      have ha : after? ['_'] (c :: tail ++ '_' :: rest) = none := by
        have hne : c ≠ '_' := by rintro rfl; exact absurd hc (by decide)
        simp [after?, hne]
      have hx : expect '_' ('_' :: rest) = .ok rest := expect_eq_ok_iff.2 rfl
      simp only [readReference, Radix.valueUpTo_eq, ha, ht, hr, hx,
        Nat.min_eq_right (Nat.le_of_lt hlt)]
      rw [if_neg (by simp [hcount, hlt])]

/-! ### Attributes -/

/-- A text that cannot be taken for more attributes of a pointer. -/
def NoAttrs (cs : List Char) : Prop := ∀ c ∈ cs.head?, c ∉ ['U', 'r', 'V', 'K']

theorem after?_eq_none {es cs : List Char} {e : Char} (h : e ∉ cs.head?) :
    after? (e :: es) cs = none := by
  cases cs with
  | nil => rfl
  | cons c cs =>
    have hc : c ≠ e := by simpa using h
    simp [after?, hc]

/-- The text of a qualifier that may be there. -/
def Qualifier.flagText (q : Qualifier) (on : Bool) : List Char := if on then [q.letter] else []

/-- The letters of a set are the texts of its three flags. -/
theorem QualifierSet.map_letter_toList (qs : QualifierSet) :
    qs.toList.map Qualifier.letter
      = Qualifier.flagText .restrict qs.restrict ++ Qualifier.flagText .volatile qs.volatile
        ++ Qualifier.flagText .const qs.const := by
  rw [QualifierSet.restrict, QualifierSet.volatile, QualifierSet.const]
  cases hr : qs.contains .restrict <;> cases hv : qs.contains .volatile <;>
    cases hk : qs.contains .const <;>
    simp [QualifierSet.toList, Qualifier.all, Qualifier.flagText, hr, hv, hk]

/-- A flag in front of a text adds nothing but its letter to what the text may start with. -/
theorem Qualifier.head?_flagText_append {c : Char} (q : Qualifier) (on : Bool) {cs : List Char}
    (hq : c ≠ q.letter) (h : c ∉ cs.head?) : c ∉ (q.flagText on ++ cs).head? := by
  cases on with
  | false => exact h
  | true => simpa [flagText] using hq.symm

/-- A flag in front of a text that does not start with its letter is read if it is there. -/
theorem readQualifier_append {q : Qualifier} {cs : List Char} (on : Bool)
    (h : q.letter ∉ cs.head?) : readQualifier q (q.flagText on ++ cs) = (on, cs) := by
  cases on with
  | true => simp [readQualifier, Qualifier.flagText, after?]
  | false => simp [readQualifier, Qualifier.flagText, after?_eq_none h]

/-- What was read of a flag is its text. -/
theorem flagText_readQualifier (q : Qualifier) (cs : List Char) :
    q.flagText (readQualifier q cs).1 ++ (readQualifier q cs).2 = cs := by
  rw [readQualifier]
  split
  next h => rw [after?_eq_some_iff.1 h]; rfl
  next => rfl

theorem readQualifiers_append {qs : QualifierSet} (hq : qs.Known) {cs : List Char}
    (h : NoAttrs cs) :
    readQualifiers (qs.toList.map Qualifier.letter ++ cs) = (qs, cs) := by
  have hr : Qualifier.restrict.letter ∉ cs.head? := fun hm => h _ hm (by decide)
  have hv : Qualifier.volatile.letter ∉ cs.head? := fun hm => h _ hm (by decide)
  have hk : Qualifier.const.letter ∉ cs.head? := fun hm => h _ hm (by decide)
  have hvk := Qualifier.head?_flagText_append .const qs.const (by decide) hv
  have hrvk := Qualifier.head?_flagText_append .volatile qs.volatile (by decide)
    (Qualifier.head?_flagText_append .const qs.const (by decide) hr)
  rw [QualifierSet.map_letter_toList, List.append_assoc, List.append_assoc, readQualifiers,
    readQualifier_append qs.restrict hrvk]
  simp only [readQualifier_append qs.volatile hvk, readQualifier_append qs.const hk, hq.ofFlags_eq]

/-- What was read of the qualifiers is their letters. -/
theorem map_letter_readQualifiers (cs : List Char) :
    (readQualifiers cs).1.toList.map Qualifier.letter ++ (readQualifiers cs).2 = cs := by
  rw [QualifierSet.map_letter_toList, List.append_assoc, List.append_assoc]
  simp only [readQualifiers, QualifierSet.restrict_ofFlags, QualifierSet.volatile_ofFlags,
    QualifierSet.const_ofFlags, flagText_readQualifier]

/-- What is read of qualifiers is a set of qualifiers alone. -/
theorem known_readQualifiers (cs : List Char) : (readQualifiers cs).1.Known :=
  QualifierSet.known_ofFlags ..

theorem AddressSpace.digits_number (s : AddressSpace) :
    Radix.ten.digits s.number = [Radix.digitChar s.number] := by
  rw [Radix.digits, if_pos (by cases s <;> decide)]

theorem readSpace_append {space : Option AddressSpace} {front cs : List Char}
    (h : SpaceText .lenient space front) (hcs : space = none → 'U' ∉ cs.head?) :
    readSpace (front ++ cs) = .ok (space, cs) := by
  cases h with
  | silent => simp [readSpace, after?_eq_none (hcs rfl)]
  | spelled s =>
    have ha : after? ['U', '3', 'A', 'S']
        (['U', '3', 'A', 'S'] ++ Radix.ten.digits s.number ++ cs)
          = some (Radix.digitChar s.number :: cs) := by
      rw [after?_eq_some_iff, s.digits_number]
      rfl
    have hd : (Radix.digitChar s.number).isDigit = true := by cases s <;> decide
    have hv : AddressSpace.ofNumber (Radix.digitValue (Radix.digitChar s.number)) = .ok s := by
      rw [Radix.digitValue_digitChar (by cases s <;> decide), AddressSpace.ofNumber_number]
    simp only [readSpace, ha, hd, hv, if_true]

theorem spaceText_of_readSpace {space : Option AddressSpace} {cs rest : List Char}
    (h : readSpace cs = .ok (space, rest)) :
    ∃ front, cs = front ++ rest ∧ SpaceText .lenient space front := by
  rw [readSpace] at h
  split at h
  next =>
    cases h
    exact ⟨[], rfl, .silent⟩
  next => cases h
  next d tail ha =>
    split at h
    next hd =>
      split at h
      next s hs =>
        cases h
        refine ⟨_, ?_, .spelled s fun h => absurd h (by decide)⟩
        -- the digit that was read is the digit that the address space is written with
        have hdigit : Radix.digitChar s.number = d := by
          rw [AddressSpace.number_of_ofNumber hs, Radix.digitChar_digitValue hd]
        rw [after?_eq_some_iff.1 ha, s.digits_number, hdigit]
        rfl
      next => cases h
    next => cases h

/-- Where no attributes follow, the qualifiers do not start like an address space. -/
theorem QualifierSet.head?_letters_append (qs : QualifierSet) {cs : List Char} (h : NoAttrs cs) :
    'U' ∉ (qs.toList.map Qualifier.letter ++ cs).head? := by
  rw [QualifierSet.map_letter_toList, List.append_assoc, List.append_assoc]
  exact Qualifier.head?_flagText_append _ _ (by decide)
    (Qualifier.head?_flagText_append _ _ (by decide)
      (Qualifier.head?_flagText_append _ _ (by decide) fun hm => h _ hm (by decide)))

theorem readAttrs_append {a : PointerAttrs} {spelled : Bool} {front cs : List Char}
    (h : AttrsText .lenient a spelled front) (hcs : NoAttrs cs) :
    readAttrs (front ++ cs) = .ok ((a, spelled), cs) := by
  obtain ⟨hs, hq⟩ := h
  rw [List.append_assoc]
  simp only [readAttrs, readSpace_append hs fun _ => QualifierSet.head?_letters_append _ hcs,
    readQualifiers_append hq hcs]

theorem attrsText_of_readAttrs {a : PointerAttrs} {spelled : Bool} {cs rest : List Char}
    (h : readAttrs cs = .ok ((a, spelled), rest)) :
    ∃ front, cs = front ++ rest ∧ AttrsText .lenient a spelled front := by
  rw [readAttrs] at h
  split at h
  · cases h
  next space mid hs =>
    simp only [Except.ok.injEq, Prod.mk.injEq] at h
    obtain ⟨⟨rfl, rfl⟩, rfl⟩ := h
    obtain ⟨front, rfl, ht⟩ := spaceText_of_readSpace hs
    refine ⟨_, ?_, .mk ht (known_readQualifiers mid)⟩
    rw [List.append_assoc, map_letter_readQualifiers]

end KernelSymbol
