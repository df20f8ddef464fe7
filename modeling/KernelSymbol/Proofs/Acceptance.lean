import KernelSymbol.Proofs.Building
import KernelSymbol.Proofs.Derivation
import KernelSymbol.Proofs.Descent

/-!
# The decoder accepts the symbols of the grammar

A text is decoded exactly if the lenient grammar derives it, and then into what the grammar says
it stands for. Both directions are by recursive descent: one for each constructor of the grammar,
by induction on the derivation, and one for each branch of the reader, by induction on the text.
The table of the decoder is the table of the derivation throughout, with nodes in the place of
types.

## Main definitions

* `StemText` — a spelling of the innermost part of a parameter
* `Decoder.Accepts` — what reading one parameter owes, whether it succeeds or not
* `symbolComponents` — the components that a decoder has at the end of a symbol

## Main results

* `TypeText.descend`, `Decoder.Valid.descend` — one parameter, in both directions
* `SymbolText.decode`, `symbolText_components` — whole symbols, in both directions
* `Pool.Valid.of_decode` — a fault, too, leaves a later state of the pool
-/

namespace KernelSymbol

/-! ### Stems -/

/-- `StemText stem front rest`: in front of `rest`, the text `front` is a spelling of a stem. -/
inductive StemText : Stem → List Char → List Char → Prop where
  | letter {b : Builtin} {c : Char} {rest : List Char} (h : b.spelling = .letter c) :
    StemText (.builtin b) [c] rest
  | extended {b : Builtin} {c : Char} {rest : List Char} (h : b.spelling = .extended c) :
    StemText (.builtin b) ['D', c] rest
  | source {b : Builtin} {name : String} {cs rest : List Char} (h : b.spelling = .source name)
    (hn : NameText .lenient name cs) : StemText (.builtin b) cs rest
  | named {name : String} {cs rest : List Char} (h : ∀ b : Builtin, b.spelling ≠ .source name)
    (hn : NameText .lenient name cs) : StemText (.named name (cs ++ rest)) cs rest
  | reference {i : Nat} {cs rest : List Char} (hr : ReferenceText .lenient i cs) :
    StemText (.reference i (cs ++ rest)) cs rest

/-- A name is read as the builtin with its spelling, or else as a named type. -/
theorem readStem_append {name : String} {cs rest : List Char} (hn : NameText .lenient name cs) :
    readStem (cs ++ rest) = match Builtin.ofSpelling? (.source name) with
      | some b => .ok (.builtin b, rest)
      | none => .ok (.named name (cs ++ rest), rest) := by
  have hr : readName (cs ++ rest) = .ok (name, rest) :=
    (readName_eq_ok_iff hn.ne_empty).2 ⟨cs, rfl, hn⟩
  obtain ⟨c, tail, rfl, hc⟩ := hn.head
  have hS : c ≠ 'S' := by rintro rfl; cases hc
  have hD : c ≠ 'D' := by rintro rfl; cases hc
  rw [List.cons_append] at hr ⊢
  have hstem : readStem (c :: (tail ++ rest)) = readNamed (c :: (tail ++ rest)) := by
    simp only [readStem, if_neg hS, if_neg hD, if_pos hc]
  rw [hstem]
  cases hb : Builtin.ofSpelling? (.source name) <;> simp only [readNamed, hr, hb]

theorem StemText.readStem {stem : Stem} {front rest : List Char} (h : StemText stem front rest) :
    readStem (front ++ rest) = .ok (stem, rest) := by
  cases h with
  | @letter b c rest hb =>
    obtain ⟨hc, hd⟩ := b.letter_spelling hb
    have hS : c ≠ 'S' := by rintro rfl; exact hc (by decide)
    have hD : c ≠ 'D' := by rintro rfl; exact hc (by decide)
    have ho := Builtin.ofSpelling?_eq_some_iff.2 hb
    simp [KernelSymbol.readStem, hS, hD, hd, readBuiltin, ho]
  | extended hb =>
    have ho := Builtin.ofSpelling?_eq_some_iff.2 hb
    simp [KernelSymbol.readStem, readExtended, readBuiltin, ho]
  | source hb hn => rw [readStem_append hn, Builtin.ofSpelling?_eq_some_iff.2 hb]
  | named hb hn => rw [readStem_append hn, Builtin.ofSpelling?_eq_none_iff.2 hb]
  | reference hr =>
    obtain ⟨tail, rfl, -⟩ := hr.head
    have hi : readReference ('S' :: (tail ++ rest)) (tail ++ rest) = .ok (_, rest) :=
      readReference_eq_ok_iff.2 ⟨'S' :: tail, rfl, hr⟩
    simp [KernelSymbol.readStem, readTypeReference, hi]

theorem StemText.after?_eq_none {stem : Stem} {front rest : List Char}
    (h : StemText stem front rest) :
    after? ['D', 'v'] (front ++ rest) = none ∧ after? ['P'] (front ++ rest) = none := by
  have digit : ∀ {name : String} {cs : List Char}, NameText .lenient name cs →
      after? ['D', 'v'] (cs ++ rest) = none ∧ after? ['P'] (cs ++ rest) = none := by
    intro name cs hn
    obtain ⟨c, tail, rfl, hc⟩ := hn.head
    have hD : c ≠ 'D' := by rintro rfl; cases hc
    have hP : c ≠ 'P' := by rintro rfl; cases hc
    simp [after?, hD, hP]
  cases h with
  | @letter b c rest hb =>
    obtain ⟨hc, -⟩ := b.letter_spelling hb
    have hD : c ≠ 'D' := by rintro rfl; exact hc (by decide)
    have hP : c ≠ 'P' := by rintro rfl; exact hc (by decide)
    simp [after?, hD, hP]
  | extended hb => simp [after?, Builtin.extended_spelling hb]
  | source hb hn | named hb hn => exact digit hn
  | reference hr =>
    obtain ⟨tail, rfl, -⟩ := hr.head
    simp [after?]

/-- What was read of a builtin is its spelling. -/
theorem exists_of_readBuiltin {sp : Spelling} {c : Char} {place cs rest : List Char} {stem : Stem}
    (h : readBuiltin sp c place cs = .ok (stem, rest)) :
    ∃ b : Builtin, stem = .builtin b ∧ b.spelling = sp ∧ cs = rest := by
  rw [readBuiltin] at h
  split at h
  next b ho =>
    cases h
    exact ⟨b, rfl, Builtin.ofSpelling?_eq_some_iff.1 ho, rfl⟩
  next => cases h

/-- What was read of a name is a spelling of a builtin or of a named type, unless the name was of
length zero. -/
theorem stemText_of_readNamed {cs rest : List Char} {stem : Stem}
    (h : readNamed cs = .ok (stem, rest)) :
    (∃ place, stem = .named "" place) ∨ ∃ front, cs = front ++ rest ∧ StemText stem front rest := by
  rw [readNamed] at h
  split at h
  next => cases h
  next name tail hn =>
    by_cases hne : name = ""
    · subst hne
      cases h
      exact .inl ⟨_, rfl⟩
    · obtain ⟨front, hf, ht⟩ := (readName_eq_ok_iff hne).1 hn
      split at h
      next b ho =>
        cases h
        exact .inr ⟨front, hf, .source (Builtin.ofSpelling?_eq_some_iff.1 ho) ht⟩
      next ho =>
        cases h
        rw [hf]
        exact .inr ⟨front, rfl, .named (Builtin.ofSpelling?_eq_none_iff.1 ho) ht⟩

/-- What was read of a stem is a spelling of it, unless it was a name of length zero. -/
theorem stemText_of_readStem {stem : Stem} {cs rest : List Char}
    (h : readStem cs = .ok (stem, rest)) :
    (∃ place, stem = .named "" place) ∨ ∃ front, cs = front ++ rest ∧ StemText stem front rest := by
  cases cs with
  | nil => cases h
  | cons c cs =>
    rw [readStem] at h
    split at h
    next hS =>
      rw [readTypeReference] at h
      split at h
      next i tail hr =>
        cases h
        subst hS
        obtain ⟨front, hf, hr⟩ := readReference_eq_ok_iff.1 hr
        rw [hf]
        exact .inr ⟨front, rfl, .reference hr⟩
      next => cases h
    next =>
      split at h
      next hD =>
        subst hD
        cases cs with
        | nil => cases h
        | cons d cs =>
          obtain ⟨b, rfl, hb, rfl⟩ := exists_of_readBuiltin h
          exact .inr ⟨['D', d], rfl, .extended hb⟩
      next =>
        split at h
        next => exact stemText_of_readNamed h
        next =>
          obtain ⟨b, rfl, hb, rfl⟩ := exists_of_readBuiltin h
          exact .inr ⟨[c], rfl, .letter hb⟩

/-! ### One parameter -/

namespace Decoder

/-- What reading one parameter owes. A success is a spelling of a type, which was built; a fault
leaves a later state of the pool. -/
def Accepts (d : Decoder) (cs : List Char) : Read Handle × Decoder → Prop
  | (.ok (h, rest), d') => ∃ front t table, cs = front ++ rest ∧
      TypeText .lenient d.types front t table ∧ Builds d t table (h, d')
  | (.error _, d') => d'.pool.Valid ∧ d.pool.Extends d'.pool

variable {d : Decoder}

theorem Valid.accepts_error (hd : d.Valid) (cs : List Char) (e : Fault) :
    Accepts d cs (.error e, d) := ⟨hd.pool, .refl _⟩

/-- Where a stem stands, its type is built, or there is a fault and nothing is. -/
theorem Valid.resolve (hd : d.Valid) {stem : Stem} {front rest : List Char}
    (h : StemText stem front rest) :
    Accepts d (front ++ rest) (match d.resolve stem with
      | (.ok h, d) => (.ok (h, rest), d)
      | (.error e, d) => (.error e, d)) := by
  cases h with
  | letter hb => exact ⟨_, _, _, rfl, .letter hb, hd.builtin _⟩
  | extended hb => exact ⟨_, _, _, rfl, .extended hb, hd.builtin _⟩
  | source hb hn => exact ⟨_, _, _, rfl, .source hb hn, hd.builtin _⟩
  | named hb hn =>
    obtain ⟨r, hr, hB⟩ := hd.named hn.ne_empty
    simp only [Decoder.resolve, hr]
    exact ⟨_, _, _, rfl, .named hb hn, hB⟩
  | @reference i cs rest hr =>
    simp only [Decoder.resolve, component]
    cases hi : d.table[i]? with
    | none => exact hd.accepts_error _ _
    | some c =>
      cases c with
      | qualified a h => exact hd.accepts_error _ _
      | whole h =>
        have hm : h ∈ d.pool.nodes := hd.mem _ (Array.mem_of_getElem? hi)
        have ht : d.types[i]? = some (.whole h.type) := by rw [types_getElem?, hi]; rfl
        exact ⟨_, _, _, rfl, .reference ht hr, hd.builds_self hm⟩

/-- A pointer to what is referred to is built, or there is a fault and nothing is. -/
theorem Valid.resolve_pointerTo (hd : d.Valid) {i : Nat} {front : List Char}
    (place rest : List Char) (h : ReferenceText .lenient i front) :
    Accepts d ('P' :: front ++ rest) (match d.resolve (.pointerTo i place) with
      | (.ok h, d) => (.ok (h, rest), d)
      | (.error e, d) => (.error e, d)) := by
  simp only [Decoder.resolve, component]
  cases hi : d.table[i]? with
  | none => exact hd.accepts_error _ _
  | some c =>
    cases c with
    | whole h' =>
      have hm : h' ∈ d.pool.nodes := hd.mem _ (Array.mem_of_getElem? hi)
      have ht : d.types[i]? = some (.whole h'.type) := by rw [types_getElem?, hi]; rfl
      exact ⟨_, _, _, rfl, .pointerTo ht h, hd.pointer .plain hm⟩
    | qualified a h' =>
      have hm : h' ∈ d.pool.nodes := hd.mem _ (Array.mem_of_getElem? hi)
      have ht : d.types[i]? = some (.qualified a h'.type) := by rw [types_getElem?, hi]; rfl
      exact ⟨_, _, _, rfl, .pointerToQualified ht h, hd.pointer a hm⟩

/-- Closing a pointer around what was built. -/
theorem Builds.pointer (hd : d.Valid) {t : ArgType} {table : List (Component ArgType)}
    {r : Handle × Decoder} (h : Builds d t table r) (a : PointerAttrs) (spelled : Bool) :
    ∃ r', r.2.closeOne r.1 (.pointer a spelled) = (.ok r'.1, r'.2) ∧
      Builds d (.pointer a t)
        (table ++ (if spelled then [.qualified a t] else []) ++ [.whole (.pointer a t)]) r' := by
  obtain ⟨rfl, rfl⟩ : r.1.type = t ∧ r.2.types = table := ⟨h.yields.type_eq, h.types_eq⟩
  have hm : r.1 ∈ r.2.pool.nodes := h.yields.mem
  refine ⟨(if spelled then r.2.record (.qualified a r.1) else r.2).pointer a r.1, rfl,
    h.around hd ?_⟩
  cases spelled with
  | false =>
    rw [if_neg Bool.false_ne_true, if_neg Bool.false_ne_true, List.append_nil]
    exact h.valid.pointer a hm
  | true =>
    have hB := (h.valid.record (c := .qualified a r.1) hm).pointer a hm
    rw [types_record] at hB
    exact ⟨hB.yields, hB.mem, hB.types_eq⟩

/-- Closing a vector around what was built. -/
theorem Builds.vector (hd : d.Valid) {t : ArgType} {table : List (Component ArgType)}
    {r : Handle × Decoder} (h : Builds d t table r) {n : UInt32} (hn : n ≠ 0)
    (hs : t.isScalar = true) :
    ∃ r', (∀ place, r.2.closeOne r.1 (.vector n place) = (.ok r'.1, r'.2)) ∧
      Builds d (.cons (.vector n) t) (table ++ [.whole (.cons (.vector n) t)]) r' := by
  obtain ⟨rfl, rfl⟩ : r.1.type = t ∧ r.2.types = table := ⟨h.yields.type_eq, h.types_eq⟩
  obtain ⟨r', hr, hB⟩ := h.valid.vector h.yields.mem hn hs
  exact ⟨r', hr, h.around hd hB⟩

/-- Recursive descent accepts what the grammar derives, and nothing else. -/
theorem Valid.descend (hd : d.Valid) (cs : List Char) : Accepts d cs (d.descend cs) := by
  fun_induction Decoder.descend d cs with
  | case1 cs rest hv e hn => exact hd.accepts_error _ _
  | case2 cs rest hv n rest' hn ih =>
    rcases hr : d.descend rest' with ⟨e | ⟨g, rest''⟩, d'⟩
    · rw [hr] at ih
      exact ih
    · rw [hr] at ih
      obtain ⟨front, t, table, rfl, ht, hB⟩ := ih
      obtain ⟨digits, rfl, hdigits⟩ := readVectorLength_eq_ok_iff.1 hn
      cases hc : ArgType.checkVector n g.type with
      | error e =>
        simp only [inside, closeOne, vector_of_error _ hc]
        exact ⟨hB.yields.valid, hB.yields.grows⟩
      | ok =>
        rw [show g.type = t from hB.yields.type_eq] at hc
        obtain ⟨hn, hs⟩ := ArgType.checkVector_eq_ok_iff.1 hc
        obtain ⟨⟨g', e⟩, hr', hB'⟩ := hB.vector hd hn hs
        dsimp only at hr'
        simp only [inside, hr']
        refine ⟨_, _, _, ?_, .vector hn hs hdigits ht, hB'⟩
        rw [after?_eq_some_iff.1 hv]
        simp
  | case3 cs hv rest hp rest' hS e hr => exact hd.accepts_error _ _
  | case4 cs hv rest hp rest' hS i rest'' hr g d' hg =>
    obtain ⟨front, hf, hi⟩ := readReference_eq_ok_iff.1 hr
    have hA := hd.resolve_pointerTo rest rest'' hi
    rw [hg] at hA
    have hcs : cs = 'P' :: (front ++ rest'') := by
      rw [← hf, after?_eq_some_iff.1 hp, after?_eq_some_iff.1 hS]
      rfl
    rwa [hcs]
  | case5 cs hv rest hp rest' hS i rest'' hr e d' he =>
    obtain ⟨front, hf, hi⟩ := readReference_eq_ok_iff.1 hr
    have hA := hd.resolve_pointerTo rest rest'' hi
    rw [he] at hA
    exact hA
  | case6 cs hv rest hp hS e ha => exact hd.accepts_error _ _
  | case7 cs hv rest hp hS attrs spelled rest' ha ih =>
    rcases hr : d.descend rest' with ⟨e | ⟨g, rest''⟩, d'⟩
    · rw [hr] at ih
      exact ih
    · rw [hr] at ih
      obtain ⟨front, t, table, rfl, ht, hB⟩ := ih
      obtain ⟨as, rfl, hattrs⟩ := attrsText_of_readAttrs ha
      obtain ⟨⟨g', e⟩, hr', hB'⟩ := hB.pointer hd attrs spelled
      dsimp only at hr'
      simp only [inside, hr']
      refine ⟨_, _, _, ?_, .pointer hattrs ?_ ht, hB'⟩
      · rw [after?_eq_some_iff.1 hp]
        simp
      · rintro rfl hfront
        obtain ⟨-, rfl⟩ := hattrs.of_not_spelled
        obtain ⟨tail, rfl⟩ := List.head?_eq_some_iff.1 hfront
        simp [after?] at hS
  | case8 cs hv hp e hs => exact hd.accepts_error _ _
  | case9 cs hv hp stem rest hs g d' hg =>
    rcases stemText_of_readStem hs with ⟨place, rfl⟩ | ⟨front, rfl, hstem⟩
    · cases hg
    · have hA := hd.resolve hstem
      rwa [hg] at hA
  | case10 cs hv hp stem rest hs e d' he =>
    rcases stemText_of_readStem hs with ⟨place, rfl⟩ | ⟨front, rfl, hstem⟩
    · cases he
      exact hd.accepts_error _ _
    · have hA := hd.resolve hstem
      rwa [he] at hA

theorem descend_stem {stem : Stem} {front rest : List Char} (h : StemText stem front rest) :
    d.descend (front ++ rest) = match d.resolve stem with
      | (.ok h, d) => (.ok (h, rest), d)
      | (.error e, d) => (.error e, d) := by
  obtain ⟨hv, hp⟩ := h.after?_eq_none
  have hdescend := descend_eq d (front ++ rest)
  simp only [hv, hp, h.readStem] at hdescend
  exact hdescend

/-- A reference behind a `P` is read and resolved as a pointer. -/
theorem descend_pointerTo {i : Nat} {front rest : List Char} (h : ReferenceText .lenient i front) :
    d.descend ('P' :: front ++ rest) = match d.resolve (.pointerTo i (front ++ rest)) with
      | (.ok h, d) => (.ok (h, rest), d)
      | (.error e, d) => (.error e, d) := by
  obtain ⟨tail, rfl, -⟩ := h.head
  have hv : after? ['D', 'v'] ('P' :: 'S' :: tail ++ rest) = none := by simp [after?]
  have hp : after? ['P'] ('P' :: 'S' :: tail ++ rest) = some ('S' :: tail ++ rest) :=
    after?_eq_some_iff.2 (by simp)
  have hS : after? ['S'] ('S' :: tail ++ rest) = some (tail ++ rest) :=
    after?_eq_some_iff.2 (by simp)
  have hi : readReference ('S' :: tail ++ rest) (tail ++ rest) = .ok (i, rest) :=
    readReference_eq_ok_iff.2 ⟨'S' :: tail, rfl, h⟩
  have hdescend := descend_eq d ('P' :: 'S' :: tail ++ rest)
  simp only [hv, hp, hS, hi] at hdescend
  exact hdescend

/-- A vector is read as its element, with the vector built around it. -/
theorem descend_vector {n : UInt32} {digits cs rest : List Char}
    (h : NumberText .lenient .ten n.toNat digits) :
    d.descend (['D', 'v'] ++ digits ++ ['_'] ++ cs ++ rest) =
      inside (d.descend (cs ++ rest)) fun d h =>
        d.closeOne h (.vector n (['D', 'v'] ++ digits ++ ['_'] ++ cs ++ rest)) := by
  have hv : after? ['D', 'v'] (['D', 'v'] ++ digits ++ ['_'] ++ cs ++ rest)
      = some (digits ++ '_' :: (cs ++ rest)) := after?_eq_some_iff.2 (by simp)
  have hl : readVectorLength (digits ++ '_' :: (cs ++ rest)) = .ok (n, cs ++ rest) :=
    readVectorLength_eq_ok_iff.2 ⟨digits, rfl, h⟩
  rw [descend_eq]
  simp only [hv, hl]

/-- A pointer is read as what it points to, with the pointer built around it. -/
theorem descend_pointer {a : PointerAttrs} {spelled : Bool} {t : ArgType}
    {table table' : List (Component ArgType)} {as cs rest : List Char}
    (ha : AttrsText .lenient a spelled as) (hs : spelled = false → cs.head? ≠ some 'S')
    (ht : TypeText .lenient table cs t table') :
    d.descend ('P' :: as ++ cs ++ rest) =
      inside (d.descend (cs ++ rest)) fun d h => d.closeOne h (.pointer a spelled) := by
  obtain ⟨c, tail, rfl, hc⟩ := ht.head
  have hv : after? ['D', 'v'] ('P' :: as ++ (c :: tail) ++ rest) = none := by simp [after?]
  have hp : after? ['P'] ('P' :: as ++ (c :: tail) ++ rest) = some (as ++ (c :: tail ++ rest)) :=
    after?_eq_some_iff.2 (by simp)
  have hS : after? ['S'] (as ++ (c :: tail ++ rest)) = none :=
    after?_eq_none (ha.head_append fun hf => by simpa using hs hf)
  have hattrs : readAttrs (as ++ (c :: tail ++ rest)) = .ok ((a, spelled), c :: tail ++ rest) :=
    readAttrs_append ha fun d hd => by
      obtain rfl : c = d := by simpa using hd
      exact hc
  rw [descend_eq]
  simp only [hv, hp, hS, hattrs]

theorem Valid.exists_whole (hd : d.Valid) {i : Nat} {t : ArgType}
    (h : d.types[i]? = some (.whole t)) :
    ∃ k ∈ d.pool.nodes, d.table[i]? = some (.whole k) ∧ k.type = t := by
  rw [types_getElem?] at h
  obtain ⟨c, hc, ht⟩ := Option.map_eq_some_iff.1 h
  have hm := hd.mem c (Array.mem_of_getElem? hc)
  cases c with
  | qualified a k => cases ht
  | whole k =>
    cases ht
    exact ⟨k, hm, hc, rfl⟩

theorem Valid.exists_qualified (hd : d.Valid) {i : Nat} {a : PointerAttrs} {t : ArgType}
    (h : d.types[i]? = some (.qualified a t)) :
    ∃ k ∈ d.pool.nodes, d.table[i]? = some (.qualified a k) ∧ k.type = t := by
  rw [types_getElem?] at h
  obtain ⟨c, hc, ht⟩ := Option.map_eq_some_iff.1 h
  have hm := hd.mem c (Array.mem_of_getElem? hc)
  cases c with
  | whole k => cases ht
  | qualified b k =>
    cases ht
    exact ⟨k, hm, hc, rfl⟩

end Decoder

/-- What the grammar derives is read by recursive descent, whatever follows it. -/
theorem TypeText.descend {d : Decoder} (hd : d.Valid) {table : List (Component ArgType)}
    {cs : List Char} {t : ArgType} (h : TypeText .lenient d.types cs t table) :
    ∃ r, (∀ rest, d.descend (cs ++ rest) = (.ok (r.1, rest), r.2)) ∧ d.Builds t table r := by
  induction h with
  | letter hb =>
    exact ⟨_, fun rest => Decoder.descend_stem (.letter hb), hd.builtin _⟩
  | extended hb =>
    exact ⟨_, fun rest => Decoder.descend_stem (.extended hb), hd.builtin _⟩
  | source hb hn =>
    exact ⟨_, fun rest => Decoder.descend_stem (.source hb hn), hd.builtin _⟩
  | @named name cs hb hn =>
    obtain ⟨r, hr, hB⟩ := hd.named hn.ne_empty
    refine ⟨r, fun rest => ?_, hB⟩
    rw [Decoder.descend_stem (.named hb hn)]
    simp only [Decoder.resolve, hr]
  | reference hi hr =>
    obtain ⟨k, hm, hk, rfl⟩ := hd.exists_whole hi
    refine ⟨_, fun rest => ?_, hd.builds_self hm⟩
    rw [Decoder.descend_stem (.reference hr)]
    simp only [Decoder.resolve, Decoder.component, hk]
  | @vector table' n t digits cs hn hs hdigits ht ih =>
    obtain ⟨r, hr, hB⟩ := ih
    obtain ⟨r', hr', hB'⟩ := hB.vector hd hn hs
    refine ⟨r', fun rest => ?_, hB'⟩
    rw [Decoder.descend_vector hdigits]
    simp only [hr, Decoder.inside, hr']
  | pointerTo hi hr =>
    obtain ⟨k, hm, hk, rfl⟩ := hd.exists_whole hi
    refine ⟨_, fun rest => ?_, hd.pointer .plain hm⟩
    rw [Decoder.descend_pointerTo hr]
    simp only [Decoder.resolve, Decoder.component, hk]
  | @pointerToQualified i a t cs hi hr =>
    obtain ⟨k, hm, hk, rfl⟩ := hd.exists_qualified hi
    refine ⟨_, fun rest => ?_, hd.pointer a hm⟩
    rw [Decoder.descend_pointerTo hr]
    simp only [Decoder.resolve, Decoder.component, hk]
  | @pointer table' a spelled t as cs ha hs ht ih =>
    obtain ⟨r, hr, hB⟩ := ih
    obtain ⟨r', hr', hB'⟩ := hB.pointer hd a spelled
    refine ⟨r', fun rest => ?_, hB'⟩
    rw [Decoder.descend_pointer ha hs ht]
    simp only [hr, Decoder.inside, hr']

/-! ### Parameters -/

namespace Decoder

variable {d : Decoder}

@[simp] theorem readParams_nil (d : Decoder) (params : List Handle) :
    d.readParams params [] = (.ok params.reverse, d) := by
  rw [Decoder.readParams.eq_def, if_pos List.isEmpty_nil]

/-- One turn of reading parameters, as an equation without the fact that its recursion needs. -/
theorem readParams_of_not_isEmpty {cs : List Char} (he : ¬cs.isEmpty = true)
    {params : List Handle} :
    d.readParams params cs =
      match d.param cs with
      | (.error e, d) => (.error e, d)
      | (.ok (h, rest), d) => d.readParams (h :: params) rest := by
  rw [Decoder.readParams.eq_def, if_neg he]
  split
  next hp => rw [hp]
  next hp => rw [hp]

/-- What reading parameters behind those in `params` owes. -/
def AcceptsAll (d : Decoder) (params : List Handle) (cs : List Char) :
    Except Fault (List Handle) × Decoder → Prop
  | (.ok hs, d') => ∃ gs ts, hs = params.reverse ++ gs ∧
      TypesText .lenient d.types cs ts d'.types ∧ d.pool.YieldsAll ts (gs, d'.pool)
  | (.error _, d') => d'.pool.Valid ∧ d.pool.Extends d'.pool

/-- Parameters are accepted one after the other. -/
theorem Valid.readParams (hd : d.Valid) (params : List Handle) (cs : List Char) :
    AcceptsAll d params cs (d.readParams params cs) := by
  fun_induction Decoder.readParams d params cs with
  | case1 d params cs he =>
    obtain rfl := List.isEmpty_iff.1 he
    exact ⟨[], [], by simp, .nil, hd.pool.yieldsAll_nil⟩
  | case2 d params cs he e d' hp =>
    rw [param_eq_descend] at hp
    have hA := hd.descend cs
    rwa [hp] at hA
  | case3 d params cs he h rest d' hp ih =>
    rw [param_eq_descend] at hp
    have hA := hd.descend cs
    rw [hp] at hA
    obtain ⟨front, t, table, rfl, ht, hB⟩ := hA
    have ih := ih hB.valid
    rcases hr : d'.readParams (h :: params) rest with ⟨e | hs, d''⟩
    · rw [hr] at ih
      exact ⟨ih.1, hB.yields.grows.trans ih.2⟩
    · rw [hr] at ih
      obtain ⟨gs, ts, rfl, hts, hY⟩ := ih
      rw [show d'.types = table from hB.types_eq] at hts
      exact ⟨h :: gs, t :: ts, by simp, .cons ht hts, hB.yields.cons_all hY⟩

end Decoder

/-- Spelled types are read as parameters, behind those that were read before and in front of what
follows. -/
theorem TypesText.readParams_append {d : Decoder} (hd : d.Valid)
    {table : List (Component ArgType)} {cs : List Char} {ts : List ArgType}
    (h : TypesText .lenient d.types cs ts table) (params : List Handle) :
    ∃ r : List Handle × Decoder,
      (∀ rest, d.readParams params (cs ++ rest) = r.2.readParams (r.1.reverse ++ params) rest) ∧
      d.pool.YieldsAll ts (r.1, r.2.pool) ∧ r.2.Valid ∧ r.2.types = table := by
  generalize htypes : d.types = types at h
  induction h generalizing d params with
  | nil => exact ⟨([], d), fun rest => rfl, hd.pool.yieldsAll_nil, hd, htypes⟩
  | @cons table₁ table₂ table₃ cs ds t ts h hs ih =>
    subst htypes
    obtain ⟨⟨g, d'⟩, hr, hB⟩ := h.descend hd
    obtain ⟨⟨gs, d''⟩, hrs, hY, hv, ht⟩ := ih hB.valid (g :: params) hB.types_eq
    refine ⟨(g :: gs, d''), fun rest => ?_, hB.yields.cons_all hY, hv, ht⟩
    obtain ⟨c, tail, rfl, -⟩ := h.head
    rw [List.append_assoc, Decoder.readParams_of_not_isEmpty (by simp),
      Decoder.param_eq_descend, hr]
    simpa using hrs rest

/-- Spelled types are read as parameters, behind those that were read before. -/
theorem TypesText.readParams {d : Decoder} (hd : d.Valid) {table : List (Component ArgType)}
    {cs : List Char} {ts : List ArgType} (h : TypesText .lenient d.types cs ts table)
    (params : List Handle) :
    ∃ r : List Handle × Decoder, d.readParams params cs = (.ok (params.reverse ++ r.1), r.2) ∧
      d.pool.YieldsAll ts (r.1, r.2.pool) := by
  obtain ⟨r, hr, hY, -⟩ := h.readParams_append hd params
  exact ⟨r, by simpa using hr [], hY⟩

/-! ### Whole symbols -/

/-- The components that a decoder has at the end of a parameter list. -/
def paramComponents (cs : List Char) (p : Pool) : List (Component ArgType) :=
  if cs = ['v'] then [] else ((Decoder.start p).readParams [] cs).2.types

/-- The components that a decoder has at the end of a symbol. -/
def symbolComponents (text : String) (p : Pool) : List (Component ArgType) :=
  match readHead text.toList with
  | .ok (_, rest) => paramComponents rest p
  | .error _ => []

section

variable {p q : Pool} {cs : List Char} {ts : List ArgType} {table : List (Component ArgType)}

/-- A parameter list that is not a `v` on its own is decoded parameter by parameter. -/
theorem decodeParams_of_ne (p : Pool) (hv : cs ≠ ['v']) (hne : cs ≠ []) :
    decodeParams cs p = (((Decoder.start p).readParams [] cs).1,
      ((Decoder.start p).readParams [] cs).2.pool) := by
  rw [decodeParams, if_neg hv, if_neg (mt List.isEmpty_iff.1 hne)]

theorem paramsText_of_decodeParams (hp : p.Valid) {hs : List Handle}
    (h : decodeParams cs p = (.ok hs, q)) :
    ParamsText .lenient cs (hs.map Handle.type) (paramComponents cs p) ∧
      p.YieldsAll (hs.map Handle.type) (hs, q) := by
  rw [decodeParams] at h
  split at h
  next hv =>
    cases h
    subst hv
    exact ⟨.none, hp.yieldsAll_nil⟩
  next hv =>
    split at h
    next => cases h
    next hne =>
      have hA := (Decoder.valid_start hp).readParams [] cs
      rcases hr : (Decoder.start p).readParams [] cs with ⟨e | hs', d⟩
      · rw [hr] at h
        cases h
      · rw [hr] at h hA
        cases h
        obtain ⟨gs, ts, rfl, ht, hY⟩ := hA
        obtain rfl := hY.types_eq
        have hc : paramComponents cs p = d.types := by rw [paramComponents, if_neg hv, hr]
        rw [hc]
        exact ⟨.some ht (mt List.isEmpty_iff.2 hne) hv, hY⟩

/-- A fault in a parameter list leaves a later state of the pool. -/
theorem Pool.Valid.of_decodeParams (hp : p.Valid) {e : Fault}
    (h : decodeParams cs p = (.error e, q)) : q.Valid ∧ p.Extends q := by
  rw [decodeParams] at h
  split at h
  next => cases h
  next =>
    split at h
    next =>
      cases h
      exact ⟨hp, .refl p⟩
    next =>
      have hA := (Decoder.valid_start hp).readParams [] cs
      rcases hr : (Decoder.start p).readParams [] cs with ⟨e' | hs, d⟩
      · rw [hr] at h hA
        cases h
        exact hA
      · rw [hr] at h
        cases h

theorem ParamsText.decodeParams (hp : p.Valid) (h : ParamsText .lenient cs ts table) :
    ∃ r : List Handle × Pool, KernelSymbol.decodeParams cs p = (.ok r.1, r.2) ∧
      p.YieldsAll ts r := by
  cases h with
  | none => exact ⟨([], p), rfl, hp.yieldsAll_nil⟩
  | some h hne hv =>
    obtain ⟨⟨hs, d⟩, hr, hY⟩ := h.readParams (d := .start p) (Decoder.valid_start hp) []
    refine ⟨(hs, d.pool), ?_, hY⟩
    rw [decodeParams_of_ne p hv hne, hr]
    rfl

theorem readHead_eq_ok_iff {name : String} {rest : List Char} :
    readHead cs = .ok (name, rest) ↔
      ∃ front, cs = ['_', 'Z'] ++ front ++ rest ∧ NameText .lenient name front := by
  constructor
  · intro h
    rw [readHead] at h
    split at h
    next => cases h
    next tail hZ =>
      split at h
      next => cases h
      next name' rest' hn =>
        split at h
        next => cases h
        next hne =>
          cases h
          obtain ⟨front, rfl, ht⟩ := (readName_eq_ok_iff hne).1 hn
          exact ⟨front, by rw [after?_eq_some_iff.1 hZ]; simp, ht⟩
  · rintro ⟨front, rfl, ht⟩
    have hZ : after? ['_', 'Z'] (['_', 'Z'] ++ front ++ rest) = some (front ++ rest) :=
      after?_eq_some_iff.2 (by simp)
    have hn : readName (front ++ rest) = .ok (name, rest) :=
      (readName_eq_ok_iff ht.ne_empty).2 ⟨front, rfl, ht⟩
    simp only [readHead, hZ, hn, if_neg ht.ne_empty]

/-- Behind its head, a symbol is decoded as its parameters are. -/
theorem decode_of_readHead {text name : String} {rest : List Char}
    (h : readHead text.toList = .ok (name, rest)) (p : Pool) :
    decode text p = (((decodeParams rest p).1.map (Signature.mk name)).mapError
      (DecodeError.map fun rest => text.utf8ByteSize - byteCount rest),
      (decodeParams rest p).2) := by
  rw [decode, decodeText, h]
  rcases hr : decodeParams rest p with ⟨e | hs, q⟩ <;> simp only [hr] <;> rfl

/-- What was decoded from a text is spelled by it, with the components that the decoder has at the
end, and its parameters are stored nodes. -/
theorem symbolText_components (hp : p.Valid) {text : String} {f : Signature Handle}
    (h : decode text p = (.ok f, q)) :
    SymbolText .lenient text.toList f.name (f.params.map Handle.type) (symbolComponents text p) ∧
      p.YieldsAll (f.params.map Handle.type) (f.params, q) := by
  rw [decode, decodeText] at h
  split at h
  next f' q' hf =>
    cases h
    split at hf
    next => cases hf
    next name rest hh =>
      split at hf
      next hs q' hparams =>
        cases hf
        have hc : symbolComponents text p = paramComponents rest p := by rw [symbolComponents, hh]
        obtain ⟨front, htext, hn⟩ := readHead_eq_ok_iff.1 hh
        obtain ⟨ht, hY⟩ := paramsText_of_decodeParams hp hparams
        rw [hc, htext]
        exact ⟨.mk hn ht, hY⟩
      next => cases hf
  next => cases h

theorem symbolText_of_decode (hp : p.Valid) {text : String} {f : Signature Handle}
    (h : decode text p = (.ok f, q)) :
    ∃ table, SymbolText .lenient text.toList f.name (f.params.map Handle.type) table ∧
      p.YieldsAll (f.params.map Handle.type) (f.params, q) :=
  ⟨_, symbolText_components hp h⟩

/-- A text that is no symbol leaves a later state of the pool. -/
theorem Pool.Valid.of_decode (hp : p.Valid) {text : String} {e : DecodeError Nat}
    (h : decode text p = (.error e, q)) : q.Valid ∧ p.Extends q := by
  rw [decode, decodeText] at h
  split at h
  next => cases h
  next e' q' hf =>
    cases h
    split at hf
    next =>
      cases hf
      exact ⟨hp, .refl p⟩
    next name rest hh =>
      split at hf
      next => cases hf
      next e' q' hparams =>
        cases hf
        exact hp.of_decodeParams hparams

theorem SymbolText.decode (hp : p.Valid) {text name : String}
    (h : SymbolText .lenient text.toList name ts table) :
    ∃ r : List Handle × Pool, KernelSymbol.decode text p = (.ok ⟨name, r.1⟩, r.2) ∧
      p.YieldsAll ts r := by
  generalize hcs : text.toList = cs at h
  obtain ⟨hn, hparams⟩ := h
  obtain ⟨r, hr, hY⟩ := hparams.decodeParams hp
  refine ⟨r, ?_, hY⟩
  rw [KernelSymbol.decode, decodeText, hcs, readHead_eq_ok_iff.2 ⟨_, rfl, hn⟩]
  simp only [hr]

end

end KernelSymbol
