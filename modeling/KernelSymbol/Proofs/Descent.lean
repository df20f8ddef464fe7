import KernelSymbol.Symbol.Descent

/-!
# The decoder reads a parameter as recursive descent does

The decoder collects the openings of a parameter, builds the stem and then closes the openings
from the innermost outwards. Recursive descent does the same on its way out. Both read the whole
text of a parameter before anything is built, so they find the same fault first, and they leave
the same pool and table behind.

## Main results

* `Decoder.descend_eq` — one level of recursive descent
* `Decoder.param_eq_descend` — the decoder agrees with recursive descent, faults included
-/

namespace KernelSymbol

namespace Decoder

/-- What is built inside what was built is built in one go. -/
theorem inside_inside (r : Read Handle × Decoder)
    (f g : Decoder → Handle → Except Fault Handle × Decoder) :
    inside (inside r f) g = inside r fun d h =>
      match f d h with
      | (.ok h, d) => g d h
      | (.error e, d) => (.error e, d) := by
  obtain ⟨e | ⟨h, rest⟩, d⟩ := r
  · rfl
  · simp only [inside]
    rcases f d h with ⟨e | h, d⟩ <;> rfl

theorem close_cons (opening : Opening) (openings : List Opening) :
    (fun (d : Decoder) h => d.close h (opening :: openings)) = fun d h =>
      match d.closeOne h opening with
      | (.ok h, d) => d.close h openings
      | (.error e, d) => (.error e, d) := by
  funext d h
  rfl

/-- One level of recursive descent, as an equation without the facts that its recursion needs. -/
theorem descend_eq (d : Decoder) (cs : List Char) :
    d.descend cs =
      match after? ['D', 'v'] cs with
      | some rest =>
        match readVectorLength rest with
        | .error e => (.error e, d)
        | .ok (n, rest') => inside (d.descend rest') fun d h => d.closeOne h (.vector n cs)
      | none =>
        match after? ['P'] cs with
        | some rest =>
          match after? ['S'] rest with
          | some rest' =>
            match readReference rest rest' with
            | .error e => (.error e, d)
            | .ok (i, rest'') =>
              match d.resolve (.pointerTo i rest) with
              | (.ok h, d) => (.ok (h, rest''), d)
              | (.error e, d) => (.error e, d)
          | none =>
            match readAttrs rest with
            | .error e => (.error e, d)
            | .ok ((attrs, spelled), rest') =>
              inside (d.descend rest') fun d h => d.closeOne h (.pointer attrs spelled)
        | none =>
          match readStem cs with
          | .error e => (.error e, d)
          | .ok (stem, rest) =>
            match d.resolve stem with
            | (.ok h, d) => (.ok (h, rest), d)
            | (.error e, d) => (.error e, d) := by
  rw [descend]
  split
  next rest hv =>
    split
    next e hn => simp only [hv, hn]
    next n rest' hn => simp only [hv, hn]
  next hv =>
    split
    next rest hp =>
      split
      next rest' hs =>
        rcases hr : readReference rest rest' with e | ⟨i, rest''⟩
        · simp only [hv, hp, hs, hr]
        · rcases hd : d.resolve (.pointerTo i rest) with ⟨e | h, d'⟩ <;>
            simp only [hv, hp, hs, hr, hd]
      next hs =>
        split
        next e ha => simp only [hv, hp, hs, ha]
        next attrs spelled rest' ha => simp only [hv, hp, hs, ha]
    next hp =>
      rcases hs : readStem cs with e | ⟨stem, rest⟩
      · simp only [hv, hp]
      · rcases hd : d.resolve stem with ⟨e | h, d'⟩ <;> simp only [hv, hp, hd]

/-- Builds what was read. -/
private def finish (d : Decoder) : Read Lexeme → Read Handle × Decoder
  | .error e => (.error e, d)
  | .ok (lexeme, rest) =>
    match d.build lexeme with
    | (.ok h, d) => (.ok (h, rest), d)
    | (.error e, d) => (.error e, d)

/-- Building a stem inside openings is building it, with the openings closed around it. -/
private theorem finish_stem (d : Decoder) (openings : List Opening) (stem : Stem)
    (rest : List Char) :
    finish d (.ok (⟨openings, stem⟩, rest)) =
      inside (match d.resolve stem with
        | (.ok h, d) => (.ok (h, rest), d)
        | (.error e, d) => (.error e, d)) fun d h => d.close h openings := by
  rw [finish, build]
  rcases d.resolve stem with ⟨e | h, d⟩ <;> rfl

/-- With openings in front of a text, the decoder does what recursive descent does on the text and
then closes the openings. The induction follows the decoder's reading, which moves one opening
at a time from the text to the list. -/
private theorem finish_readLexeme (d : Decoder) (openings : List Opening) (cs : List Char) :
    finish d (readLexeme openings cs) = inside (d.descend cs) fun d h => d.close h openings := by
  fun_induction readLexeme openings cs with
  | case1 openings cs rest hv e hn =>
    rw [descend_eq]
    simp only [hv, hn]
    rfl
  | case2 openings cs rest hv n rest' hn ih =>
    rw [ih, descend_eq d cs, close_cons]
    simp only [hv, hn]
    rw [inside_inside]
  | case3 openings cs hv rest hp rest' hs e hr =>
    rw [descend_eq]
    simp only [hv, hp, hs, hr]
    rfl
  | case4 openings cs hv rest hp rest' hs i rest'' hr =>
    rw [finish_stem, descend_eq]
    simp only [hv, hp, hs, hr]
  | case5 openings cs hv rest hp hs e ha =>
    rw [descend_eq]
    simp only [hv, hp, hs, ha]
    rfl
  | case6 openings cs hv rest hp hs attrs spelled rest' ha ih =>
    rw [ih, descend_eq d cs, close_cons]
    simp only [hv, hp, hs, ha]
    rw [inside_inside]
  | case7 openings cs hv hp e hs =>
    rw [descend_eq]
    simp only [hv, hp, hs]
    rfl
  | case8 openings cs hv hp stem rest hs =>
    rw [finish_stem, descend_eq]
    simp only [hv, hp, hs]

/-- The decoder agrees with recursive descent: the same type or the same fault, and the same pool
and table. -/
theorem param_eq_descend (d : Decoder) (cs : List Char) : d.param cs = d.descend cs := by
  have hin : inside (d.descend cs) (fun d h => d.close h []) = d.descend cs := by
    rcases d.descend cs with ⟨e | ⟨h, rest⟩, d⟩ <;> rfl
  have hfinish : d.param cs = finish d (readLexeme [] cs) := by
    rw [param]
    rcases readLexeme [] cs with e | ⟨lexeme, rest⟩ <;> rfl
  rw [hfinish, finish_readLexeme, hin]

end Decoder

end KernelSymbol
