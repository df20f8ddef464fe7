import KernelSymbol.Proofs.Overload
import KernelSymbol.Proofs.Cursor
import KernelSymbol.Symbol.Reference

/-!
# References are read as they were written

A reference to the first place has no number, and every other one has the number of the place
before. Writing finds the digits from the last to the first and reading takes them from the first to
the last; both count them in the same order. Every number that is a machine word fits into the
buffer, and there is room for three more digits.

Reading accepts zeros in front. What decides is the number itself: one that is no machine word is
refused wherever the digits end, and otherwise there has to be a `_` behind them, and then an entry
in the table. Of all machine words only the last is no number of a place, and this is where a reader
that counts in machine words would go wrong.

The number of zeros is not free, though, for the digits are counted, in a word of thirty-two bits.
With `2 ^ 31` of them the count overflows. Where nothing checks that, it is zero again after
`2 ^ 32`, and the reference is refused as if it had no digits.

## Main definitions

* `StartsWithLastReference` — the reference that machine words cannot count

## Main results

* `DigitBuffer.write?_eq_some`, `writeReference?_eq` — what is written through the buffer
* `readReference_run` — reading any run of digits
* `Decoder.param_reference`, `Decoder.param_pointerTo` — where a decoder reads references
* `Cursor.candidate_eq`, `Cursor.candidate_eq_trap` — reading with a cursor, and too many digits
* `Decoder.references_exact` — references are read as they were written
* `Decoder.references_inexact_zeros` — not all runs of digits are read by their number
-/

namespace KernelSymbol

/-! ### The buffer -/

namespace DigitBuffer

@[simp] theorem toList_empty : empty.toList = [] := rfl

/-- If a cell is free, one more character fits. -/
theorem push?_eq_some {b : DigitBuffer} (hfree : 0 < b.free) (c : Char) :
    ∃ b', b.push? c = some b' ∧ b'.free + 1 = b.free ∧ b'.toList = c :: b.toList := by
  obtain ⟨cells, free, h⟩ := b
  cases free with
  | zero => exact absurd hfree (Nat.lt_irrefl 0)
  | succ free =>
    refine ⟨_, rfl, rfl, ?_⟩
    have hlt : free < (cells.toList.set free c).length := by
      rwa [List.length_set, Vector.length_toList]
    change (cells.set free c).toList.drop free = c :: cells.toList.drop (free + 1)
    rw [Vector.toList_set, List.drop_eq_getElem_cons hlt, List.getElem_set_self,
      List.drop_set_of_lt (Nat.lt_succ_self free)]

/-- A number fits if there is a free cell for each of its digits. -/
theorem write?_eq_some {b : DigitBuffer} {value : Nat} (hfree : 0 < b.free)
    (h : value < 36 ^ b.free) :
    ∃ b', b.write? value = some b' ∧ b'.toList = Radix.thirtySix.digits value ++ b.toList := by
  induction value using Nat.strongRecOn generalizing b with
  | ind value ih =>
    obtain ⟨b', hpush, hfree', hlist⟩ := push?_eq_some hfree (Radix.digitChar (value % 36))
    have hbase : Radix.thirtySix.base = 36 := rfl
    rw [write?, hpush, Radix.digits, hbase]
    dsimp only
    by_cases hz : value / 36 = 0
    · have hlt : value < 36 := by omega
      rw [dif_pos hz, if_pos hlt]
      exact ⟨b', rfl, by rw [hlist, Nat.mod_eq_of_lt hlt]; rfl⟩
    · rw [dif_neg hz, if_neg (by omega)]
      -- what is left has a digit less, and there is a cell less
      rw [← hfree', Nat.pow_succ] at h
      have hdiv : value / 36 < 36 ^ b'.free := Nat.div_lt_of_lt_mul (by omega)
      have hpos : 0 < b'.free := by
        rw [Nat.pos_iff_ne_zero]
        intro hzero
        rw [hzero] at hdiv
        omega
      obtain ⟨b'', hwrite, hlist'⟩ := ih (value / 36) (by omega) hpos hdiv
      exact ⟨b'', hwrite, by rw [hlist', hlist, List.append_assoc]; rfl⟩

end DigitBuffer

/-- References to places that are machine words are written through the buffer. -/
theorem writeReference?_eq {index : Nat} (h : index < numberBound) (text : String) :
    writeReference? text index = some (text ++ backReference index) := by
  cases index with
  | zero =>
    rw [writeReference?, String.append_assoc]
    rfl
  | succ id =>
    have hbound : numberBound ≤ 36 ^ DigitBuffer.empty.free := by decide
    obtain ⟨b, hwrite, hlist⟩ := DigitBuffer.empty.write?_eq_some (Nat.succ_pos 15)
      (Nat.lt_of_lt_of_le (Nat.lt_of_succ_lt h) hbound)
    rw [DigitBuffer.toList_empty, List.append_nil] at hlist
    rw [writeReference?, hwrite, Option.map_some, hlist, backReference]
    simp only [String.append_assoc, Radix.text]

/-! ### Runs of digits -/

section

variable {digits rest : List Char} (hne : digits ≠ [])
  (hd : ∀ c ∈ digits, Radix.thirtySix.isDigit c = true) (hs : Radix.thirtySix.Stops rest)
include hne hd hs

/-- How a run of digits is read, as long as it may be. -/
theorem readReference_run (start : List Char) :
    readReference start (digits ++ rest) =
      if ¬Counted digits ∨ numberBound ≤ Radix.thirtySix.value digits then
        .error (.invalidReference start)
      else match expect '_' rest with
        | .ok tail => .ok (Radix.thirtySix.value digits + 1, tail)
        | .error e => .error e := by
  obtain ⟨c, tail, rfl⟩ := List.exists_cons_of_ne_nil hne
  have hlone : after? ['_'] (c :: tail ++ rest) = none := by
    refine after?_eq_none fun hc => ?_
    obtain rfl : c = '_' := by simpa using hc
    exact absurd (hd _ List.mem_cons_self) (by decide)
  obtain ⟨ht, hr⟩ := hs.span hd
  have hbound (n : Nat) : numberBound ≤ min numberBound n ↔ numberBound ≤ n := by omega
  simp only [readReference, hlone, ht, hr, Radix.valueUpTo_eq, hbound]
  split
  next => rfl
  next hok =>
    cases expect '_' rest with
    | error e => rfl
    | ok tail' =>
      have hv := Nat.not_le.1 (not_or.1 hok).2
      have hn : min numberBound (Radix.thirtySix.value (c :: tail))
          = Radix.thirtySix.value (c :: tail) := Nat.min_eq_right (Nat.le_of_lt hv)
      exact congrArg (fun n => Except.ok (n + 1, tail')) hn

omit hne in
/-- What is counted and a machine word is read up to the `_`. -/
theorem readReference_counted (hc : Counted digits)
    (hv : Radix.thirtySix.value digits < numberBound) (start : List Char) :
    readReference start (digits ++ rest) = match expect '_' rest with
      | .ok tail => .ok (Radix.thirtySix.value digits + 1, tail)
      | .error e => .error e := by
  rw [readReference_run hc.ne_nil hd hs,
    if_neg (not_or.2 ⟨not_not_intro hc, Nat.not_le.2 hv⟩)]

end

/-! ### The table -/

namespace Decoder

variable {d : Decoder} {cs : List Char}

/-- Behind its `S`, a reference is read as a place, which is looked up. -/
theorem candidate_cons (d : Decoder) (cs : List Char) :
    d.candidate ('S' :: cs) = match readReference ('S' :: cs) cs with
      | .ok (i, rest) =>
        match d.table[i]? with
        | some c => .ok (c, rest)
        | none => .error (.invalidReference ('S' :: cs))
      | .error e => .error e := by
  rw [candidate, expect, if_pos rfl]
  dsimp only
  rcases readReference ('S' :: cs) cs with e | ⟨i, rest⟩
  · rfl
  · simp only [component]
    cases d.table[i]? <;> rfl

/-- A parameter that starts with a reference is the type that this stands for. -/
theorem param_reference (d : Decoder) (cs : List Char) :
    d.param ('S' :: cs) = match d.candidate ('S' :: cs) with
      | .ok (.whole h, rest) => (.ok (h, rest), d)
      | .ok (.qualified .., _) => (.error (.invalidReference ('S' :: cs)), d)
      | .error e => (.error e, d) := by
  have hlexeme : readLexeme [] ('S' :: cs) = match readReference ('S' :: cs) cs with
      | .ok (i, rest) => .ok (⟨[], .reference i ('S' :: cs)⟩, rest)
      | .error e => .error e := by
    rw [readLexeme, after?_eq_none (by simp), after?_eq_none (by simp)]
    simp only [readStem, readTypeReference, if_true]
    cases readReference ('S' :: cs) cs <;> rfl
  rw [param, hlexeme, candidate_cons]
  rcases readReference ('S' :: cs) cs with e | ⟨i, rest⟩
  · rfl
  · simp only [build, resolve, component]
    rcases d.table[i]? with _ | ⟨h⟩ | ⟨a, h⟩ <;> rfl

/-- A parameter that starts with a `P` and a reference is a pointer to what this stands for. -/
theorem param_pointerTo (d : Decoder) (cs : List Char) :
    d.param ('P' :: 'S' :: cs) = match d.candidate ('S' :: cs) with
      | .ok (.whole h, rest) => (.ok ((d.pointer .plain h).1, rest), (d.pointer .plain h).2)
      | .ok (.qualified a h, rest) => (.ok ((d.pointer a h).1, rest), (d.pointer a h).2)
      | .error e => (.error e, d) := by
  have hlexeme : readLexeme [] ('P' :: 'S' :: cs) = match readReference ('S' :: cs) cs with
      | .ok (i, rest) => .ok (⟨[], .pointerTo i ('S' :: cs)⟩, rest)
      | .error e => .error e := by
    have hP : after? ['P'] ('P' :: 'S' :: cs) = some ('S' :: cs) := after?_eq_some_iff.2 rfl
    have hS : after? ['S'] ('S' :: cs) = some cs := after?_eq_some_iff.2 rfl
    rw [readLexeme, after?_eq_none (by simp), hP]
    simp only [hS]
    cases readReference ('S' :: cs) cs <;> rfl
  rw [param, hlexeme, candidate_cons]
  rcases readReference ('S' :: cs) cs with e | ⟨i, rest⟩
  · rfl
  · simp only [build, resolve, component]
    rcases d.table[i]? with _ | ⟨h⟩ | ⟨a, h⟩ <;> rfl

end Decoder

/-! ### With a cursor -/

/-- The text starts with a reference whose number is the last machine word. -/
def StartsWithLastReference (cs : List Char) : Prop :=
  ∃ digits rest, cs = 'S' :: (digits ++ '_' :: rest) ∧
    (∀ c ∈ digits, Radix.thirtySix.isDigit c = true) ∧
      Radix.thirtySix.value digits + 1 = numberBound

theorem ne_numberBound_of_readReference {cs rest : List Char} {i : Nat}
    (hlast : ¬StartsWithLastReference ('S' :: cs))
    (h : readReference ('S' :: cs) cs = .ok (i, rest)) : i ≠ numberBound := by
  rintro rfl
  obtain ⟨front, hf, hr⟩ := readReference_eq_ok_iff.1 h
  generalize hi : numberBound = i at hr
  cases hr with
  | first => cases hi
  | @later n digits hn _ =>
    obtain ⟨-, -, hd, rfl⟩ := hn
    exact hlast ⟨digits, rest, by rw [hf]; simp, hd, hi.symm⟩

/-- A reference is looked up as it is without a cursor, unless it has too many digits to count or
its number is the last machine word. -/
theorem Cursor.candidate_eq {text : String} {cs : List Char} (d : Decoder)
    (hb : text.utf8ByteSize < textBound) (h : cs <:+ text.toList)
    (hrun : ∀ tail, cs = 'S' :: tail → ¬LongRun tail) (hlast : ¬StartsWithLastReference cs) :
    Cursor.candidate text d (offset text cs) = located text (d.candidate cs) := by
  by_cases hS : cs.head? = some 'S'
  · obtain ⟨tail, rfl⟩ := List.head?_eq_some_iff.1 hS
    have href := reference_eq hb h (hrun tail rfl) fun rest hr =>
      ne_numberBound_of_readReference hlast hr rfl
    rw [Cursor.candidate, href, Decoder.candidate_cons]
    rcases readReference ('S' :: tail) tail with e | ⟨i, rest⟩
    · rfl
    · simp only [located, bind, Except.bind]
      cases d.table[i]? <;> rfl
  · rw [Cursor.candidate, Cursor.reference, expect_eq hb (by decide) h, Decoder.candidate]
    cases cs with
    | nil => rfl
    | cons c cs =>
      have hc : c ≠ 'S' := by simpa using hS
      rw [KernelSymbol.expect, if_neg hc]
      rfl

/-- The last digit that there is too much makes the count overflow, unless the number was too large
before it. What follows that digit is not read. -/
theorem Cursor.candidate_eq_trap {text : String} {digits rest : List Char} (d : Decoder)
    (hb : text.utf8ByteSize < textBound) (h : 'S' :: (digits ++ rest) <:+ text.toList)
    (hd : ∀ c ∈ digits, Radix.thirtySix.isDigit c = true) (hlen : digits.length = countBound) :
    Cursor.candidate text d (offset text ('S' :: (digits ++ rest))) =
      if Radix.thirtySix.value digits < numberBound then .error (.trap .overflow)
      else .error (.fault (.invalidReference (offset text ('S' :: (digits ++ rest))))) := by
  have hbound : numberBound = UInt64.size := rfl
  rw [Cursor.candidate, reference_eq_trap hb h hd hlen, hbound]
  split <;> rfl

/-! ### All references -/

namespace Decoder

variable {d : Decoder} {digits rest : List Char}

section

variable (hd : ∀ c ∈ digits, Radix.thirtySix.isDigit c = true)
include hd

/-- A number that is no machine word is refused, and so is one with so many digits that their count
is zero, whatever follows. -/
theorem candidate_of_refused (hne : digits ≠ []) (hs : Radix.thirtySix.Stops rest)
    (h : numberBound ≤ Radix.thirtySix.value digits ∨ ¬Counted digits) :
    d.candidate ('S' :: (digits ++ rest)) =
      .error (.invalidReference ('S' :: (digits ++ rest))) := by
  rw [candidate_cons, readReference_run hne hd hs, if_pos h.symm]

/-- Behind any other number there has to be a `_`. -/
theorem candidate_of_head?_ne (hs : Radix.thirtySix.Stops rest) (hc : Counted digits)
    (hv : Radix.thirtySix.value digits < numberBound) (hr : rest.head? ≠ some '_') :
    d.candidate ('S' :: (digits ++ rest)) =
      .error (if rest = [] then .unexpectedEnd rest else .expected '_' rest) := by
  rw [candidate_cons, readReference_counted hd hs hc hv]
  cases rest with
  | nil => rfl
  | cons c tail =>
    have hc : c ≠ '_' := by simpa using hr
    rw [expect, if_neg hc, if_neg (List.cons_ne_nil c tail)]

/-- With a `_` behind it, a number stands for the place after it. -/
theorem candidate_underscore (hc : Counted digits)
    (hv : Radix.thirtySix.value digits < numberBound) (tail : List Char) :
    d.candidate ('S' :: (digits ++ '_' :: tail)) =
      match d.table[Radix.thirtySix.value digits + 1]? with
      | some c => .ok (c, tail)
      | none => .error (.invalidReference ('S' :: (digits ++ '_' :: tail))) := by
  have hs : Radix.thirtySix.Stops ('_' :: tail) := Radix.stops_cons.2 rfl
  have hx : expect '_' ('_' :: tail) = .ok tail := expect_eq_ok_iff.2 rfl
  rw [candidate_cons, readReference_counted hd hs hc hv, hx]

end

/-- What was written for a place that is a machine word stands for its entry. -/
theorem candidate_backReference {n : Nat} (hn : n < numberBound) (h : n < d.table.size)
    (rest : List Char) :
    d.candidate ((backReference n).toList ++ rest) = .ok (d.table[n], rest) := by
  have he : d.table[n]? = some d.table[n] := Array.getElem?_eq_getElem h
  rw [toList_backReference]
  cases n with
  | zero =>
    have hr : readReference ('S' :: '_' :: rest) ('_' :: rest) = .ok (0, rest) :=
      readReference_eq_ok_iff.2 ⟨['S', '_'], rfl, .first⟩
    change d.candidate ('S' :: '_' :: rest) = _
    rw [candidate_cons, hr]
    simp only [he]
  | succ id =>
    have hid : id < numberBound := Nat.lt_of_succ_lt hn
    have hread := candidate_underscore (d := d) (fun _ => Radix.isDigit_of_mem_digits)
      (counted_digits hid) (by rwa [Radix.value_digits]) rest
    rw [Radix.value_digits, he] at hread
    simpa [referenceText, referenceDigits] using hread

/-- References are read as they were written, whatever the table holds. A reference to a place that
is a machine word is written through the buffer. It is `S_` for the first place, and for every other
one it holds the number of the place before, without zeros in front. No two places have one
reference, and where it is read, with anything behind it, it stands for its place.

A run of digits behind an `S` is read by its value. A value that is no machine word is refused at
the `S`, whatever follows. Behind any other there has to be a `_`, and then it stands for the place
after the value and is refused at the `S` if the table ends before; this leaves out the last machine
word. It also leaves out runs whose length is a multiple of `2 ^ 32`, which are refused at the `S`.

A reader that counts bytes and machine words does the same at its offsets if the run has fewer than
`2 ^ 31` digits. Otherwise its count of the digits overflows, unless those that it has read by then
make a number that is no machine word. -/
theorem references_exact (d : Decoder) :
    (∀ n < numberBound,
      (∀ text, writeReference? text n = some (text ++ backReference n)) ∧
      (n = 0 → backReference n = "S_") ∧
      (∀ id, n = id + 1 → ∃ digits, backReference n = "S" ++ String.ofList digits ++ "_" ∧
        digits ≠ [] ∧ (∀ c ∈ digits, Radix.thirtySix.isDigit c = true) ∧ NoSpareZero digits ∧
          Radix.thirtySix.value digits = id) ∧
      (∀ m, backReference m = backReference n → m = n) ∧
      ∀ (h : n < d.table.size) (rest : List Char),
        d.candidate ((backReference n).toList ++ rest) = .ok (d.table[n], rest)) ∧
    (∀ digits rest, digits ≠ [] → (∀ c ∈ digits, Radix.thirtySix.isDigit c = true) →
      Radix.thirtySix.Stops rest →
        (numberBound ≤ Radix.thirtySix.value digits ∨ ¬Counted digits →
          d.candidate ('S' :: (digits ++ rest)) =
            .error (.invalidReference ('S' :: (digits ++ rest)))) ∧
        (Counted digits → Radix.thirtySix.value digits + 1 < numberBound →
          ∀ tail, rest = '_' :: tail → d.candidate ('S' :: (digits ++ rest)) =
            match d.table[Radix.thirtySix.value digits + 1]? with
            | some c => .ok (c, tail)
            | none => .error (.invalidReference ('S' :: (digits ++ rest)))) ∧
        (Counted digits → Radix.thirtySix.value digits < numberBound → rest.head? ≠ some '_' →
          d.candidate ('S' :: (digits ++ rest)) =
            .error (if rest = [] then .unexpectedEnd rest else .expected '_' rest))) ∧
    ∀ text : String, text.utf8ByteSize < textBound →
      (∀ cs, cs <:+ text.toList → (∀ tail, cs = 'S' :: tail → ¬LongRun tail) →
        ¬StartsWithLastReference cs →
          Cursor.candidate text d (Cursor.offset text cs) =
            Cursor.located text (d.candidate cs)) ∧
      ∀ digits rest, 'S' :: (digits ++ rest) <:+ text.toList →
        (∀ c ∈ digits, Radix.thirtySix.isDigit c = true) → digits.length = Cursor.countBound →
          Cursor.candidate text d (Cursor.offset text ('S' :: (digits ++ rest))) =
            if Radix.thirtySix.value digits < numberBound then .error (.trap .overflow)
            else .error (.fault
              (.invalidReference (Cursor.offset text ('S' :: (digits ++ rest))))) := by
  have injective : ∀ m n, backReference m = backReference n → m = n := fun m n h =>
    (eq_of_backReference_append_eq (congrArg (·.toList ++ []) h)).1
  refine ⟨fun n hn => ⟨writeReference?_eq hn, ?_, ?_, fun m => injective m n,
    candidate_backReference hn⟩, fun digits rest hne hd hs => ⟨?_, ?_, ?_⟩,
    fun text hb => ⟨fun cs => Cursor.candidate_eq d hb,
      fun digits rest => Cursor.candidate_eq_trap d hb⟩⟩
  · rintro rfl
    rfl
  · rintro id rfl
    exact ⟨Radix.thirtySix.digits id, rfl, Radix.thirtySix.digits_ne_nil id,
      fun _ => Radix.isDigit_of_mem_digits, Radix.thirtySix.noSpareZero_digits id,
      Radix.thirtySix.value_digits id⟩
  · exact candidate_of_refused hd hne hs
  · rintro hc hv tail rfl
    exact candidate_underscore hd hc (Nat.lt_of_succ_lt hv) tail
  · exact candidate_of_head?_ne hd hs

/-- A decoder that has read thirty-eight named types, each of them built outside every pool. -/
def wellRead : Decoder :=
  ⟨.emptyOf (.pool 0), Array.ofFn fun i : Fin 38 =>
    .whole ⟨[], .named (Radix.thirtySix.text i), ⟨.outside, i⟩⟩⟩

/-- The last of the types is referred to with two digits, and may be with more; the next number is
refused, and so is the first one that is no machine word. -/
theorem references_exact_wellRead : ∃ h : 37 < wellRead.table.size,
    writeReference? "P" 37 = some "PS10_" ∧
      wellRead.candidate ['S', '1', '0', '_', 'f'] = .ok (wellRead.table[37], ['f']) ∧
      wellRead.candidate ['S', '0', '1', '0', '_', 'f'] = .ok (wellRead.table[37], ['f']) ∧
      wellRead.candidate ['S', '1', '1', '_', 'f']
        = .error (.invalidReference ['S', '1', '1', '_', 'f']) ∧
      wellRead.candidate "S3W5E11264SGSG".toList
        = .error (.invalidReference "S3W5E11264SGSG".toList) ∧
      wellRead.candidate ['S', '1', 'a'] = .error (.expected '_' ['a']) ∧
      Cursor.candidate "PS10_f" wellRead 1 = .ok (wellRead.table[37], 5) := by
  have hsize : 37 < wellRead.table.size := by decide
  have htext : (backReference 37).toList = ['S', '1', '0', '_'] := by decide +kernel
  obtain ⟨write, run, cursor⟩ := references_exact wellRead
  obtain ⟨hwrite, -, -, -, hread⟩ := write 37 (by decide)
  have hread : wellRead.candidate ['S', '1', '0', '_', 'f'] = .ok (wellRead.table[37], ['f']) := by
    have h := hread hsize ['f']
    rwa [htext] at h
  refine ⟨hsize, ?_, hread, ?_, ?_, ?_, ?_, ?_⟩
  · rw [hwrite "P"]
    decide +kernel
  · exact (run ['0', '1', '0'] ['_', 'f'] (by simp) (List.all_eq_true.1 rfl)
      (Radix.stops_cons.2 rfl)).2.1 (by decide) (by decide) ['f'] rfl
  · exact (run ['1', '1'] ['_', 'f'] (by simp) (List.all_eq_true.1 rfl)
      (Radix.stops_cons.2 rfl)).2.1 (by decide) (by decide) ['f'] rfl
  · have hrun := (run "3W5E11264SGSG".toList [] (by decide +kernel)
      (List.all_eq_true.1 (by decide +kernel)) nofun).1 (.inl (by decide +kernel))
    rwa [List.append_nil] at hrun
  · exact (run ['1'] ['a'] (by simp) (List.all_eq_true.1 rfl) (Radix.stops_cons.2 rfl)).2.2
      (by decide) (by decide) (by decide)
  · have hcs : ['S', '1', '0', '_', 'f'] <:+ "PS10_f".toList := ⟨['P'], by decide +kernel⟩
    have hlast : ¬StartsWithLastReference ['S', '1', '0', '_', 'f'] := by
      rintro ⟨digits, rest, hrest, hd, hv⟩
      have hrun : ['1', '0'] ++ ['_', 'f'] = digits ++ '_' :: rest := (List.cons.inj hrest).2
      obtain ⟨rfl, -⟩ := Radix.eq_of_append_eq (List.all_eq_true.1 rfl) hd
        (Radix.stops_cons.2 rfl) (Radix.stops_cons.2 rfl) hrun
      exact absurd hv (by decide)
    have hstart : Cursor.offset "PS10_f" ['S', '1', '0', '_', 'f'] = 1 := by decide +kernel
    have hend : Cursor.offset "PS10_f" ['f'] = 5 := by decide +kernel
    have hrun : ∀ tail, ['S', '1', '0', '_', 'f'] = 'S' :: tail → ¬LongRun tail := by
      intro tail htail
      rw [← (List.cons.inj htail).2]
      decide
    have hc := (cursor "PS10_f" (by decide)).1 _ hcs hrun hlast
    rwa [hstart, hread, Cursor.located, hend] at hc

/-- A reference whose number is some zeros. -/
def zeroReference (zeros : Nat) : List Char := 'S' :: (List.replicate zeros '0' ++ ['_'])

/-- The number is zero and the second place is there, but not every reference to it is read. With
`2 ^ 32` zeros it is refused, and with `2 ^ 31` counting them overflows. -/
theorem references_inexact_zeros : ∃ h : 1 < wellRead.table.size,
    (∀ zeros, Radix.thirtySix.value (List.replicate zeros '0') = 0) ∧
      wellRead.candidate (zeroReference 1) = .ok (wellRead.table[1], []) ∧
      wellRead.candidate (zeroReference UInt32.size)
        = .error (.invalidReference (zeroReference UInt32.size)) ∧
      (String.ofList (zeroReference Cursor.countBound)).utf8ByteSize < textBound ∧
      Cursor.candidate (String.ofList (zeroReference Cursor.countBound)) wellRead 0
        = .error (.trap .overflow) := by
  have hvalue := Radix.thirtySix.value_replicate_zero
  have hdigits (zeros : Nat) : ∀ c ∈ List.replicate zeros '0',
      Radix.thirtySix.isDigit c = true := fun _ => Radix.isDigit_of_mem_replicate_zero
  have hsize : (String.ofList (zeroReference Cursor.countBound)).utf8ByteSize < textBound := by
    rw [zeroReference, utf8ByteSize_ofList, byteCount_cons, byteCount_append, byteCount_replicate]
    decide +kernel
  refine ⟨by decide, hvalue, rfl, ?_, hsize, ?_⟩
  · have hlen : (List.replicate UInt32.size '0').length = UInt32.size := List.length_replicate
    have hd := hdigits UInt32.size
    rw [zeroReference]
    generalize List.replicate UInt32.size '0' = digits at hlen hd ⊢
    have hne : digits ≠ [] := by
      rintro rfl
      cases hlen
    refine candidate_of_refused hd hne (Radix.stops_cons.2 rfl) (.inr ?_)
    rw [Counted, hlen, Nat.mod_self]
    exact not_not_intro rfl
  · have hlen : (List.replicate Cursor.countBound '0').length = Cursor.countBound :=
      List.length_replicate
    have hd := hdigits Cursor.countBound
    have hv := hvalue Cursor.countBound
    rw [zeroReference] at hsize ⊢
    generalize List.replicate Cursor.countBound '0' = digits at hsize hlen hd hv ⊢
    have hcs : 'S' :: (digits ++ ['_']) <:+ (String.ofList ('S' :: (digits ++ ['_']))).toList :=
      ⟨[], String.toList_ofList.symm⟩
    have hstart : Cursor.offset (String.ofList ('S' :: (digits ++ ['_'])))
        ('S' :: (digits ++ ['_'])) = 0 := by
      rw [Cursor.offset, utf8ByteSize_ofList, Nat.sub_self]
    have htrap := Cursor.candidate_eq_trap wellRead hsize hcs hd hlen
    rwa [hstart, hv, if_pos (by decide)] at htrap

end Decoder

end KernelSymbol
