import KernelSymbol.Proofs.Cursor
import KernelSymbol.Proofs.Descent
import KernelSymbol.Proofs.Invariant

/-!
# Which fault of a parameter is found

With a cursor, too, the decoder reads a parameter as recursive descent does. Both look at the text
in the same turns: each turn reads the opening of a pointer or a vector, or it reads the stem and is
the last one. The decoder keeps the openings and closes them afterwards; recursive descent closes
each one on its way out.

It follows in which order faults are found. The turns come first, so what is malformed is found in
the order of the text, whether or not a vector in front of it can be built. If nothing is malformed,
types are built from the stem outwards, so of the vectors that cannot be built the innermost one is
found.

## Main definitions

* `Cursor.Turn`, `Cursor.turn` — one turn of reading a parameter
* `Cursor.Opened` — openings in a row
* `ArgType.around`, `ArgType.Fits` — a type inside openings; all vectors among them can be built

## Main results

* `Cursor.param_eq_descend` — the decoder agrees with recursive descent
* `Cursor.Opened.lexeme` — reading starts with the openings in a row
* `Decoder.Valid.close_fits`, `Decoder.Valid.close_misfit` — building the types inside openings
* `Cursor.param_descends` — agreement, and the order of faults
-/

namespace KernelSymbol

namespace Cursor

variable {text : String} {d : Decoder} {pos mid next : Nat} {openings : List Opening}

/-! ### Turns -/

/-- What one turn reads, and where the cursor is then. -/
inductive Turn where
  | opening (o : Opening) (next : Nat)
  | stem (s : Stem) (next : Nat)

/-- One turn of reading a parameter. -/
def turn (text : String) (pos : Nat) : Except Stop Turn :=
  if ['D', 'v'].isPrefixOf (rest text pos).toList then
    match vectorLength text pos with
    | .error e => .error e
    | .ok (n, next) => .ok (.opening (.vector n (rest text pos).toList) next)
  else if peek text pos = some 'P' then
    match move text pos 1 with
    | .error e => .error e
    | .ok inner =>
      if peek text inner = some 'S' then
        match reference text inner with
        | .error e => .error e
        | .ok (i, next) => .ok (.stem (.pointerTo i (rest text inner).toList) next)
      else
        match attrs text inner with
        | .error e => .error e
        | .ok ((attrs, spelled), next) => .ok (.opening (.pointer attrs spelled) next)
  else
    match stem text pos with
    | .error e => .error e
    | .ok (stem, next) => .ok (.stem stem next)

/-- An opening moves the cursor on. -/
theorem lt_of_turn {o : Opening} (h : turn text pos = .ok (.opening o next)) :
    pos < next ∧ isBoundary text next = true := by
  rw [turn] at h
  split at h
  · split at h <;> cases h
    next hn => exact lt_of_vectorLength hn
  · split at h
    · split at h
      · cases h
      next hm =>
        split at h
        · split at h <;> cases h
        · split at h <;> cases h
          next ha => exact lt_of_pointer hm ha
    · split at h <;> cases h

/-- Where a vector starts is kept as the text that is left there. -/
theorem place_of_turn {n : UInt32} {place : List Char}
    (h : turn text pos = .ok (.opening (.vector n place) next)) :
    place = (rest text pos).toList := by
  rw [turn] at h
  split at h
  · split at h <;> cases h
    rfl
  · split at h
    · split at h
      · cases h
      · split at h
        · split at h <;> cases h
        · split at h <;> cases h
    · split at h <;> cases h

/-- The decoder reads turn by turn, and keeps the openings. -/
theorem lexeme_turn (openings : List Opening) (pos : Nat) :
    lexeme text openings pos = match turn text pos with
      | .error e => .error e
      | .ok (.opening o next) => lexeme text (o :: openings) next
      | .ok (.stem s next) => .ok (⟨openings, s⟩, next) := by
  have inside : ∀ {next : Nat}, pos < next ∧ isBoundary text next = true →
      pos < next ∧ next ≤ text.utf8ByteSize := fun h => h.imp_right le_of_isBoundary
  rw [lexeme.eq_def, turn]
  split
  · rcases hn : vectorLength text pos with e | ⟨n, next⟩
    · rfl
    · exact if_pos (inside (lt_of_vectorLength hn))
  · split
    · rcases hm : move text pos 1 with e | inner
      · rfl
      · dsimp only
        split
        · rcases reference text inner with e | ⟨i, next⟩ <;> rfl
        · rcases ha : attrs text inner with e | ⟨⟨attrs, spelled⟩, next⟩
          · rfl
          · exact if_pos (inside (lt_of_pointer hm ha))
    · rcases stem text pos with e | ⟨s, next⟩ <;> rfl

/-- Recursive descent reads turn by turn, and closes each opening on its way out. -/
theorem descend_turn (d : Decoder) (pos : Nat) :
    descend text d pos = match turn text pos with
      | .error e => (.error e, d)
      | .ok (.opening o next) => inside text (descend text d next) fun d h => d.closeOne h o
      | .ok (.stem s next) => built text next (d.resolve s) := by
  rw [descend, turn]
  split
  · split <;> simp only [*]
  · split
    · split
      · simp only [*]
      · simp only [*]
        split
        · rcases reference text _ with e | ⟨i, next⟩ <;> rfl
        · split <;> simp only [*]
    · rcases stem text pos with e | ⟨s, next⟩ <;> rfl

/-- What is built inside what was built is built in one go. -/
theorem inside_inside (r : Except Stop (Handle × Nat) × Decoder)
    (f g : Decoder → Handle → Except Fault Handle × Decoder) :
    inside text (inside text r f) g = inside text r fun d h =>
      match f d h with
      | (.ok h, d) => g d h
      | (.error e, d) => (.error e, d) := by
  obtain ⟨e | ⟨h, next⟩, d⟩ := r
  · rfl
  · simp only [inside, built]
    rcases f d h with ⟨e | h, d⟩ <;> rfl

/-- Builds what was read. -/
def finish (text : String) (d : Decoder) :
    Except Stop (Lexeme × Nat) → Except Stop (Handle × Nat) × Decoder
  | .error e => (.error e, d)
  | .ok (lexeme, next) => built text next (d.build lexeme)

/-- With openings in front of the cursor, the decoder does what recursive descent does from there on
and then closes the openings. The induction is on the text that is left, and each turn moves one
opening from the text to the list. -/
theorem finish_lexeme (d : Decoder) (openings : List Opening) (pos : Nat) :
    finish text d (lexeme text openings pos) =
      inside text (descend text d pos) fun d h => d.close h openings := by
  induction hn : text.utf8ByteSize - pos using Nat.strongRecOn generalizing openings pos with
  | _ n ih =>
    rw [lexeme_turn, descend_turn]
    rcases ht : turn text pos with e | ⟨o, next⟩ | ⟨s, next⟩
    · rfl
    · obtain ⟨hlt, hb⟩ := lt_of_turn ht
      have hle := le_of_isBoundary hb
      have hrest := ih _ (by omega) (o :: openings) next rfl
      dsimp only
      rw [inside_inside]
      exact hrest
    · dsimp only
      rw [finish, Decoder.build]
      rcases d.resolve s with ⟨e | h, d⟩ <;> rfl

theorem param_eq_descend (text : String) (d : Decoder) (pos : Nat) :
    param text d pos = descend text d pos := by
  have hin : inside text (descend text d pos) (fun d h => d.close h []) = descend text d pos := by
    rcases descend text d pos with ⟨e | ⟨h, next⟩, d⟩ <;> rfl
  have hfinish : param text d pos = finish text d (lexeme text [] pos) := by
    rw [param]
    rcases lexeme text [] pos with e | ⟨lexeme, next⟩
    · rfl
    · simp only [finish]
      rcases d.build lexeme with ⟨e | h, d⟩ <;> rfl
  rw [hfinish, finish_lexeme, hin]

/-! ### Openings in a row -/

/-- Turns from one place to another that read the openings, the innermost of which comes first. -/
inductive Opened (text : String) (start : Nat) : List Opening → Nat → Prop where
  | nil : Opened text start [] start
  | cons {openings : List Opening} {mid next : Nat} {o : Opening}
    (h : Opened text start openings mid)
    (ho : turn text mid = .ok (.opening o next)) : Opened text start (o :: openings) next

/-- A parameter starts with some openings, and what follows them is none. -/
theorem exists_opened (text : String) (pos : Nat) : ∃ openings mid, Opened text pos openings mid ∧
    ∀ o next, turn text mid ≠ .ok (.opening o next) := by
  have key : ∀ openings mid, Opened text pos openings mid → ∃ openings mid,
      Opened text pos openings mid ∧ ∀ o next, turn text mid ≠ .ok (.opening o next) := by
    intro openings mid h
    induction hn : text.utf8ByteSize - mid using Nat.strongRecOn generalizing openings mid with
    | _ n ih =>
      by_cases hmid : ∃ o next, turn text mid = .ok (.opening o next)
      · obtain ⟨o, next, ho⟩ := hmid
        obtain ⟨hlt, hb⟩ := lt_of_turn ho
        have hle := le_of_isBoundary hb
        exact ih _ (by omega) _ _ (h.cons ho) rfl
      · exact ⟨openings, mid, h, fun o next ho => hmid ⟨o, next, ho⟩⟩
  exact key [] pos .nil

/-- One of the openings stands behind those around it and in front of those inside. -/
theorem Opened.split {inner outer : List Opening} {o : Opening}
    (h : Opened text pos (inner ++ o :: outer) mid) : ∃ start after, Opened text pos outer start ∧
      turn text start = .ok (.opening o after) ∧ Opened text after inner mid := by
  induction inner generalizing mid with
  | nil =>
    cases h with
    | cons h ho => exact ⟨_, _, h, ho, .nil⟩
  | cons o' inner ih =>
    cases h with
    | cons h ho =>
      obtain ⟨start, after, hstart, hturn, hinner⟩ := ih h
      exact ⟨start, after, hstart, hturn, hinner.cons ho⟩

theorem Opened.isBoundary {start : Nat} (h : Opened text start openings mid)
    (hs : Cursor.isBoundary text start = true) : Cursor.isBoundary text mid = true := by
  cases h with
  | nil => exact hs
  | cons _ ho => exact (lt_of_turn ho).2

/-- Reading goes on behind the openings. -/
theorem Opened.lexeme {start : Nat} (h : Opened text start openings mid) (before : List Opening) :
    Cursor.lexeme text before start = Cursor.lexeme text (openings ++ before) mid := by
  induction h with
  | nil => rfl
  | cons _ ho ih => rw [ih, lexeme_turn, ho, List.cons_append]

/-- What is malformed behind the openings is found before anything is built. -/
theorem Opened.param_of_error (h : Opened text pos openings mid) {e : Stop}
    (he : turn text mid = .error e) : param text d pos = (.error e, d) := by
  rw [param, h.lexeme, lexeme_turn, he]

/-- If nothing is malformed, then what was read is built. -/
theorem Opened.param_of_stem (h : Opened text pos openings mid) {s : Stem}
    (hs : turn text mid = .ok (.stem s next)) :
    param text d pos = built text next (d.build ⟨openings, s⟩) := by
  rw [param, h.lexeme, lexeme_turn, hs, List.append_nil]
  dsimp only
  rcases d.build ⟨openings, s⟩ with ⟨e | g, d'⟩ <;> rfl

/-- The text from a place on starts at the place. -/
theorem offset_rest (h : isBoundary text pos = true) :
    offset text (rest text pos).toList = pos := by
  obtain ⟨front, back, htext, hpos⟩ :=
    String.Pos.Raw.isValid_iff_exists_append.1 (String.Pos.Raw.isValid_eq_true_iff.1 h)
  have happ : front.toList ++ back.toList = text.toList := by rw [htext, String.toList_append]
  have hoff : offset text back.toList = pos := by
    rw [← (splitsAt_offset happ).2, byteCount_toList]
    exact (congrArg String.Pos.Raw.byteIdx hpos).symm
  rw [← hoff, rest_eq ⟨_, happ⟩, String.toList_ofList]

end Cursor

/-! ### Types inside openings -/

namespace ArgType

/-- The type inside openings, the innermost of which comes first. -/
def around (t : ArgType) : List Opening → ArgType
  | [] => t
  | .pointer a _ :: openings => (pointer a t).around openings
  | .vector n _ :: openings => (cons (.vector n) t).around openings

/-- Each vector among the openings has a length, and a scalar inside. -/
def Fits (t : ArgType) : List Opening → Prop
  | [] => True
  | .pointer a _ :: openings => (pointer a t).Fits openings
  | .vector n _ :: openings => checkVector n t = .ok () ∧ (cons (.vector n) t).Fits openings

/-- If not all of them do, then one is the innermost that does not. -/
theorem exists_misfit {t : ArgType} {openings : List Opening} (h : ¬t.Fits openings) :
    ∃ inner n place outer e, openings = inner ++ .vector n place :: outer ∧ t.Fits inner ∧
      checkVector n (t.around inner) = .error e := by
  induction openings generalizing t with
  | nil => exact absurd trivial h
  | cons o openings ih =>
    cases o with
    | pointer a spelled =>
      obtain ⟨inner, n, place, outer, e, rfl, hfit, he⟩ := ih h
      exact ⟨.pointer a spelled :: inner, n, place, outer, e, rfl, hfit, he⟩
    | vector m start =>
      cases hc : checkVector m t with
      | error e => exact ⟨[], m, start, openings, e, rfl, trivial, hc⟩
      | ok u =>
        obtain ⟨inner, n, place, outer, e, rfl, hfit, he⟩ := ih fun hfit => h ⟨hc, hfit⟩
        exact ⟨.vector m start :: inner, n, place, outer, e, rfl, ⟨hc, hfit⟩, he⟩

end ArgType

namespace Decoder

variable {d : Decoder}

theorem close_append (d : Decoder) (h : Handle) (inner outer : List Opening) :
    d.close h (inner ++ outer) =
      match d.close h inner with
      | (.ok h, d) => d.close h outer
      | (.error e, d) => (.error e, d) := by
  induction inner generalizing d h with
  | nil => rfl
  | cons o inner ih =>
    rw [List.cons_append, close, close]
    rcases d.closeOne h o with ⟨e | g, d'⟩
    · rfl
    · exact ih d' g

/-- Around a stored node, openings that fit are closed, and yield a node of the type inside them. -/
theorem Valid.close_fits (hd : d.Valid) {h : Handle} (hm : h ∈ d.pool.nodes)
    {openings : List Opening} (hf : h.type.Fits openings) :
    ∃ r : Handle × Decoder, d.close h openings = (.ok r.1, r.2) ∧
      r.1 ∈ r.2.pool.nodes ∧ r.1.type = h.type.around openings := by
  induction openings generalizing d h with
  | nil => exact ⟨(h, d), rfl, hm, rfl⟩
  | cons o openings ih =>
    -- one opening is closed, and the others are closed around what that yields
    have rest : ∀ {t : ArgType} {table : List (Component ArgType)} {r : Handle × Decoder},
        d.closeOne h o = (.ok r.1, r.2) → d.Builds t table r → t.Fits openings →
          ∃ r : Handle × Decoder, d.close h (o :: openings) = (.ok r.1, r.2) ∧
            r.1 ∈ r.2.pool.nodes ∧ r.1.type = t.around openings := by
      rintro t table r hr hB hfit
      obtain rfl := hB.yields.type_eq
      obtain ⟨r', hr', hmem, htype⟩ := ih hB.valid hB.yields.mem hfit
      exact ⟨r', by rw [Decoder.close, hr]; exact hr', hmem, htype⟩
    cases o with
    | pointer a spelled =>
      obtain ⟨r, hr, hB⟩ := (hd.builds_self hm).pointer hd a spelled
      exact rest hr hB hf
    | vector n place =>
      obtain ⟨hn, hs⟩ := ArgType.checkVector_eq_ok_iff.1 hf.1
      obtain ⟨r, hr, hB⟩ := hd.vector hm hn hs
      exact rest (hr place) hB hf.2

/-- If one vector does not fit, but all inside it do, then closing stops there. -/
theorem Valid.close_misfit (hd : d.Valid) {h : Handle} (hm : h ∈ d.pool.nodes)
    {inner outer : List Opening} {n : UInt32} {place : List Char} {e : BuildError}
    (hf : h.type.Fits inner) (he : ArgType.checkVector n (h.type.around inner) = .error e) :
    (d.close h (inner ++ .vector n place :: outer)).1 = .error (.invalidType place e) := by
  obtain ⟨⟨g, d'⟩, hr, -, ht⟩ := hd.close_fits hm hf
  rw [← ht] at he
  rw [close_append, hr]
  simp only [close, closeOne, vector_of_error place he]

end Decoder

/-! ### The order of faults -/

namespace Cursor

/-- The decoder reads a parameter as recursive descent does. Wherever the cursor is and whatever is
in the pool and in the table, both have the same outcome: the same type, cursor, table and pool, or
the same fault at the same offset and the same pool; and so they have without a cursor. A parameter
starts with some openings, and no opening follows them. If what follows is malformed, then that is
the fault, and nothing is built, whatever the openings are; so what is malformed is found in the
order of the text. If it is a stem that stands for no type, then nothing is built either. Otherwise,
in a valid decoder, as every one is that started in a pool of a session, and from the start of a
character, the vectors among the openings decide: if each of them can be built, then the parameter
is, and its type is the one inside the openings; and if not, then the fault is at the innermost
vector that cannot be built, all vectors inside it being sound. -/
theorem param_descends (text : String) (d : Decoder) (pos : Nat) :
    (param text d pos = descend text d pos ∧ ∀ cs, d.param cs = d.descend cs) ∧
    (∃ openings mid, Opened text pos openings mid ∧
      ∀ o next, turn text mid ≠ .ok (.opening o next)) ∧
    (∀ s : Session, s.Reachable → ∀ (i : Nat) (p : Pool), s.pools[i]? = some p →
      ∀ cs rest, Decoder.Reading (.start p) cs d rest → d.Valid) ∧
    ∀ (openings : List Opening) (mid : Nat), Opened text pos openings mid →
      (∀ e, turn text mid = .error e → param text d pos = (.error e, d)) ∧
      ∀ (s : Stem) (next : Nat), turn text mid = .ok (.stem s next) →
        (∀ e d', d.resolve s = (.error e, d') →
          param text d pos = (.error (.fault (e.map (offset text))), d)) ∧
        ∀ (h : Handle) (d' : Decoder), d.resolve s = (.ok h, d') → d.Valid →
          isBoundary text pos = true →
          (h.type.Fits openings → ∃ g d'', param text d pos = (.ok (g, next), d'') ∧
            g ∈ d''.pool.nodes ∧ g.type = h.type.around openings) ∧
          (¬h.type.Fits openings → ∃ inner n place outer start after e,
            openings = inner ++ .vector n place :: outer ∧ Opened text pos outer start ∧
            turn text start = .ok (.opening (.vector n place) after) ∧
            Opened text after inner mid ∧ h.type.Fits inner ∧
            ArgType.checkVector n (h.type.around inner) = .error e ∧
            (param text d pos).1 = .error (.fault (.invalidType start e))) := by
  have hvalid : ∀ s : Session, s.Reachable → ∀ (i : Nat) (p : Pool), s.pools[i]? = some p →
      ∀ cs rest, Decoder.Reading (.start p) cs d rest → d.Valid := fun s hs i p hp cs rest hr =>
    Decoder.invariant_valid.reading (Decoder.valid_start (hs.valid.pool hp).1) hr
  refine ⟨⟨param_eq_descend text d pos, d.param_eq_descend⟩, exists_opened text pos, hvalid,
    fun openings mid ho => ⟨fun e he => ho.param_of_error he,
      fun s next hs => ⟨fun e d' hr => ?_, ?_⟩⟩⟩
  · rw [ho.param_of_stem hs, Decoder.build, hr, Decoder.eq_of_resolve_error hr]
    rfl
  · intro h d' hr hd hb
    have hbuild : param text d pos = built text next (d'.close h openings) := by
      rw [ho.param_of_stem hs, Decoder.build, hr]
    obtain ⟨hd', hm⟩ : d'.Valid ∧ h ∈ d'.pool.nodes := by
      have hleaves := Decoder.invariant_valid.resolve hd s
      rwa [hr] at hleaves
    refine ⟨fun hfit => ?_, fun hmisfit => ?_⟩
    · obtain ⟨⟨g, d''⟩, hclose, hmem, htype⟩ := hd'.close_fits hm hfit
      rw [hclose] at hbuild
      exact ⟨g, d'', hbuild, hmem, htype⟩
    · obtain ⟨inner, n, place, outer, e, rfl, hfit, he⟩ := ArgType.exists_misfit hmisfit
      obtain ⟨start, after, houter, hturn, hinner⟩ := ho.split
      refine ⟨inner, n, place, outer, start, after, e, rfl, houter, hturn, hinner, hfit, he, ?_⟩
      have hclose : (d'.close h (inner ++ .vector n place :: outer)).1
          = .error (.invalidType place e) := hd'.close_misfit hm hfit he
      have hplace := offset_rest (houter.isBoundary hb)
      rw [← place_of_turn hturn] at hplace
      rcases hc : d'.close h (inner ++ .vector n place :: outer) with ⟨r, d''⟩
      rw [hc] at hclose hbuild
      obtain rfl : r = .error (.invalidType place e) := hclose
      rw [hbuild, ← hplace]
      rfl

/-- Two vectors without elements, of which the inner one is the fault; and such a vector in front of
a head without a length, which is the fault then. -/
theorem param_descends_nested :
    (param "Dv0_PDv0_f" (.start (.empty 0)) 0).1
      = .error (.fault (.invalidType 5 .zeroLength)) ∧
    param "Dv0_PDv_f" (.start (.empty 0)) 0
      = (.error (.fault (.expectedLength 7)), .start (.empty 0)) := by
  constructor
  · have hd : (Decoder.start (.empty 0)).Valid := Decoder.valid_start (Pool.valid_emptyOf _)
    have first : turn "Dv0_PDv0_f" 0
        = .ok (.opening (.vector 0 "Dv0_PDv0_f".toList) 4) := by rfl
    have second : turn "Dv0_PDv0_f" 4 = .ok (.opening (.pointer .plain false) 5) := by rfl
    have third : turn "Dv0_PDv0_f" 5 = .ok (.opening (.vector 0 "Dv0_f".toList) 9) := by rfl
    have last : turn "Dv0_PDv0_f" 9 = .ok (.stem (.builtin .float) 10) := by rfl
    have opened : Opened "Dv0_PDv0_f" 0 _ 9 := ((Opened.nil.cons first).cons second).cons third
    obtain ⟨-, -, -, hfaults⟩ := param_descends "Dv0_PDv0_f" (.start (.empty 0)) 0
    obtain ⟨-, hstem⟩ := hfaults _ _ opened
    obtain ⟨-, hbuild⟩ := hstem _ _ last
    obtain ⟨-, hmisfit⟩ := hbuild _ _ rfl hd (by decide +kernel)
    -- no vector of zero elements fits, so nothing is inside the one that is found
    obtain ⟨inner, n, place, outer, start, after, e, hlist, houter, -, -, hfit, he, hparam⟩ :=
      hmisfit fun h => nomatch h.1
    cases inner with
    | cons o inner =>
      obtain ⟨rfl, -⟩ := List.cons.inj hlist
      exact nomatch hfit.1
    | nil =>
      cases hlist
      rcases houter with _ | ⟨houter, hsecond⟩
      rcases houter with _ | ⟨houter, hfirst⟩
      cases houter
      rw [first] at hfirst
      cases hfirst
      rw [second] at hsecond
      cases hsecond
      cases he
      exact hparam
  · have first : turn "Dv0_PDv_f" 0 = .ok (.opening (.vector 0 "Dv0_PDv_f".toList) 4) := by rfl
    have second : turn "Dv0_PDv_f" 4 = .ok (.opening (.pointer .plain false) 5) := by rfl
    have third : turn "Dv0_PDv_f" 5 = .error (.fault (.expectedLength 7)) := by rfl
    exact ((param_descends _ _ _).2.2.2 _ _ ((Opened.nil.cons first).cons second)).1 _ third

end Cursor

end KernelSymbol
