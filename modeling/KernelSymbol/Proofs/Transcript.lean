import KernelSymbol.Proofs.Derivation
import KernelSymbol.Symbol.Transcript

/-!
# Transcripts are strict spellings

What a transcript writes for a type is a derivation of the strict grammar from the table before
to the table after. A transcript refers to whole types only. A plain pointer to something that is
in the table is therefore written as a `P` and a reference, which is what the grammar reads from
such a text as well.

All look-ups of one type are made in the table that was there when the type was begun, because
components are recorded on the way out. So references stay small as long as that table is.

## Main results

* `Transcript.mem_table_type`, `Transcript.paired_type`, `Transcript.nodup_type` — how the table
  grows
* `Transcript.typeText`, `Transcript.typesText` — the text is a strict spelling
-/

namespace KernelSymbol

namespace Transcript

/-! ### One type -/

@[simp] theorem text_write (s : Transcript) (text : String) :
    (s.write text).text = s.text ++ text := rfl

@[simp] theorem table_write (s : Transcript) (text : String) : (s.write text).table = s.table := rfl

@[simp] theorem text_record (s : Transcript) (c : Component ArgType) :
    (s.record c).text = s.text := rfl

@[simp] theorem table_record (s : Transcript) (c : Component ArgType) :
    (s.record c).table = s.table ++ [c] := rfl

theorem type_builtin (s : Transcript) (b : Builtin) : s.type (.builtin b) = s.write b.code := rfl

theorem type_named (s : Transcript) (name : String) :
    s.type ⟨[], .named name⟩ = s.refer ⟨[], .named name⟩ (·.write (sourceName name)) := rfl

theorem type_vector (s : Transcript) (n : UInt32) (t : ArgType) :
    s.type (.cons (.vector n) t) =
      s.refer (.cons (.vector n) t) fun s => (s.write (vectorCode n)).type t := rfl

theorem type_pointer (s : Transcript) (a : PointerAttrs) (t : ArgType) :
    s.type (.pointer a t) = s.refer (.pointer a t) fun s =>
      let s := (s.write ("P" ++ a.code)).type t
      if a.isPlain then s else s.record (.qualified a t) := rfl

theorem refer_of_some {s : Transcript} {t : ArgType} {i : Nat}
    (h : s.table.idxOf? (.whole t) = some i) (spell : Transcript → Transcript) :
    s.refer t spell = s.write (backReference i) := by rw [refer, h]

theorem refer_of_none {s : Transcript} {t : ArgType} (h : s.table.idxOf? (.whole t) = none)
    (spell : Transcript → Transcript) : s.refer t spell = (spell s).record (.whole t) := by
  rw [refer, h]

/-- The two ways in which a component is written. -/
theorem refer_cases (s : Transcript) (t : ArgType) (spell : Transcript → Transcript) :
    (∃ i, s.table[i]? = some (.whole t) ∧ s.refer t spell = s.write (backReference i)) ∨
      (.whole t ∉ s.table ∧ s.refer t spell = (spell s).record (.whole t)) := by
  cases h : s.table.idxOf? (.whole t) with
  | none => exact .inr ⟨List.idxOf?_eq_none_iff.1 h, refer_of_none h spell⟩
  | some i =>
    obtain ⟨hi, he, -⟩ := List.idxOf?_eq_some_iff.1 h
    refine .inl ⟨i, ?_, refer_of_some h spell⟩
    rw [List.getElem?_eq_getElem hi, he]

/-- A pointer or a vector that is in the table is referred to. -/
theorem type_cons_of_some {s : Transcript} {l : Link} {t : ArgType} {i : Nat}
    (h : s.table.idxOf? (.whole (.cons l t)) = some i) :
    s.type (.cons l t) = s.write (backReference i) := by
  cases l with
  | vector n => exact (type_vector s n t).trans (refer_of_some h _)
  | pointer a => exact (type_pointer s a t).trans (refer_of_some h _)

/-! ### The table -/

/-- What a pointer does to the table. -/
theorem table_pointer (s : Transcript) (a : PointerAttrs) (t : ArgType) :
    (s.type (.pointer a t)).table = s.table ∨
      .whole (.pointer a t) ∉ s.table ∧ (s.type (.pointer a t)).table =
        ((s.write ("P" ++ a.code)).type t).table ++ a.component t ++ [.whole (.pointer a t)] := by
  rw [type_pointer]
  rcases refer_cases s (.pointer a t) _ with ⟨i, -, h⟩ | ⟨hn, h⟩
  · rw [h]
    exact .inl rfl
  · rw [h]
    refine .inr ⟨hn, ?_⟩
    rw [PointerAttrs.component]
    split <;> simp

/-- What a vector does to the table. -/
theorem table_vector (s : Transcript) (n : UInt32) (t : ArgType) :
    (s.type (.cons (.vector n) t)).table = s.table ∨
      .whole (.cons (.vector n) t) ∉ s.table ∧ (s.type (.cons (.vector n) t)).table =
        ((s.write (vectorCode n)).type t).table ++ [.whole (.cons (.vector n) t)] := by
  rw [type_vector]
  rcases refer_cases s (.cons (.vector n) t) _ with ⟨i, -, h⟩ | ⟨hn, h⟩
  · rw [h]
    exact .inl rfl
  · rw [h]
    exact .inr ⟨hn, rfl⟩

/-- What a named type does to the table. -/
theorem table_named (s : Transcript) (name : String) :
    (s.type ⟨[], .named name⟩).table = s.table ∨
      .whole ⟨[], .named name⟩ ∉ s.table ∧
        (s.type ⟨[], .named name⟩).table = s.table ++ [.whole ⟨[], .named name⟩] := by
  rw [type_named]
  rcases refer_cases s ⟨[], .named name⟩ _ with ⟨i, -, h⟩ | ⟨hn, h⟩
  · rw [h]
    exact .inl rfl
  · rw [h]
    exact .inr ⟨hn, rfl⟩

/-- Only components of the type are added. -/
theorem mem_table_type {s : Transcript} {t : ArgType} {c : Component ArgType}
    (h : c ∈ (s.type t).table) : c ∈ s.table ∨ c ∈ t.components := by
  induction t using ArgType.ind generalizing s with
  | leaf l =>
    cases l with
    | builtin b => exact .inl h
    | named name =>
      rcases table_named s name with ht | ⟨-, ht⟩ <;> rw [ht] at h
      · exact .inl h
      · simpa using h
  | cons l t ih =>
    cases l with
    | vector n =>
      rw [ArgType.components_vector]
      rcases table_vector s n t with ht | ⟨-, ht⟩ <;> rw [ht] at h
      · exact .inl h
      · rcases List.mem_append.1 h with h | h
        · exact (ih h).imp_right (List.mem_append_left _)
        · exact .inr (List.mem_append_right _ h)
    | pointer a =>
      rw [show ArgType.cons (.pointer a) t = .pointer a t from rfl] at h ⊢
      rw [ArgType.components_pointer]
      rcases table_pointer s a t with ht | ⟨-, ht⟩ <;> rw [ht] at h
      · exact .inl h
      · rcases List.mem_append.1 h with h | h
        · rcases List.mem_append.1 h with h | h
          · exact (ih h).imp_right fun hc => List.mem_append_left _ (List.mem_append_left _ hc)
          · exact .inr (List.mem_append_left _ (List.mem_append_right _ h))
        · exact .inr (List.mem_append_right _ h)

/-- A table stays one in which attributes come with their pointer. -/
theorem paired_type {s : Transcript} (h : PairedTable s.table) (t : ArgType) :
    PairedTable (s.type t).table := by
  induction t using ArgType.ind generalizing s with
  | leaf l =>
    cases l with
    | builtin b => exact h
    | named name =>
      rcases table_named s name with ht | ⟨-, ht⟩ <;> rw [ht]
      · exact h
      · exact h.whole _
  | cons l t ih =>
    cases l with
    | vector n =>
      rcases table_vector s n t with ht | ⟨-, ht⟩ <;> rw [ht]
      · exact h
      · exact (ih (s := s.write _) h).whole _
    | pointer a =>
      rw [show ArgType.cons (.pointer a) t = .pointer a t from rfl]
      rcases table_pointer s a t with ht | ⟨-, ht⟩ <;> rw [ht]
      · exact h
      · rw [PointerAttrs.component]
        split
        · rw [List.append_nil]
          exact (ih (s := s.write _) h).whole _
        · exact (ih (s := s.write _) h).pointer a t

/-- What is neither in the table nor a component of the type is not added. -/
theorem not_mem_table_type {s : Transcript} {t : ArgType} {c : Component ArgType}
    (hs : c ∉ s.table) (ht : c ∉ t.components) : c ∉ (s.type t).table := fun h =>
  (mem_table_type h).elim hs ht

private theorem nodup_concat {table : List (Component ArgType)} {c : Component ArgType}
    (h : table.Nodup) (hc : c ∉ table) : (table ++ [c]).Nodup := by
  refine List.nodup_append.2 ⟨h, by simp, ?_⟩
  rintro d hd e he rfl
  obtain rfl := List.mem_singleton.1 he
  exact hc hd

theorem nodup_type {s : Transcript} (h : PairedTable s.table) (hs : s.table.Nodup)
    (t : ArgType) : (s.type t).table.Nodup := by
  induction t using ArgType.ind generalizing s with
  | leaf l =>
    cases l with
    | builtin b => exact hs
    | named name =>
      rcases table_named s name with ht | ⟨hn, ht⟩ <;> rw [ht]
      · exact hs
      · exact nodup_concat hs hn
  | cons l t ih =>
    cases l with
    | vector n =>
      rcases table_vector s n t with ht | ⟨hn, ht⟩ <;> rw [ht]
      · exact hs
      · exact nodup_concat (ih (s := s.write _) h hs)
          (not_mem_table_type hn (ArgType.whole_cons_not_mem_components _ t))
    | pointer a =>
      rw [show ArgType.cons (.pointer a) t = .pointer a t from rfl]
      rcases table_pointer s a t with ht | ⟨hn, ht⟩ <;> rw [ht]
      · exact hs
      · have hin := ih (s := s.write ("P" ++ a.code)) h hs
        have hw : .whole (.pointer a t) ∉ ((s.write ("P" ++ a.code)).type t).table :=
          not_mem_table_type hn (ArgType.whole_cons_not_mem_components _ t)
        rw [PointerAttrs.component]
        split
        · rw [List.append_nil]
          exact nodup_concat hin hw
        · have hq : .qualified a t ∉ ((s.write ("P" ++ a.code)).type t).table :=
            not_mem_table_type (fun hm => hn (h a t hm)) (ArgType.qualified_not_mem_components a t)
          exact nodup_concat (nodup_concat hin hq) (by simpa using hw)

/-! ### The text -/

/-- What a transcript writes for a builtin is its spelling. -/
theorem typeText_builtin (b : Builtin) (table : List (Component ArgType)) :
    TypeText .strict table b.code.toList (.builtin b) table := by
  cases h : b.spelling with
  | letter c =>
    have hc : b.code.toList = [c] := by simp [Builtin.code_eq, h, Spelling.text]
    rw [hc]
    exact .letter h
  | extended c =>
    have hc : b.code.toList = ['D', c] := by simp [Builtin.code_eq, h, Spelling.text]
    rw [hc]
    exact .extended h
  | source name =>
    have hc : b.code.toList = (sourceName name).toList := by
      simp [Builtin.code_eq, h, Spelling.text]
    rw [hc]
    obtain ⟨hne, hd, hb⟩ := Builtin.source_spelling h
    exact .source h (nameText_sourceName hne hd hb)

/-- The pointers of a type that have bits which cannot be spelled are all in a table, and so are
only referred to. -/
def SpellsAll (table : List (Component ArgType)) (t : ArgType) : Prop :=
  ∀ (a : PointerAttrs) (rest : List Link), .pointer a :: rest <:+ t.links → ¬a.qualifiers.Known →
    .whole ⟨.pointer a :: rest, t.leaf⟩ ∈ table

/-- A type of qualifiers alone is spelled whatever the table. -/
theorem SpellsAll.of_known {t : ArgType} (h : t.Known) (table : List (Component ArgType)) :
    SpellsAll table t := fun _ _ hs hk => absurd (h _ (hs.subset List.mem_cons_self)) hk

theorem SpellsAll.tail {table : List (Component ArgType)} {l : Link} {t : ArgType}
    (h : SpellsAll table (.cons l t)) : SpellsAll table t :=
  fun a rest hs => h a rest (hs.trans (List.suffix_cons ..))

/-- What a transcript writes for a type is a strict spelling, if the name in it can be read back,
the table is not too large, and no pointer is spelled that has bits which cannot be. -/
theorem typeText {t : ArgType} (hw : t.WellFormed) (hl : t.Legible)
    (hb : t.NameBelow numberBound) (s : Transcript) (hk : SpellsAll s.table t)
    (hs : s.table.length ≤ numberBound) :
    ∃ cs, (s.type t).text = s.text ++ String.ofList cs ∧
      TypeText .strict s.table cs t (s.type t).table := by
  have reference : ∀ {s : Transcript} {i : Nat} {t : ArgType}, s.table.length ≤ numberBound →
      s.table[i]? = some (.whole t) → ReferenceText .strict i (backReference i).toList := by
    intro s i t hs hi
    exact referenceText_backReference
      (Nat.le_trans (Nat.le_of_lt (List.getElem?_eq_some_iff.1 hi).1) hs)
  induction hw generalizing s with
  | builtin b =>
    exact ⟨b.code.toList, by rw [String.ofList_toList]; rfl, typeText_builtin b s.table⟩
  | @named name hne =>
    rw [type_named]
    rcases refer_cases s ⟨[], .named name⟩ _ with ⟨i, hi, h⟩ | ⟨hn, h⟩ <;> rw [h]
    · exact ⟨(backReference i).toList, by simp, .reference hi (reference hs hi)⟩
    · refine ⟨(sourceName name).toList, by simp, .named (hl.not_builtin rfl) ?_⟩
      exact nameText_sourceName hne (hl.not_digit rfl) (hb name rfl)
  | @vector n b hn hscalar =>
    rw [show (⟨[.vector n], .builtin b⟩ : ArgType) = .cons (.vector n) (.builtin b) from rfl,
      type_vector]
    rcases refer_cases s (.cons (.vector n) (.builtin b)) _ with ⟨i, hi, h⟩ | ⟨hm, h⟩ <;> rw [h]
    · exact ⟨(backReference i).toList, by simp, .reference hi (reference hs hi)⟩
    · have hd : NumberText .strict .ten n.toNat (Radix.ten.digits n.toNat) :=
        ⟨Nat.lt_trans n.toNat_lt (by decide), rfl⟩
      have hsc : (ArgType.builtin b).isScalar = true := ArgType.isScalar_iff.2 ⟨b, rfl, hscalar⟩
      have ht := typeText_builtin b s.table
      refine ⟨['D', 'v'] ++ Radix.ten.digits n.toNat ++ ['_'] ++ b.code.toList, ?_,
        .vector hn hsc hd ht⟩
      rw [text_record, type_builtin, ← String.toList_inj]
      simp [vectorCode, Radix.text]
  | @pointer a t hw ih =>
    obtain ⟨cs, htext, ht⟩ :=
      ih ⟨hl.not_digit, hl.not_builtin⟩ hb (s.write ("P" ++ a.code)) hk.tail hs
    rw [type_pointer]
    rcases refer_cases s (.pointer a t) _ with ⟨i, hi, h⟩ | ⟨hm, h⟩ <;> rw [h]
    · exact ⟨(backReference i).toList, by simp, .reference hi (reference hs hi)⟩
    · have hka : a.qualifiers.Known :=
        Decidable.not_not.1 fun hka => hm (hk _ _ List.suffix_rfl hka)
      refine ⟨'P' :: a.code.toList ++ cs, ?_, ?_⟩
      · rw [← String.toList_inj]
        by_cases hp : a.isPlain = true <;> simp [hp, htext]
      · by_cases hp : a.isPlain = true
        · obtain rfl := PointerAttrs.isPlain_iff.1 hp
          rw [if_pos hp]
          by_cases hS : cs.head? = some 'S'
          · -- a plain pointer to what was written before reads as a pointer to a reference
            obtain ⟨i, hi, hr, htable⟩ := ht.reference_of_head hS
            rw [table_record, htable]
            exact .pointerTo hi hr
          · have hP := TypeText.pointer (attrsText_code hka) (fun _ => hS) ht
            rw [if_neg (by decide), List.append_nil] at hP
            exact hP
        · rw [if_neg hp]
          have ha := attrsText_code hka
          rw [Bool.eq_false_iff.2 hp] at ha
          exact .pointer ha (fun h => absurd h (by decide)) ht

/-- Spelling a component leaves room for it beside the components below it. -/
private theorem length_refer {s : Transcript} {spell : Transcript → Transcript} (t : ArgType)
    (h : (spell s).table.length + 2 * s.text.length < s.table.length + 2 * (spell s).text.length) :
    (s.refer t spell).table.length + 2 * s.text.length
      ≤ s.table.length + 2 * (s.refer t spell).text.length := by
  rcases refer_cases s t spell with ⟨i, -, he⟩ | ⟨-, he⟩ <;> rw [he]
  · simp only [table_write, text_write, String.length_append]
    omega
  · simp only [table_record, text_record, List.length_append, List.length_singleton]
    omega

/-- A type adds at most two components for each character: a pointer that has only bits which cannot
be spelled adds both of its components with its `P`. -/
theorem length_table_type (s : Transcript) (t : ArgType) :
    (s.type t).table.length + 2 * s.text.length
      ≤ s.table.length + 2 * (s.type t).text.length := by
  induction t using ArgType.ind generalizing s with
  | leaf l =>
    cases l with
    | builtin b =>
      rw [show (⟨[], .builtin b⟩ : ArgType) = .builtin b from rfl, type_builtin]
      simp only [table_write, text_write, String.length_append]
      omega
    | named name =>
      have hd := List.length_pos_iff.2 (Radix.ten.digits_ne_nil name.utf8ByteSize)
      refine length_refer _ ?_
      simp only [table_write, text_write, String.length_append, sourceName, Radix.text,
        String.length_ofList]
      omega
  | cons l t ih =>
    cases l with
    | vector n =>
      have hin := ih (s.write (vectorCode n))
      have hc : 0 < (vectorCode n).length := by
        rw [vectorCode, String.length_append]
        exact Nat.succ_pos _
      simp only [table_write, text_write, String.length_append] at hin
      rw [type_vector]
      refine length_refer _ ?_
      omega
    | pointer a =>
      have hin := ih (s.write ("P" ++ a.code))
      have hP : "P".length = 1 := rfl
      simp only [table_write, text_write, String.length_append] at hin
      rw [show ArgType.cons (.pointer a) t = .pointer a t from rfl, type_pointer]
      refine length_refer _ ?_
      dsimp only
      by_cases hp : a.isPlain = true
      · rw [if_pos hp]
        omega
      · rw [if_neg hp]
        simp only [table_record, text_record, List.length_append, List.length_singleton]
        omega

/-- Components are only ever added behind the others. -/
theorem table_prefix_type (s : Transcript) (t : ArgType) : s.table <+: (s.type t).table := by
  induction t using ArgType.ind generalizing s with
  | leaf l =>
    cases l with
    | builtin b => exact List.prefix_rfl
    | named name =>
      rcases table_named s name with ht | ⟨-, ht⟩
      · simp only [ht, List.prefix_rfl]
      · rw [ht]
        exact List.prefix_append ..
  | cons l t ih =>
    cases l with
    | vector n =>
      rcases table_vector s n t with ht | ⟨-, ht⟩
      · simp only [ht, List.prefix_rfl]
      · rw [ht]
        exact (ih (s.write _)).trans (List.prefix_append ..)
    | pointer a =>
      rw [show ArgType.cons (.pointer a) t = .pointer a t from rfl]
      rcases table_pointer s a t with ht | ⟨-, ht⟩
      · simp only [ht, List.prefix_rfl]
      · rw [ht, List.append_assoc]
        exact (ih (s.write _)).trans (List.prefix_append ..)

/-! ### Several types -/

section

variable {ts : List ArgType} {s : Transcript}

theorem mem_table_foldl {c : Component ArgType} (h : c ∈ (ts.foldl type s).table) :
    c ∈ s.table ∨ ∃ t ∈ ts, c ∈ t.components := by
  induction ts generalizing s with
  | nil => exact .inl h
  | cons t ts ih =>
    rcases ih h with h | ⟨u, hu, hc⟩
    · rcases mem_table_type h with h | h
      · exact .inl h
      · exact .inr ⟨t, List.mem_cons_self, h⟩
    · exact .inr ⟨u, List.mem_cons_of_mem _ hu, hc⟩

theorem nodup_foldl (h : PairedTable s.table) (hs : s.table.Nodup) :
    (ts.foldl type s).table.Nodup := by
  induction ts generalizing s with
  | nil => exact hs
  | cons t ts ih => exact ih (paired_type h t) (nodup_type h hs t)

theorem table_prefix_foldl : s.table <+: (ts.foldl type s).table := by
  induction ts generalizing s with
  | nil => exact List.prefix_rfl
  | cons t ts ih => exact (table_prefix_type s t).trans ih

theorem length_table_foldl :
    (ts.foldl type s).table.length + 2 * s.text.length
      ≤ s.table.length + 2 * (ts.foldl type s).text.length := by
  induction ts generalizing s with
  | nil => exact Nat.le_refl _
  | cons t ts ih =>
    have h := length_table_type s t
    have hs := @ih (s.type t)
    rw [List.foldl_cons]
    omega

theorem typesText (hw : ∀ t ∈ ts, t.WellFormed) (hl : ∀ t ∈ ts, t.Legible)
    (hk : ∀ t ∈ ts, t.Known) (hb : ∀ t ∈ ts, t.NameBelow numberBound)
    (hs : (ts.foldl type s).table.length ≤ numberBound) :
    ∃ cs, (ts.foldl type s).text = s.text ++ String.ofList cs ∧
      TypesText .strict s.table cs ts (ts.foldl type s).table := by
  induction ts generalizing s with
  | nil => exact ⟨[], by simp, .nil⟩
  | cons t ts ih =>
    obtain ⟨hwt, hwts⟩ := List.forall_mem_cons.1 hw
    obtain ⟨hlt, hlts⟩ := List.forall_mem_cons.1 hl
    obtain ⟨hkt, hkts⟩ := List.forall_mem_cons.1 hk
    obtain ⟨hbt, hbts⟩ := List.forall_mem_cons.1 hb
    have hprefix : s.table <+: ((t :: ts).foldl type s).table := table_prefix_foldl
    have hsize : s.table.length ≤ numberBound := Nat.le_trans hprefix.length_le hs
    obtain ⟨cs, htext, ht⟩ := typeText hwt hlt hbt s (SpellsAll.of_known hkt _) hsize
    obtain ⟨ds, htexts, hts⟩ := ih hwts hlts hkts hbts hs
    refine ⟨cs ++ ds, ?_, .cons ht hts⟩
    rw [List.foldl_cons, htexts, htext, String.append_assoc, String.ofList_append]

end

/-! ### Whole symbols -/

variable {f : Signature ArgType}

theorem mem_table_signature {c : Component ArgType} (h : c ∈ (signature f).table) :
    ∃ t ∈ f.params, c ∈ t.components := by
  rw [signature] at h
  split at h
  · cases h
  · exact (mem_table_foldl h).resolve_left List.not_mem_nil

theorem nodup_signature (f : Signature ArgType) : (signature f).table.Nodup := by
  rw [signature]
  split
  · exact List.nodup_nil
  · exact nodup_foldl pairedTable_nil List.nodup_nil

/-- There are at most twice as many components in a symbol as characters. -/
theorem length_table_signature (f : Signature ArgType) :
    (signature f).table.length ≤ 2 * (signature f).text.length := by
  rw [signature]
  split
  · exact Nat.zero_le _
  · have h := @length_table_foldl f.params (start ("_Z" ++ sourceName f.name))
    simp only [start, List.length_nil] at h
    simp only [start]
    omega

/-- What a transcript writes for a signature is a strict spelling of it, if the names in it can
be read back, qualifiers are all that its pointers have, the table is not too large, and the
parameter list is not the pseudo type `void`. -/
theorem symbolText (hne : f.name ≠ "") (hd : ¬StartsWithDigit f.name)
    (hsize : f.name.utf8ByteSize < numberBound) (hw : ∀ t ∈ f.params, t.WellFormed)
    (hl : ∀ t ∈ f.params, t.Legible) (hk : ∀ t ∈ f.params, t.Known)
    (hb : ∀ t ∈ f.params, t.NameBelow numberBound)
    (hv : f.params ≠ [.builtin .void]) (hs : (signature f).table.length ≤ numberBound) :
    SymbolText .strict (signature f).text.toList f.name f.params (signature f).table := by
  have hn := nameText_sourceName hne hd hsize
  rw [signature] at hs ⊢
  split
  next he =>
    have hparams : f.params = [] := List.isEmpty_iff.1 he
    have htext : ((start ("_Z" ++ sourceName f.name)).write "v").text.toList
        = ['_', 'Z'] ++ (sourceName f.name).toList ++ ['v'] := by simp [start]
    rw [htext, hparams]
    exact .mk hn .none
  next he =>
    rw [if_neg he] at hs
    obtain ⟨cs, htext, ht⟩ := typesText hw hl hk hb hs
    have hcs : (f.params.foldl type (start ("_Z" ++ sourceName f.name))).text.toList
        = ['_', 'Z'] ++ (sourceName f.name).toList ++ cs := by
      rw [htext]
      simp [start]
    rw [hcs]
    refine .mk hn (.some ht ?_ (mt ht.eq_v_iff.1 hv))
    rintro rfl
    exact he (List.isEmpty_iff.2 ht.eq_nil)

end Transcript

end KernelSymbol
