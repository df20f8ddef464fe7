import KernelSymbol.Proofs.Roundtrip
import KernelSymbol.Proofs.Unambiguous

/-!
# Which symbols an encoder writes

Not every symbol that is decoded is what an encoder writes for its signature. The encoder's symbol
has no zero too many in a number, does not spell out the private address space, and refers to what
was spelled before wherever it can, so no component is completed twice. These three conditions are
all there is: a symbol that meets them is written by the encoder, character by character.

That nothing was completed twice is a condition on the decoder's table at the end of the text, but
it decides every choice on the way. What is referred to is referred to by its only place. What is
spelled out was not in the table, because it enters the table afterwards. And no pointer refers to
the attributes of another one, because the pointer that they came with has the same type.

## Main results

* `TypeText.type_eq` — a strict spelling without repeated components is what a transcript writes
* `Session.Reachable.encode_eq_iff` — a symbol is what an encoder writes if and only if it meets
  the three conditions
-/

namespace KernelSymbol

/-! ### Strict spellings of the small parts -/

section

variable {cs : List Char}

/-- The strict spelling of a name is the one that is written. -/
theorem NameText.eq_sourceName {name : String} (h : NameText .strict name cs) :
    cs = (sourceName name).toList := by
  obtain ⟨c, tail, digits, hname, -, hn, rfl⟩ := h
  rw [hn.2]
  simp [sourceName, Radix.text, hname]

theorem ReferenceText.eq_backReference {i : Nat} (h : ReferenceText .strict i cs) :
    cs = (backReference i).toList := by
  cases h with
  | first => rfl
  | later h =>
    rw [h.2]
    simp [backReference, Radix.text]

/-- The strict spelling of attributes is the one that is written, and says something unless they
are plain. -/
theorem AttrsText.eq_code {a : PointerAttrs} {spelled : Bool} (h : AttrsText .strict a spelled cs) :
    cs = a.code.toList ∧ spelled = !a.isPlain := by
  obtain ⟨hs, qs⟩ := h
  cases hs with
  | silent =>
    have hd : AddressSpace.isDefault default = true := rfl
    exact ⟨by simp [PointerAttrs.code, AddressSpace.code, QualifierSet.code, hd], rfl⟩
  | spelled s hs =>
    have hd : s.isDefault = false := by
      rw [← Bool.not_eq_true, AddressSpace.isDefault_iff]
      exact hs rfl
    refine ⟨?_, ?_⟩
    · simp [PointerAttrs.code, AddressSpace.code, QualifierSet.code, hd, Radix.text]
    · simp [PointerAttrs.isPlain, hd]

end

/-! ### The tables of derivations -/

section

variable {style : Style} {table table' : List (Component ArgType)} {cs : List Char} {t : ArgType}
  {ts : List ArgType}

/-- A derivation keeps attributes together with their pointer. -/
theorem TypeText.paired (h : TypeText style table cs t table') (hp : PairedTable table) :
    PairedTable table' := by
  induction h with
  | letter | extended | source | reference => exact hp
  | named => exact hp.whole _
  | vector _ _ _ _ ih => exact ih.whole _
  | pointerTo | pointerToQualified => exact hp.whole _
  | @pointer table' a spelled t as cs _ _ _ ih =>
    cases spelled with
    | false => simpa using ih.whole _
    | true => exact ih.pointer a t

/-- No builtin is in a table as a whole, so none can be referred to. -/
def NoBuiltin (table : List (Component ArgType)) : Prop :=
  ∀ b : Builtin, .whole (.builtin b) ∉ table

theorem TypeText.noBuiltin (h : TypeText style table cs t table') (hb : NoBuiltin table) :
    NoBuiltin table' := by
  have push : ∀ {table : List (Component ArgType)} {t : ArgType}, NoBuiltin table →
      t.builtin? = none → NoBuiltin (table ++ [.whole t]) := by
    intro table t hb ht b hm
    rcases List.mem_append.1 hm with hm | hm
    · exact hb b hm
    · obtain rfl : ArgType.builtin b = t := by simpa using hm
      cases ht
  induction h with
  | letter | extended | source | reference => exact hb
  | named => exact push hb rfl
  | vector _ _ _ _ ih => exact push ih rfl
  | pointerTo | pointerToQualified => exact push hb rfl
  | @pointer table' a spelled t as cs _ _ _ ih =>
    refine push ?_ rfl
    cases spelled with
    | false => simpa using ih
    | true => exact fun b hm => ih b (by simpa using hm)

end

/-! ### Spellings without repeated components -/

private theorem not_mem_of_nodup_concat {table : List (Component ArgType)}
    {c : Component ArgType} (h : (table ++ [c]).Nodup) : c ∉ table := fun hm =>
  (List.nodup_append.1 h).2.2 c hm c (List.mem_singleton_self c) rfl

theorem Transcript.signature_nil (name : String) :
    signature ⟨name, []⟩ = (start ("_Z" ++ sourceName name)).write "v" := rfl

theorem Transcript.signature_of_ne_nil {name : String} {ts : List ArgType} (h : ts ≠ []) :
    signature ⟨name, ts⟩ = ts.foldl type (start ("_Z" ++ sourceName name)) :=
  if_neg (mt List.isEmpty_iff.1 h)

/-- Every type that can be referred to is referred to if it is in the table. -/
theorem Transcript.type_of_some {s : Transcript} {t : ArgType} {i : Nat}
    (hb : ∀ b, t ≠ .builtin b) (h : s.table.idxOf? (.whole t) = some i) :
    s.type t = s.write (backReference i) := by
  obtain ⟨_ | ⟨l, ls⟩, b | name⟩ := t
  · exact absurd rfl (hb b)
  · exact (type_named s name).trans (refer_of_some h _)
  all_goals exact type_cons_of_some (t := ⟨ls, _⟩) h

section

variable {table table' : List (Component ArgType)} {cs : List Char} {t : ArgType}
  {ts : List ArgType} {s : Transcript}

/-- What is in a table without repetitions is referred to by its only place. -/
theorem ReferenceText.type_eq {i : Nat} (hr : ReferenceText .strict i cs)
    (hi : s.table[i]? = some (.whole t)) (hb : NoBuiltin s.table) (hd : s.table.Nodup) :
    s.type t = s.write (String.ofList cs) := by
  have hne : ∀ b, t ≠ .builtin b := by
    rintro b rfl
    exact hb b (List.mem_of_getElem? hi)
  rw [Transcript.type_of_some hne ((idxOf?_eq_some_iff_of_nodup hd).2 hi), hr.eq_backReference,
    String.ofList_toList]

/-- A strict spelling that completes no component twice is what a transcript writes. -/
theorem TypeText.type_eq (h : TypeText .strict s.table cs t table') (hp : PairedTable s.table)
    (hno : NoBuiltin s.table) (hd : table'.Nodup) :
    s.type t = ⟨s.text ++ String.ofList cs, table'⟩ := by
  generalize hs : s.table = table at h
  induction h generalizing s with
  | @letter b c hb =>
    have hc : b.code = String.ofList [c] := by
      rw [Builtin.code_eq, hb]
      rfl
    rw [Transcript.type_builtin, hc, ← hs]
    rfl
  | @extended b c hb =>
    have hc : b.code = String.ofList ['D', c] := by
      rw [Builtin.code_eq, hb]
      simp [Spelling.text]
    rw [Transcript.type_builtin, hc, ← hs]
    rfl
  | @source b name cs hb hn =>
    have hc : b.code = String.ofList cs := by
      rw [Builtin.code_eq, hb, hn.eq_sourceName, String.ofList_toList]
      rfl
    rw [Transcript.type_builtin, hc, ← hs]
    rfl
  | @named name cs hb hn =>
    subst hs
    have hm := List.idxOf?_eq_none_iff.2 (not_mem_of_nodup_concat hd)
    rw [Transcript.type_named, Transcript.refer_of_none hm, hn.eq_sourceName, String.ofList_toList]
    rfl
  | reference hi hr =>
    subst hs
    exact hr.type_eq hi hno hd
  | @vector table' n t digits cs hn hscalar hdigits ht ih =>
    subst hs
    have hm : .whole (.cons (.vector n) t) ∉ s.table := fun hm =>
      not_mem_of_nodup_concat hd (ht.table_prefix.subset hm)
    have hin := ih (s := s.write (vectorCode n)) hp hno (List.nodup_append.1 hd).1 rfl
    rw [Transcript.type_vector, Transcript.refer_of_none (List.idxOf?_eq_none_iff.2 hm), hin,
      hdigits.2, Transcript.record]
    simp [vectorCode, Radix.text, ← String.toList_inj]
  | @pointerTo i t cs hi hr =>
    subst hs
    have hm := List.idxOf?_eq_none_iff.2 (not_mem_of_nodup_concat hd)
    have hin := hr.type_eq (s := s.write ("P" ++ PointerAttrs.plain.code)) hi hno
      (List.nodup_append.1 hd).1
    rw [Transcript.type_pointer, Transcript.refer_of_none hm]
    dsimp only
    rw [hin, if_pos (show PointerAttrs.plain.isPlain = true from rfl), Transcript.record]
    simp [← String.toList_inj, show PointerAttrs.plain.code = "" from rfl]
  | @pointerToQualified i a t cs hi hr =>
    subst hs
    exact absurd (hp a t (List.mem_of_getElem? hi)) (not_mem_of_nodup_concat hd)
  | @pointer table' a spelled t as cs ha hS ht ih =>
    subst hs
    obtain ⟨rfl, rfl⟩ := ha.eq_code
    have hm : .whole (.pointer a t) ∉ s.table := fun hm =>
      not_mem_of_nodup_concat hd (List.mem_append_left _ (ht.table_prefix.subset hm))
    have hd' : table'.Nodup := (List.nodup_append.1 (List.nodup_append.1 hd).1).1
    have hin := ih (s := s.write ("P" ++ a.code)) hp hno hd' rfl
    rw [Transcript.type_pointer, Transcript.refer_of_none (List.idxOf?_eq_none_iff.2 hm)]
    dsimp only
    rw [hin]
    by_cases hplain : a.isPlain = true <;> simp [hplain, Transcript.record, ← String.toList_inj]

/-- Strict spellings in a row that complete no component twice are what a transcript writes. -/
theorem TypesText.foldl_eq (h : TypesText .strict s.table cs ts table') (hp : PairedTable s.table)
    (hno : NoBuiltin s.table) (hd : table'.Nodup) :
    ts.foldl Transcript.type s = ⟨s.text ++ String.ofList cs, table'⟩ := by
  generalize hs : s.table = table at h
  induction h generalizing s with
  | nil =>
    subst hs
    simp
  | @cons table₁ table₂ table₃ cs ds t ts h hts ih =>
    subst hs
    have hd' : table₂.Nodup := hts.table_prefix.sublist.nodup hd
    rw [List.foldl_cons, h.type_eq hp hno hd', ih (h.paired hp) (h.noBuiltin hno) hd rfl]
    simp [String.append_assoc]

/-- A strict spelling of a symbol that completes no component twice is the one that is written. -/
theorem SymbolText.text_eq {name : String} (h : SymbolText .strict cs name ts table')
    (hd : table'.Nodup) : (Transcript.signature ⟨name, ts⟩).text = String.ofList cs := by
  obtain ⟨hn, hp⟩ := h
  cases hp with
  | none =>
    rw [Transcript.signature_nil, hn.eq_sourceName]
    simp [Transcript.start, ← String.toList_inj]
  | some ht hne hv =>
    have hts : ts ≠ [] := by
      rintro rfl
      cases ht
      exact hne rfl
    have hfold := ht.foldl_eq (s := .start ("_Z" ++ sourceName name)) pairedTable_nil
      (fun b => List.not_mem_nil) hd
    rw [Transcript.signature_of_ne_nil hts, hfold, hn.eq_sourceName]
    simp [Transcript.start, ← String.toList_inj]

end

namespace Session

variable {s : Session}

/-- A symbol is what an encoder writes for its signature if and only if no number in it has a zero
too many, no pointer in it spells out the private address space, and no two of the components that
the decoder has at its end are equal. -/
theorem Reachable.encode_eq_iff (hs : s.Reachable) {i : Nat} {p q : Pool}
    (hp : s.pools[i]? = some p) {text : String} {f : Signature Handle}
    (h : KernelSymbol.decode text p = (.ok f, q)) (hsize : text.utf8ByteSize < textBound) :
    ∃ tree : SymbolTree, tree.Derives text (f.map Handle.type) (symbolComponents text p) ∧
      (∀ tree' f' table', SymbolTree.Derives tree' text f' table' → tree' = tree) ∧
      (encode f = .ok text ↔
        (∀ n ∈ tree.numerals, NoSpareZero n.2) ∧ .privateSpace ∉ tree.spaces ∧
          (symbolComponents text p).Nodup) := by
  have hsv := hs.valid
  obtain ⟨ht, hY⟩ := symbolText_components (hsv.pool hp).1 h
  obtain ⟨tree, hd, hfits⟩ := (symbolText_iff (f := f.map Handle.type)).1 ht
  have hr : (f.map Handle.type).Readable := ht.readable
  have henc := encode_eq_transcript hr.name_ne_empty fun g hg =>
    hsv.foreign_of_stored hp hY.valid hY.grows (hY.mem g hg)
  refine ⟨tree, hd, fun tree' f' table' h' => (h'.unique hd).1, ?_, ?_⟩
  · intro he
    rw [henc, Except.ok.injEq] at he
    have hlen : (Transcript.signature (f.map Handle.type)).table.length ≤ numberBound := by
      have hbound : 2 * textBound = numberBound := by decide
      have h₁ := Transcript.length_table_signature (f.map Handle.type)
      have h₂ := length_le_utf8ByteSize text
      rw [he] at h₁
      omega
    -- what an encoder writes is a strict spelling, and there is one tree only
    have hw := Transcript.symbolText hr.name_ne_empty hr.not_digit hr.name_lt hr.wellFormed
      hr.legible hr.known hr.nameBelow hr.ne_void hlen
    rw [he] at hw
    obtain ⟨tree', hd', hf⟩ := symbolText_iff.1 hw
    obtain ⟨rfl, -, htable⟩ := hd'.unique hd
    refine ⟨fun n hn => (hf.numerals n hn).2 rfl, hf.spaces rfl, ?_⟩
    rw [← htable]
    exact Transcript.nodup_signature _
  · rintro ⟨hz, hspaces, hnodup⟩
    have hf : tree.Fits .strict :=
      ⟨fun n hn => ⟨hd.bounded n hn, fun _ => hz n hn⟩, hfits.counted, fun _ => hspaces⟩
    have hstrict : SymbolText .strict text.toList _ _ _ := symbolText_iff.2 ⟨tree, hd, hf⟩
    rw [henc,
      show f.map Handle.type = ⟨(f.map Handle.type).name, (f.map Handle.type).params⟩ from rfl,
      hstrict.text_eq hnodup, String.ofList_toList]

/-- Two equal pointers: the second spelled out, or as a reference to the first. -/
def pointersTree (second : TypeTree) : SymbolTree :=
  ⟨['1'], "f", [.pointer none .empty (.builtin .int), second]⟩

/-- With the reference, the symbol is the encoder's; without it, the symbol is not. -/
theorem encode_eq_iff_pointers : ∃ (p q r : Pool) (f g : Signature Handle),
    start.pools[0]? = some p ∧
      KernelSymbol.decode "_Z1fPiS_" p = (.ok f, q) ∧ encode f = .ok "_Z1fPiS_" ∧
      KernelSymbol.decode "_Z1fPiPi" p = (.ok g, r) ∧ encode g ≠ .ok "_Z1fPiPi" := by
  obtain ⟨p, hp⟩ : ∃ p, start.pools[0]? = some p := ⟨_, rfl⟩
  have iff_of : ∀ {text : String} {tree : SymbolTree} {f : Signature ArgType} {table},
      tree.Derives text f table → tree.Counted → text.utf8ByteSize < textBound →
        ∃ g q, KernelSymbol.decode text p = (.ok g, q) ∧ (encode g = .ok text ↔
          (∀ n ∈ tree.numerals, NoSpareZero n.2) ∧ .privateSpace ∉ tree.spaces ∧ table.Nodup) := by
    intro text tree f table hd hc hsize
    obtain ⟨r, hr, -⟩ := (hd.symbolText hc).decode (valid_start.pool hp).1
    obtain ⟨tree', hd', -, hiff⟩ := reachable_start.encode_eq_iff hp hr hsize
    obtain ⟨rfl, -, rfl⟩ := hd'.unique hd
    exact ⟨_, _, hr, hiff⟩
  have hS : (pointersTree (.reference [])).Derives "_Z1fPiS_"
      ⟨"f", [.pointer .plain (.builtin .int), .pointer .plain (.builtin .int)]⟩
      [.whole (.pointer .plain (.builtin .int))] := by decide +kernel
  have hP : (pointersTree (.pointer none .empty (.builtin .int))).Derives "_Z1fPiPi"
      ⟨"f", [.pointer .plain (.builtin .int), .pointer .plain (.builtin .int)]⟩
      [.whole (.pointer .plain (.builtin .int)), .whole (.pointer .plain (.builtin .int))] := by
    decide +kernel
  obtain ⟨f, q, hf, hiff⟩ := iff_of hS (by decide +kernel) (by decide)
  obtain ⟨g, r, hg, hiff'⟩ := iff_of hP (by decide +kernel) (by decide)
  refine ⟨p, q, r, f, g, hp, hf, hiff.2 ?_, hg, fun he => ?_⟩
  · decide
  · exact absurd (hiff'.1 he).2.2 (by decide)

end Session

end KernelSymbol
