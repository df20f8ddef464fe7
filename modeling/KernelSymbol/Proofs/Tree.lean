import KernelSymbol.Proofs.Derivation
import KernelSymbol.Symbol.Tree

/-!
# Derivations are parse trees

A text is derived by the grammar exactly if it has a parse tree that stands for what was derived.
The style of a derivation is a matter of the numbers and the address spaces in the tree: it is
strict exactly if no number has a zero too many and the private space is not spelled out.

## Main definitions

* `TypeTree.Fits`, `SymbolTree.Fits` — the numbers and the address spaces keep to a style

## Main results

* `Radix.digits_value` — a number without a zero too many is written as it was read
* `numberText_iff`, `nameText_iff`, `referenceText_iff`, `attrsText_iff` — the small parts
* `typeText_iff`, `typesText_iff`, `symbolText_iff` — types, types in a row and symbols
-/

namespace KernelSymbol

/-! ### Numbers -/

namespace Radix

variable {r : Radix}

/-- A digit that is no decimal digit is a letter. -/
private theorem isUpper_of_isDigit {c : Char} (h : r.isDigit c = true)
    (hd : ¬c.isDigit = true) : r = thirtySix ∧ c.isUpper = true := by
  cases r with
  | ten => exact absurd h hd
  | thirtySix => exact ⟨rfl, by simpa [isDigit, hd] using h⟩

theorem digitValue_lt {c : Char} (h : r.isDigit c = true) : digitValue c < r.base := by
  by_cases hd : c.isDigit = true
  · have hc := bounds_of_isDigit hd
    have hb : 10 ≤ r.base := by cases r <;> decide
    rw [digitValue, if_pos hd]
    omega
  · obtain ⟨rfl, hu⟩ := isUpper_of_isDigit h hd
    have hc := bounds_of_isUpper hu
    rw [digitValue, if_neg hd, base]
    omega

/-- A digit is the digit of its value. -/
theorem digitChar_digitValue_of_isDigit {c : Char} (h : r.isDigit c = true) :
    digitChar (digitValue c) = c := by
  by_cases hd : c.isDigit = true
  · exact digitChar_digitValue hd
  · have hc := bounds_of_isUpper (isUpper_of_isDigit h hd).2
    rw [digitValue, if_neg hd, digitChar, if_neg (by omega), Nat.add_sub_cancel' (by omega),
      Char.ofNat_toNat]

/-- A number without a zero too many is written as it was read. -/
theorem digits_value {cs : List Char} (hne : cs ≠ []) (hd : ∀ c ∈ cs, r.isDigit c = true)
    (hz : NoSpareZero cs) : r.digits (r.value cs) = cs := by
  obtain ⟨ds, c, rfl⟩ := (List.eq_nil_or_concat cs).resolve_left hne
  have hc := hd c (by simp)
  have hlt := digitValue_lt hc
  rw [List.concat_eq_append] at hz ⊢
  rw [value_concat]
  by_cases hds : ds = []
  · subst hds
    rw [show r.value [] = 0 from rfl, Nat.zero_mul, Nat.zero_add, digits, if_pos hlt,
      digitChar_digitValue_of_isDigit hc]
    rfl
  · -- the first digit is no zero, so the digits in front of the last one are worth something
    have hzero : ds.head? ≠ some '0' := by
      intro h
      have he : ds ++ [c] = [] ++ ['0'] := hz (by simp [List.head?_append, h])
      exact hds (List.append_inj' he rfl).1
    have ih : r.digits (r.value ds) = ds :=
      digits_value hds (fun d h => hd d (by simp [h])) fun h => absurd h hzero
    have hpos : 0 < r.value ds := by
      refine Nat.pos_of_ne_zero fun h => hzero ?_
      have hb := r.two_le_base
      rw [h, digits, if_pos (by omega)] at ih
      rw [← ih]
      rfl
    have hge : ¬r.value ds * r.base + digitValue c < r.base := by
      have := Nat.mul_le_mul_right r.base hpos
      omega
    have hbase : 0 < r.base := Nat.lt_of_lt_of_le Nat.two_pos r.two_le_base
    rw [digits, if_neg hge, Nat.mul_comm, Nat.mul_add_div hbase, Nat.mul_add_mod,
      Nat.div_eq_of_lt hlt, Nat.mod_eq_of_lt hlt, Nat.add_zero, ih,
      digitChar_digitValue_of_isDigit hc]
termination_by cs.length
decreasing_by simp_all

theorem noSpareZero_digits (r : Radix) (n : Nat) : NoSpareZero (r.digits n) := by
  have hb := r.two_le_base
  fun_induction digits r n with
  | case1 n hn =>
    intro h
    rw [Option.some.inj h]
  | case2 n hn ih =>
    intro h
    have hne := r.digits_ne_nil (n / r.base)
    obtain ⟨c, tail, hc⟩ := List.exists_cons_of_ne_nil hne
    have hzero : r.digits (n / r.base) = ['0'] := ih (by simpa [hc] using h)
    -- a single zero is worth nothing, but there is something in front of the last digit
    have hvalue := r.value_digits (n / r.base)
    rw [hzero] at hvalue
    have hpos : 0 < n / r.base := Nat.div_pos (Nat.not_lt.1 hn) (by omega)
    rw [← hvalue] at hpos
    cases r <;> exact absurd hpos (by decide)

end Radix

/-! ### The small parts -/

/-- A number in a text keeps to a style: it stays below the bound, and if the style is strict, it
has no zero too many. -/
def NumeralFits (style : Style) (n : Radix × List Char) : Prop :=
  n.1.value n.2 < numberBound ∧ (style = .strict → NoSpareZero n.2)

section

variable {style : Style} {cs : List Char}

theorem numberText_iff {r : Radix} {n : Nat} :
    NumberText style r n cs ↔
      cs ≠ [] ∧ (∀ c ∈ cs, r.isDigit c = true) ∧ r.value cs = n ∧ NumeralFits style (r, cs) := by
  constructor
  · intro h
    obtain ⟨hlt, hne, hd, rfl⟩ := h.lenient
    refine ⟨hne, hd, rfl, hlt, ?_⟩
    rintro rfl
    rw [h.2]
    exact r.noSpareZero_digits _
  · rintro ⟨hne, hd, rfl, hlt, hz⟩
    refine ⟨hlt, ?_⟩
    cases style with
    | lenient => exact ⟨hne, hd, rfl⟩
    | strict => exact (Radix.digits_value hne hd (hz rfl)).symm

theorem nameText_iff {name : String} :
    NameText style name cs ↔ ∃ digits, cs = digits ++ name.toList ∧ Measures digits name ∧
      NumeralFits style (.ten, digits) := by
  constructor
  · rintro ⟨c, tail, digits, hname, hc, hn, rfl⟩
    obtain ⟨hne, hd, hv, hf⟩ := numberText_iff.1 hn
    exact ⟨digits, by rw [hname], ⟨hne, hd, hv, c, tail, hname, hc⟩, hf⟩
  · rintro ⟨digits, rfl, hm, hf⟩
    obtain ⟨c, tail, hname, hc⟩ := hm.starts
    exact ⟨c, tail, digits, hname, hc,
      numberText_iff.2 ⟨hm.digits_ne_nil, hm.isDigit, hm.value_eq, hf⟩, by rw [hname]⟩

/-- The spellings of a reference are digits between its `S` and its `_`, or nothing there. -/
theorem referenceText_iff {i : Nat} :
    ReferenceText style i cs ↔ ∃ digits, cs = referenceText digits ∧
      (∀ c ∈ digits, Radix.thirtySix.isDigit c = true) ∧ referencePlace digits = i ∧
      NumeralFits style (.thirtySix, digits) ∧ NumeralCounted (.thirtySix, digits) := by
  constructor
  · intro h
    cases h with
    | first => exact ⟨[], rfl, by simp, rfl, ⟨by decide, nofun⟩, fun _ h => absurd rfl h⟩
    | @later n digits hn hc =>
      obtain ⟨hne, hd, rfl, hf⟩ := numberText_iff.1 hn
      obtain ⟨c, tail, rfl⟩ := List.exists_cons_of_ne_nil hne
      exact ⟨c :: tail, rfl, hd, rfl, hf, fun _ _ => hc⟩
  · rintro ⟨digits, rfl, hd, rfl, hf, hc⟩
    cases digits with
    | nil => exact .first
    | cons c tail => exact .later (numberText_iff.2 ⟨nofun, hd, rfl, hf⟩) (hc rfl nofun)

theorem spaceText_iff {space : Option AddressSpace} :
    SpaceText style space cs ↔
      cs = spaceText space ∧ (style = .strict → space ≠ some .privateSpace) := by
  constructor
  · intro h
    cases h with
    | silent => exact ⟨rfl, nofun⟩
    | spelled s hs =>
      rw [s.digits_number]
      exact ⟨rfl, fun h he => hs h (Option.some.inj he)⟩
  · rintro ⟨rfl, hs⟩
    cases space with
    | none => exact .silent
    | some s =>
      have h := SpaceText.spelled s fun h he => hs h (congrArg some he)
      rwa [s.digits_number] at h

/-- The spellings of attributes are an address space or none, and qualifiers alone. -/
theorem attrsText_iff {a : PointerAttrs} {spelled : Bool} :
    AttrsText style a spelled cs ↔ ∃ space qs, QualifierSet.Known qs ∧
      cs = spaceText space ++ qs.toList.map Qualifier.letter ∧ a = ⟨space.getD default, qs⟩ ∧
      spelled = (space.isSome || !qs.isEmpty) ∧ (style = .strict → space ≠ some .privateSpace) := by
  constructor
  · rintro ⟨h, hq⟩
    obtain ⟨rfl, hs⟩ := spaceText_iff.1 h
    exact ⟨_, _, hq, rfl, rfl, rfl, hs⟩
  · rintro ⟨space, qs, hq, rfl, rfl, rfl, hs⟩
    exact .mk (spaceText_iff.2 ⟨rfl, hs⟩) hq

end

/-! ### Types -/

/-- The numbers and the address spaces in a tree keep to a style, and the digits of references are
counted. -/
structure TypeTree.Fits (style : Style) (tree : TypeTree) : Prop where
  numerals : ∀ n ∈ tree.numerals, NumeralFits style n
  counted : ∀ n ∈ tree.numerals, NumeralCounted n
  spaces : style = .strict → .privateSpace ∉ tree.spaces

section

variable {style : Style} {table table' : List (Component ArgType)} {cs : List Char} {t : ArgType}
  {ts : List ArgType}

/-- A tree with one number and no address space fits if the number does. -/
theorem TypeTree.fits_of_numeral {tree : TypeTree} {n : Radix × List Char}
    (hn : tree.numerals = [n]) (hs : tree.spaces = []) (hf : NumeralFits style n)
    (hc : NumeralCounted n) : tree.Fits style := by
  refine ⟨?_, ?_, fun _ => hs ▸ List.not_mem_nil⟩ <;> rw [hn]
  · exact List.forall_mem_singleton.2 hf
  · exact List.forall_mem_singleton.2 hc

theorem TypeText.exists_tree (h : TypeText style table cs t table') :
    ∃ tree : TypeTree, tree.text = cs ∧ tree.Spelled ∧ tree.Fits style ∧
      tree.meaning? table = some (t, table') := by
  induction h with
  | @letter b c hb =>
    refine ⟨.builtin b, ?_, by simp [TypeTree.Spelled, hb], ⟨nofun, nofun, nofun⟩, rfl⟩
    simp [TypeTree.text, Builtin.code_eq, hb, Spelling.text]
  | @extended b c hb =>
    refine ⟨.builtin b, ?_, by simp [TypeTree.Spelled, hb], ⟨nofun, nofun, nofun⟩, rfl⟩
    simp [TypeTree.text, Builtin.code_eq, hb, Spelling.text]
  | @source b name cs hb hn =>
    obtain ⟨digits, rfl, hm, hf⟩ := nameText_iff.1 hn
    refine ⟨.named digits name, rfl, hm, TypeTree.fits_of_numeral rfl rfl hf nofun, ?_⟩
    simp only [TypeTree.meaning?, Builtin.ofSpelling?_eq_some_iff.2 hb]
  | @named name cs hb hn =>
    obtain ⟨digits, rfl, hm, hf⟩ := nameText_iff.1 hn
    refine ⟨.named digits name, rfl, hm, TypeTree.fits_of_numeral rfl rfl hf nofun, ?_⟩
    simp only [TypeTree.meaning?, Builtin.ofSpelling?_eq_none_iff.2 hb]
  | @reference i t cs hi hr =>
    obtain ⟨digits, rfl, hd, rfl, hf⟩ := referenceText_iff.1 hr
    refine ⟨.reference digits, rfl, hd, TypeTree.fits_of_numeral rfl rfl hf.1 hf.2, ?_⟩
    simp only [TypeTree.meaning?, hi]
  | @vector table' n t digits cs hn hs hdigits ht ih =>
    obtain ⟨tree, rfl, htree, hfits, hmeaning⟩ := ih
    obtain ⟨hne, hd, hv, hf⟩ := numberText_iff.1 hdigits
    refine ⟨.vector digits tree, rfl, ⟨hne, hd, htree⟩,
      ⟨List.forall_mem_cons.2 ⟨hf, hfits.numerals⟩, List.forall_mem_cons.2 ⟨nofun, hfits.counted⟩,
        hfits.spaces⟩, ?_⟩
    have hpos : 0 < n.toNat := by
      refine Nat.pos_of_ne_zero fun h => hn ?_
      rw [← UInt32.toNat_inj, h]
      rfl
    simp only [TypeTree.meaning?, hmeaning, hv, hpos, n.toNat_lt_size, hs, and_self, if_true,
      UInt32.ofNat_toNat]
  | @pointerTo i t cs hi hr =>
    obtain ⟨digits, rfl, hd, rfl, hf⟩ := referenceText_iff.1 hr
    refine ⟨.pointerTo digits, rfl, hd, TypeTree.fits_of_numeral rfl rfl hf.1 hf.2, ?_⟩
    simp only [TypeTree.meaning?, hi]
  | @pointerToQualified i a t cs hi hr =>
    obtain ⟨digits, rfl, hd, rfl, hf⟩ := referenceText_iff.1 hr
    refine ⟨.pointerTo digits, rfl, hd, TypeTree.fits_of_numeral rfl rfl hf.1 hf.2, ?_⟩
    simp only [TypeTree.meaning?, hi]
  | @pointer table' a spelled t as cs ha hS ht ih =>
    obtain ⟨tree, rfl, htree, hfits, hmeaning⟩ := ih
    obtain ⟨space, qs, hq, rfl, rfl, rfl, hs⟩ := attrsText_iff.1 ha
    refine ⟨.pointer space qs tree, rfl, ⟨hq, hS, htree⟩,
      ⟨hfits.numerals, hfits.counted, fun h => ?_⟩, ?_⟩
    · cases space with
      | none => exact hfits.spaces h
      | some s =>
        have hne : AddressSpace.privateSpace ≠ s := fun he => hs h (by rw [he])
        simpa [TypeTree.spaces, hne] using hfits.spaces h
    · simp only [TypeTree.meaning?, hmeaning]

theorem TypeTree.typeText {tree : TypeTree} (hs : tree.Spelled) (hf : tree.Fits style)
    (hm : tree.meaning? table = some (t, table')) :
    TypeText style table tree.text t table' := by
  induction tree generalizing t table' with
  | builtin b =>
    cases hm
    cases hb : b.spelling with
    | letter c =>
      rw [show (builtin b).text = [c] by simp [text, Builtin.code_eq, hb, Spelling.text]]
      exact .letter hb
    | extended c =>
      rw [show (builtin b).text = ['D', c] by simp [text, Builtin.code_eq, hb, Spelling.text]]
      exact .extended hb
    | source name => exact absurd hb (hs name)
  | named digits name =>
    have hn : NameText style name (digits ++ name.toList) :=
      nameText_iff.2 ⟨digits, rfl, hs, hf.numerals _ (List.mem_singleton_self _)⟩
    simp only [meaning?] at hm
    split at hm
    next b hb =>
      cases hm
      exact .source (Builtin.ofSpelling?_eq_some_iff.1 hb) hn
    next hb =>
      cases hm
      exact .named (Builtin.ofSpelling?_eq_none_iff.1 hb) hn
  | reference digits =>
    have hr : ReferenceText style (referencePlace digits) (referenceText digits) :=
      referenceText_iff.2 ⟨digits, rfl, hs, rfl, hf.numerals _ (List.mem_singleton_self _),
        hf.counted _ (List.mem_singleton_self _)⟩
    simp only [meaning?] at hm
    split at hm
    next u hi =>
      cases hm
      exact .reference hi hr
    next => cases hm
  | vector digits element ih =>
    obtain ⟨hne, hd, hs⟩ := hs
    obtain ⟨hfd, hfe⟩ := List.forall_mem_cons.1 hf.numerals
    simp only [meaning?] at hm
    split at hm
    next u table'' hu =>
      split at hm
      next hn =>
        cases hm
        have hv : (UInt32.ofNat (Radix.ten.value digits)).toNat = Radix.ten.value digits :=
          UInt32.toNat_ofNat_of_lt' hn.2.1
        refine .vector (fun h => ?_) hn.2.2 (numberText_iff.2 ⟨hne, hd, hv.symm, hfd⟩)
          (ih hs ⟨hfe, (List.forall_mem_cons.1 hf.counted).2, hf.spaces⟩ hu)
        rw [h] at hv
        exact absurd hv (Nat.ne_of_lt hn.1)
      next => cases hm
    next => cases hm
  | pointerTo digits =>
    have hr : ReferenceText style (referencePlace digits) (referenceText digits) :=
      referenceText_iff.2 ⟨digits, rfl, hs, rfl, hf.numerals _ (List.mem_singleton_self _),
        hf.counted _ (List.mem_singleton_self _)⟩
    simp only [meaning?] at hm
    split at hm
    next u hi =>
      cases hm
      exact .pointerTo hi hr
    next a u hi =>
      cases hm
      exact .pointerToQualified hi hr
    next => cases hm
  | pointer space qs target ih =>
    simp only [meaning?] at hm
    split at hm
    next u table'' hu =>
      cases hm
      have hspace : style = .strict → space ≠ some .privateSpace := by
        rintro h rfl
        exact hf.spaces h (List.mem_cons_self ..)
      have hspaces : style = .strict → .privateSpace ∉ target.spaces := fun h hp =>
        hf.spaces h (List.mem_append_right _ hp)
      obtain ⟨hq, hS, hs⟩ := hs
      exact .pointer (attrsText_iff.2 ⟨space, qs, hq, rfl, rfl, rfl, hspace⟩) hS
        (ih hs ⟨hf.numerals, hf.counted, hspaces⟩ hu)
    next => cases hm

/-- A type is derived exactly if its text has a parse tree that stands for it. -/
theorem typeText_iff : TypeText style table cs t table' ↔
    ∃ tree : TypeTree, tree.text = cs ∧ tree.Spelled ∧ tree.Fits style ∧
      tree.meaning? table = some (t, table') := by
  refine ⟨TypeText.exists_tree, ?_⟩
  rintro ⟨tree, rfl, hs, hf, hm⟩
  exact TypeTree.typeText hs hf hm

/-- Types in a row are derived exactly if their texts have parse trees that stand for them. -/
theorem typesText_iff : TypesText style table cs ts table' ↔
    ∃ trees : List TypeTree, trees.flatMap TypeTree.text = cs ∧
      (∀ tree ∈ trees, tree.Spelled ∧ tree.Fits style) ∧
      TypeTree.meanings? table trees = some (ts, table') := by
  constructor
  · intro h
    induction h with
    | nil => exact ⟨[], rfl, List.forall_mem_nil _, rfl⟩
    | cons h hs ih =>
      obtain ⟨tree, rfl, hspelled, hf, hm⟩ := h.exists_tree
      obtain ⟨trees, rfl, htrees, hms⟩ := ih
      refine ⟨tree :: trees, rfl, List.forall_mem_cons.2 ⟨⟨hspelled, hf⟩, htrees⟩, ?_⟩
      simp only [TypeTree.meanings?, hm, hms]
  · rintro ⟨trees, rfl, htrees, hms⟩
    induction trees generalizing table ts with
    | nil =>
      cases hms
      exact .nil
    | cons tree trees ih =>
      obtain ⟨⟨hspelled, hf⟩, htrees⟩ := List.forall_mem_cons.1 htrees
      simp only [TypeTree.meanings?] at hms
      split at hms
      next t' table₁ hm =>
        split at hms
        next hms' =>
          cases hms
          exact .cons (TypeTree.typeText hspelled hf hm) (ih htrees hms')
        next => cases hms
      next => cases hms

end

/-! ### Symbols -/

/-- The numbers and the address spaces in the tree of a symbol keep to a style, and the digits of
references are counted. -/
structure SymbolTree.Fits (style : Style) (tree : SymbolTree) : Prop where
  numerals : ∀ n ∈ tree.numerals, NumeralFits style n
  counted : tree.Counted
  spaces : style = .strict → .privateSpace ∉ tree.spaces

theorem SymbolTree.fits_iff {style : Style} {tree : SymbolTree} :
    tree.Fits style ↔ NumeralFits style (.ten, tree.digits) ∧
      ∀ t ∈ tree.params, t.Fits style := by
  constructor
  · intro h
    obtain ⟨hd, hn⟩ := List.forall_mem_cons.1 h.numerals
    obtain ⟨-, hc⟩ := List.forall_mem_cons.1 h.counted
    refine ⟨hd, fun t ht => ⟨fun n hm => hn n (List.mem_flatMap.2 ⟨t, ht, hm⟩),
      fun n hm => hc n (List.mem_flatMap.2 ⟨t, ht, hm⟩), fun hs hp => ?_⟩⟩
    exact h.spaces hs (List.mem_flatMap.2 ⟨t, ht, hp⟩)
  · rintro ⟨hd, hp⟩
    refine ⟨List.forall_mem_cons.2 ⟨hd, fun n hn => ?_⟩,
      List.forall_mem_cons.2 ⟨nofun, fun n hn => ?_⟩, fun hs hm => ?_⟩
    · obtain ⟨t, ht, hm⟩ := List.mem_flatMap.1 hn
      exact (hp t ht).numerals n hm
    · obtain ⟨t, ht, hm⟩ := List.mem_flatMap.1 hn
      exact (hp t ht).counted n hm
    · obtain ⟨t, ht, hm⟩ := List.mem_flatMap.1 hm
      exact (hp t ht).spaces hs hm

/-- Trees in a row stand for as many types. -/
theorem TypeTree.length_eq_of_meanings? {trees : List TypeTree} {ts : List ArgType}
    {table table' : List (Component ArgType)} (h : meanings? table trees = some (ts, table')) :
    ts.length = trees.length := by
  induction trees generalizing table ts with
  | nil =>
    cases h
    rfl
  | cons tree trees ih =>
    simp only [meanings?] at h
    split at h
    next =>
      split at h
      next hs =>
        cases h
        exact congrArg (· + 1) (ih hs)
      next => cases h
    next => cases h

theorem SymbolTree.body_of_ne_nil (tree : SymbolTree) (h : tree.params ≠ []) :
    tree.body = tree.params.flatMap TypeTree.text := by
  rw [body, if_neg (mt List.isEmpty_iff.1 h)]

theorem symbolText_iff {style : Style} {text : String} {f : Signature ArgType}
    {table : List (Component ArgType)} :
    SymbolText style text.toList f.name f.params table ↔
      ∃ tree : SymbolTree, tree.Derives text f table ∧ tree.Fits style := by
  obtain ⟨name, ts⟩ := f
  constructor
  · intro h
    generalize htext : text.toList = cs at h
    obtain ⟨hn, hp⟩ := h
    obtain ⟨digits, rfl, hm, hd⟩ := nameText_iff.1 hn
    have derives : ∀ {trees : List TypeTree}, (∀ t ∈ trees, t.Spelled ∧ t.Fits style) →
        TypeTree.meanings? [] trees = some (ts, table) →
        SymbolTree.text ⟨digits, name, trees⟩ = text.toList →
        (trees ≠ [] → SymbolTree.body ⟨digits, name, trees⟩ ≠ ['v']) →
        ∃ tree : SymbolTree, tree.Derives text ⟨name, ts⟩ table ∧ tree.Fits style := by
      intro trees htrees hmeaning htext hbody
      have hf : SymbolTree.Fits style ⟨digits, name, trees⟩ :=
        SymbolTree.fits_iff.2 ⟨hd, fun t ht => (htrees t ht).2⟩
      exact ⟨_, ⟨htext, ⟨hm, fun t ht => (htrees t ht).1, hbody⟩, fun n hn => (hf.numerals n hn).1,
        rfl, hmeaning⟩, hf⟩
    cases hp with
    | none =>
      refine derives (List.forall_mem_nil _) rfl ?_ fun h => absurd rfl h
      simp [htext, SymbolTree.text, SymbolTree.body]
    | some ht hne hv =>
      obtain ⟨trees, rfl, htrees, hmeaning⟩ := typesText_iff.1 ht
      have he : trees ≠ [] := by
        rintro rfl
        exact hne rfl
      have hbody := SymbolTree.body_of_ne_nil ⟨digits, name, trees⟩ he
      refine derives htrees hmeaning ?_ fun _ => by rwa [hbody]
      simp [htext, SymbolTree.text, hbody]
  · rintro ⟨⟨digits, name', trees⟩, hd, hf⟩
    obtain ⟨htext, hs, -, rfl, hmeaning⟩ := hd
    obtain ⟨hfd, hfp⟩ := SymbolTree.fits_iff.1 hf
    have hn : NameText style name' (digits ++ name'.toList) :=
      nameText_iff.2 ⟨digits, rfl, hs.name, hfd⟩
    have hcs : text.toList
        = ['_', 'Z'] ++ (digits ++ name'.toList) ++ SymbolTree.body ⟨digits, name', trees⟩ := by
      rw [← htext]
      simp [SymbolTree.text]
    rw [hcs]
    refine .mk hn ?_
    by_cases he : trees = []
    · subst he
      cases hmeaning
      exact .none
    · have hbody := SymbolTree.body_of_ne_nil ⟨digits, name', trees⟩ he
      have ht : TypesText style [] (trees.flatMap TypeTree.text) ts table :=
        typesText_iff.2 ⟨trees, rfl, fun t ht => ⟨hs.params t ht, hfp t ht⟩, hmeaning⟩
      rw [hbody]
      refine .some ht (fun h => he ?_) (hbody ▸ hs.body_ne he)
      rw [h] at ht
      have hlen := TypeTree.length_eq_of_meanings? hmeaning
      rw [ht.eq_nil] at hlen
      exact List.length_eq_zero_iff.1 hlen.symm

end KernelSymbol
