import KernelSymbol.Proofs.Session
import KernelSymbol.Proofs.Tree

/-!
# Symbols have one parse tree

Two parse trees with the same text are the same, and not only at the end of a text: where the texts
of two types start two texts that are equal, the types are spelled alike and what is left is equal
as well. The first one or two characters say which kind of node is spelled. Its numbers end in
front of something that is no digit, a name is as long as its number says, and attributes end in
front of a type, which never starts like attributes.

What a tree stands for is computed, so a text stands for one signature at most. It is decoded exactly
if it stands for one and the digits of its references can be counted. The tree does not ask for that:
zeros in front of a number are part of its spelling, however many there are.

## Main definitions

* `TypeTree.Rule`, `TypeTree.rule`, `TypeTree.lead?` — the kind of a node, and the kind that a
  text starts with

## Main results

* `TypeTree.eq_of_text_append` — types are spelled in one way
* `SymbolTree.Derives.unique` — symbols are spelled in one way, and stand for one signature
* `Session.Reachable.decode_iff_derives` — a decoder accepts just the texts that have parse trees
  whose references are counted
* `Session.derives_not_decodes_paddedTree` — and there are others
-/

namespace KernelSymbol

/-! ### The small parts -/

section

variable {cs ds : List Char}

/-- Runs of digits that end in front of no digit are cut off alike. -/
theorem Radix.eq_of_append_eq {r : Radix} {digits digits' : List Char}
    (hd : ∀ c ∈ digits, r.isDigit c = true) (hd' : ∀ c ∈ digits', r.isDigit c = true)
    (hcs : r.Stops cs) (hds : r.Stops ds) (h : digits ++ cs = digits' ++ ds) :
    digits = digits' ∧ cs = ds := by
  obtain ⟨ht, hr⟩ := hcs.span hd
  obtain ⟨ht', hr'⟩ := hds.span hd'
  rw [h] at ht hr
  exact ⟨ht.symm.trans ht', hr.symm.trans hr'⟩

/-- Names of one length are cut off alike. -/
theorem eq_of_name_append_eq {name name' : String} (hsize : name.utf8ByteSize = name'.utf8ByteSize)
    (h : name.toList ++ cs = name'.toList ++ ds) : name = name' ∧ cs = ds := by
  have hcut : splitBytes? name.utf8ByteSize (name.toList ++ cs) = some (name.toList, cs) :=
    splitBytes?_eq_some_iff.2 ⟨rfl, byteCount_toList name⟩
  rw [h, hsize, splitBytes?_eq_some_iff.2 ⟨rfl, byteCount_toList name'⟩] at hcut
  simp only [Option.some.injEq, Prod.mk.injEq, String.toList_inj] at hcut
  exact ⟨hcut.1.symm, hcut.2.symm⟩

/-- Names behind their lengths are cut off alike. -/
theorem Measures.eq_of_append_eq {digits digits' : List Char} {name name' : String}
    (hm : Measures digits name) (hm' : Measures digits' name')
    (h : digits ++ (name.toList ++ cs) = digits' ++ (name'.toList ++ ds)) :
    digits = digits' ∧ name = name' ∧ cs = ds := by
  have stops : ∀ {digits : List Char} {name : String} {cs : List Char}, Measures digits name →
      Radix.ten.Stops (name.toList ++ cs) := by
    intro digits name cs hm
    obtain ⟨c, tail, hname, hc⟩ := hm.starts
    rw [hname]
    exact Radix.stops_cons.2 hc
  obtain ⟨rfl, hrest⟩ := Radix.eq_of_append_eq hm.isDigit hm'.isDigit (stops hm) (stops hm') h
  -- both names are as long as the same digits say
  exact ⟨rfl, eq_of_name_append_eq (hm.value_eq.symm.trans hm'.value_eq) hrest⟩

/-- References are cut off alike. -/
theorem eq_of_referenceText_append_eq {digits digits' : List Char}
    (hd : ∀ c ∈ digits, Radix.thirtySix.isDigit c = true)
    (hd' : ∀ c ∈ digits', Radix.thirtySix.isDigit c = true)
    (h : referenceText digits ++ cs = referenceText digits' ++ ds) :
    digits = digits' ∧ cs = ds := by
  have h : digits ++ '_' :: cs = digits' ++ '_' :: ds := by simpa [referenceText] using h
  have stops : ∀ cs : List Char, Radix.thirtySix.Stops ('_' :: cs) := fun _ =>
    Radix.stops_cons.2 rfl
  obtain ⟨rfl, hrest⟩ := Radix.eq_of_append_eq hd hd' (stops cs) (stops ds) h
  exact ⟨rfl, List.tail_eq_of_cons_eq hrest⟩

/-- Attributes in front of no attributes are cut off alike. -/
theorem eq_of_attributes_append_eq {space space' : Option AddressSpace} {qs qs' : QualifierSet}
    (hq : qs.Known) (hq' : qs'.Known) (hcs : NoAttrs cs) (hds : NoAttrs ds)
    (h : spaceText space ++ (qs.toList.map Qualifier.letter ++ cs)
      = spaceText space' ++ (qs'.toList.map Qualifier.letter ++ ds)) :
    space = space' ∧ qs = qs' ∧ cs = ds := by
  have hspace : ∀ space, SpaceText .lenient space (spaceText space) := fun _ =>
    spaceText_iff.2 ⟨rfl, nofun⟩
  have hr := readSpace_append (hspace space) fun _ => qs.head?_letters_append hcs
  rw [h, readSpace_append (hspace space') fun _ => qs'.head?_letters_append hds] at hr
  simp only [Except.ok.injEq, Prod.mk.injEq] at hr
  obtain ⟨rfl, hrest⟩ := hr
  have hr := readQualifiers_append hq hcs
  rw [← hrest, readQualifiers_append hq' hds, Prod.mk.injEq] at hr
  exact ⟨rfl, hr.1.symm, hr.2.symm⟩

end

theorem Builtin.eq_of_spelling_eq {b c : Builtin} (h : b.spelling = c.spelling) : b = c := by
  have hb := ofSpelling?_eq_some_iff.2 h
  rw [ofSpelling?_eq_some_iff.2 rfl] at hb
  exact (Option.some.inj hb).symm

namespace TypeTree

/-! ### How the text of a type starts -/

/-- The kinds of nodes of a tree. -/
inductive Rule where
  | builtin
  | named
  | reference
  | vector
  | pointerTo
  | pointer

/-- The kind of the outermost node. -/
def rule : TypeTree → Rule
  | builtin .. => .builtin
  | named .. => .named
  | reference .. => .reference
  | vector .. => .vector
  | pointerTo .. => .pointerTo
  | pointer .. => .pointer

/-- The kind of node that a text starts with, if it can start with one at all. -/
def lead? : List Char → Option Rule
  | [] => none
  | c :: cs =>
    if c = 'S' then some .reference
    else if c = 'D' then some (if cs.head? = some 'v' then .vector else .builtin)
    else if c = 'P' then some (if cs.head? = some 'S' then .pointerTo else .pointer)
    else if c.isDigit then some .named
    else if c ∈ ['U', 'r', 'V', 'K'] then none
    else some .builtin

/-- Attributes of a pointer start no type. -/
theorem noAttrs_of_lead? {cs : List Char} {r : Rule} (h : lead? cs = some r) : NoAttrs cs := by
  cases cs with
  | nil => cases h
  | cons c cs =>
    intro d hd hm
    obtain rfl : c = d := by simpa using hd
    simp only [List.mem_cons, List.not_mem_nil, or_false] at hm
    rcases hm with rfl | rfl | rfl | rfl <;> cases h

theorem lead?_of_isDigit {c : Char} (h : c.isDigit = true) (cs : List Char) :
    lead? (c :: cs) = some .named := by
  have hS : c ≠ 'S' := by rintro rfl; cases h
  have hD : c ≠ 'D' := by rintro rfl; cases h
  have hP : c ≠ 'P' := by rintro rfl; cases h
  rw [lead?, if_neg hS, if_neg hD, if_neg hP, if_pos h]

/-- The text of a type starts with its kind, whatever follows it. -/
theorem lead?_text {t : TypeTree} (ht : t.Spelled) (cs : List Char) :
    lead? (t.text ++ cs) = some t.rule := by
  induction t generalizing cs with
  | builtin b =>
    cases hb : b.spelling with
    | letter c =>
      obtain ⟨hc, hd⟩ := Builtin.letter_spelling hb
      simp only [List.mem_cons, List.not_mem_nil, or_false, not_or] at hc
      simp [text, Builtin.code_eq, hb, Spelling.text, lead?, rule, hc, hd]
    | extended c =>
      have hc := Builtin.extended_spelling hb
      simp [text, Builtin.code_eq, hb, Spelling.text, lead?, rule, hc]
    | source name => exact absurd hb (ht name)
  | named digits name =>
    obtain ⟨c, tail, rfl⟩ := List.exists_cons_of_ne_nil ht.digits_ne_nil
    exact lead?_of_isDigit (ht.isDigit c List.mem_cons_self) _
  | reference digits => rfl
  | vector digits element ih => rfl
  | pointerTo digits => rfl
  | pointer space qs target ih =>
    obtain ⟨hq, hhead, ht⟩ := ht
    -- behind the `P` there is no `S`, neither of the attributes nor of the target
    have hS : 'S' ∉ (spaceText space ++ qs.toList.map Qualifier.letter
        ++ (target.text ++ cs)).head? := by
      have ha : AttrsText .lenient ⟨space.getD default, qs⟩ (space.isSome || !qs.isEmpty)
          (spaceText space ++ qs.toList.map Qualifier.letter) :=
        attrsText_iff.2 ⟨space, qs, hq, rfl, rfl, rfl, fun h => by cases h⟩
      refine ha.head_append fun hf => ?_
      have hnil := ih ht []
      cases htext : target.text with
      | nil =>
        rw [htext] at hnil
        cases hnil
      | cons c tail => simpa [htext] using hhead hf
    have hP : (pointer space qs target).text ++ cs = 'P' :: (spaceText space
        ++ qs.toList.map Qualifier.letter ++ (target.text ++ cs)) := by simp [text]
    rw [hP, lead?, if_neg (by decide), if_neg (by decide), if_pos rfl,
      if_neg (mt Option.mem_def.2 hS)]
    rfl

/-! ### Types -/

/-- The letters of a builtin are one letter, or one behind a `D`. -/
theorem text_builtin {b : Builtin} (h : (builtin b).Spelled) :
    (∃ c, b.spelling = .letter c ∧ c ≠ 'D' ∧ (builtin b).text = [c]) ∨
      ∃ c, b.spelling = .extended c ∧ (builtin b).text = ['D', c] := by
  cases hb : b.spelling with
  | letter c =>
    have hD : c ≠ 'D' := by
      rintro rfl
      exact (Builtin.letter_spelling hb).1 (by decide)
    exact .inl ⟨c, rfl, hD, by simp [text, Builtin.code_eq, hb, Spelling.text]⟩
  | extended c => exact .inr ⟨c, rfl, by simp [text, Builtin.code_eq, hb, Spelling.text]⟩
  | source name => exact absurd hb (h name)

/-- Builtins that have letters are cut off alike. -/
theorem eq_of_builtin_append {b c : Builtin} (hb : (builtin b).Spelled) (hc : (builtin c).Spelled)
    {cs ds : List Char} (h : (builtin b).text ++ cs = (builtin c).text ++ ds) :
    b = c ∧ cs = ds := by
  rcases text_builtin hb with ⟨x, hx, hxD, hbt⟩ | ⟨x, hx, hbt⟩ <;>
    rcases text_builtin hc with ⟨y, hy, hyD, hct⟩ | ⟨y, hy, hct⟩ <;>
    rw [hbt, hct] at h
  · obtain ⟨rfl, rfl⟩ : x = y ∧ cs = ds := by simpa using h
    exact ⟨Builtin.eq_of_spelling_eq (hx.trans hy.symm), rfl⟩
  · exact absurd (List.head_eq_of_cons_eq h) hxD
  · exact absurd (List.head_eq_of_cons_eq h).symm hyD
  · obtain ⟨rfl, rfl⟩ : x = y ∧ cs = ds := by simpa using h
    exact ⟨Builtin.eq_of_spelling_eq (hx.trans hy.symm), rfl⟩

/-- Types that start equal texts have outermost nodes of one kind. -/
theorem rule_eq_of_text_append {t u : TypeTree} (ht : t.Spelled) (hu : u.Spelled)
    {cs ds : List Char} (h : t.text ++ cs = u.text ++ ds) : t.rule = u.rule := by
  have hlead := lead?_text ht cs
  rw [h, lead?_text hu ds] at hlead
  exact (Option.some.inj hlead).symm

/-- Where the texts of two types start equal texts, the types are spelled alike, and what follows
them is equal. -/
theorem eq_of_text_append {t u : TypeTree} (ht : t.Spelled) (hu : u.Spelled) {cs ds : List Char}
    (h : t.text ++ cs = u.text ++ ds) : t = u ∧ cs = ds := by
  have hrule := rule_eq_of_text_append ht hu h
  induction t generalizing u cs ds with
  | builtin b =>
    cases u with
    | builtin c =>
      obtain ⟨rfl, hrest⟩ := eq_of_builtin_append ht hu h
      exact ⟨rfl, hrest⟩
    | _ => cases hrule
  | named digits name =>
    cases u with
    | named digits' name' =>
      obtain ⟨rfl, rfl, hrest⟩ := ht.eq_of_append_eq hu (by simpa [text] using h)
      exact ⟨rfl, hrest⟩
    | _ => cases hrule
  | reference digits =>
    cases u with
    | reference digits' =>
      obtain ⟨rfl, hrest⟩ := eq_of_referenceText_append_eq ht hu h
      exact ⟨rfl, hrest⟩
    | _ => cases hrule
  | vector digits element ih =>
    cases u with
    | vector digits' element' =>
      have h : digits ++ '_' :: (element.text ++ cs) = digits' ++ '_' :: (element'.text ++ ds) := by
        simpa [text] using h
      obtain ⟨rfl, hrest⟩ := Radix.eq_of_append_eq (r := .ten) ht.2.1 hu.2.1
        (Radix.stops_cons.2 rfl) (Radix.stops_cons.2 rfl) h
      have hrest := List.tail_eq_of_cons_eq hrest
      obtain ⟨rfl, hcs⟩ := ih ht.2.2 hu.2.2 hrest (rule_eq_of_text_append ht.2.2 hu.2.2 hrest)
      exact ⟨rfl, hcs⟩
    | _ => cases hrule
  | pointerTo digits =>
    cases u with
    | pointerTo digits' =>
      obtain ⟨rfl, hrest⟩ := eq_of_referenceText_append_eq ht hu (List.tail_eq_of_cons_eq h)
      exact ⟨rfl, hrest⟩
    | _ => cases hrule
  | pointer space qs target ih =>
    cases u with
    | pointer space' qs' target' =>
      obtain ⟨hq, -, ht⟩ := ht
      obtain ⟨hq', -, hu⟩ := hu
      have hn := noAttrs_of_lead? (lead?_text ht cs)
      have hn' := noAttrs_of_lead? (lead?_text hu ds)
      obtain ⟨rfl, rfl, hrest⟩ := eq_of_attributes_append_eq hq hq' hn hn' (by simpa [text] using h)
      obtain ⟨rfl, hcs⟩ := ih ht hu hrest (rule_eq_of_text_append ht hu hrest)
      exact ⟨rfl, hcs⟩
    | _ => cases hrule

theorem text_ne_nil {t : TypeTree} (ht : t.Spelled) : t.text ≠ [] := by
  intro h
  have hlead := lead?_text ht []
  rw [h] at hlead
  cases hlead

theorem eq_of_flatMap_text {ts us : List TypeTree} (ht : ∀ t ∈ ts, t.Spelled)
    (hu : ∀ u ∈ us, u.Spelled) (h : ts.flatMap text = us.flatMap text) : ts = us := by
  induction ts generalizing us with
  | nil =>
    cases us with
    | nil => rfl
    | cons u us =>
      have hnil : u.text = [] := by
        rw [List.flatMap_nil, List.flatMap_cons] at h
        exact (List.append_eq_nil_iff.1 h.symm).1
      exact absurd hnil (text_ne_nil (hu u List.mem_cons_self))
  | cons t ts ih =>
    obtain ⟨ht, hts⟩ := List.forall_mem_cons.1 ht
    cases us with
    | nil =>
      rw [List.flatMap_nil, List.flatMap_cons] at h
      exact absurd (List.append_eq_nil_iff.1 h).1 (text_ne_nil ht)
    | cons u us =>
      obtain ⟨hu, hus⟩ := List.forall_mem_cons.1 hu
      obtain ⟨rfl, hrest⟩ := eq_of_text_append ht hu h
      rw [ih hts hus hrest]

end TypeTree

/-! ### Symbols -/

namespace SymbolTree

variable {tree tree' : SymbolTree}

theorem eq_of_text_eq (hs : tree.Spelled) (hs' : tree'.Spelled) (h : tree.text = tree'.text) :
    tree = tree' := by
  obtain ⟨digits, name, params⟩ := tree
  obtain ⟨digits', name', params'⟩ := tree'
  obtain ⟨rfl, rfl, hbody⟩ := hs.name.eq_of_append_eq hs'.name (by simpa [text] using h)
  -- a `v` on its own is the text of no parameters only
  have hv : params = [] ↔ params' = [] := by
    constructor <;> rintro rfl
    · exact Classical.not_not.1 fun hne => hs'.body_ne hne hbody.symm
    · exact Classical.not_not.1 fun hne => hs.body_ne hne hbody
  by_cases he : params = []
  · rw [he, hv.1 he]
  · have hbody : params.flatMap TypeTree.text = params'.flatMap TypeTree.text := by
      rwa [body_of_ne_nil _ he, body_of_ne_nil _ (mt hv.2 he)] at hbody
    exact congrArg (SymbolTree.mk digits name)
      (TypeTree.eq_of_flatMap_text hs.params hs'.params hbody)

/-- A text has one parse tree at most, and stands for one signature at most. -/
theorem Derives.unique {text : String} {f f' : Signature ArgType}
    {table table' : List (Component ArgType)} (h : tree.Derives text f table)
    (h' : tree'.Derives text f' table') : tree = tree' ∧ f = f' ∧ table = table' := by
  obtain rfl := eq_of_text_eq h.spelled h'.spelled (h.text_eq.trans h'.text_eq.symm)
  have hm := h.meaning_eq
  rw [h'.meaning_eq] at hm
  simp only [Option.some.injEq, Prod.mk.injEq] at hm
  exact ⟨rfl, Signature.ext (h.name_eq.symm.trans h'.name_eq) hm.1.symm, hm.2.symm⟩

/-- A parse tree whose references are counted stands for what the grammar derives. -/
theorem Derives.symbolText {text : String} {f : Signature ArgType}
    {table : List (Component ArgType)} (h : tree.Derives text f table) (hc : tree.Counted) :
    SymbolText .lenient text.toList f.name f.params table :=
  symbolText_iff.2 ⟨tree, h, fun n hn => ⟨h.bounded n hn, nofun⟩, hc, nofun⟩

end SymbolTree

namespace Session

variable {s : Session}

/-- A decoder accepts just the texts that have parse trees whose references are counted, and into
what they stand for. Every text has one parse tree at most, by which it stands for one signature. -/
theorem Reachable.decode_iff_derives (hs : s.Reachable) {i : Nat} {p : Pool}
    (hp : s.pools[i]? = some p) (text : String) :
    (∀ f : Signature ArgType,
      (∃ g q, KernelSymbol.decode text p = (.ok g, q) ∧ g.map Handle.type = f) ↔
        ∃ (tree : SymbolTree) (table : List (Component ArgType)),
          tree.Derives text f table ∧ tree.Counted) ∧
    (∀ (tree tree' : SymbolTree) (f f' : Signature ArgType)
      (table table' : List (Component ArgType)),
      tree.Derives text f table → tree'.Derives text f' table' →
        tree = tree' ∧ f = f' ∧ table = table') := by
  have hpv := (hs.valid.pool hp).1
  refine ⟨fun f => ⟨?_, ?_⟩, fun tree tree' f f' table table' h h' => h.unique h'⟩
  · rintro ⟨g, q, hg, rfl⟩
    obtain ⟨table, ht, -⟩ := symbolText_of_decode hpv hg
    obtain ⟨tree, hd, hf⟩ := (symbolText_iff (f := g.map Handle.type)).1 ht
    exact ⟨tree, table, hd, hf.counted⟩
  · rintro ⟨tree, table, hd, hc⟩
    obtain ⟨r, hr, hY⟩ := (hd.symbolText hc).decode hpv
    exact ⟨_, r.2, hr, Signature.ext rfl hY.types_eq⟩

/-- A pointer to a pointer, and a reference to it with some zeros for a number. -/
def paddedTree (zeros : Nat) : SymbolTree where
  digits := ['1']
  name := "f"
  params := [.pointer none .empty (.pointer none .empty (.builtin .int)),
    .reference (List.replicate zeros '0')]

/-- What this stands for. -/
def paddedSignature : Signature ArgType where
  name := "f"
  params := [.pointer .plain (.pointer .plain (.builtin .int)),
    .pointer .plain (.pointer .plain (.builtin .int))]

theorem derives_paddedTree (zeros : Nat) : (paddedTree (zeros + 1)).Derives
    (String.ofList (paddedTree (zeros + 1)).text) paddedSignature
    [.whole (.pointer .plain (.builtin .int)),
      .whole (.pointer .plain (.pointer .plain (.builtin .int)))] where
  text_eq := String.toList_ofList.symm
  spelled := by
    have hname : Measures ['1'] "f" := by decide +kernel
    refine ⟨hname, ?_, fun _ h => by cases h⟩
    rw [paddedTree, List.forall_mem_cons, List.forall_mem_singleton]
    exact ⟨by decide, fun _ => Radix.isDigit_of_mem_replicate_zero⟩
  bounded := by
    simp [SymbolTree.numerals, paddedTree, TypeTree.numerals]
    decide
  name_eq := rfl
  meaning_eq := by
    have hplace : referencePlace (List.replicate (zeros + 1) '0') = 1 := by
      rw [List.replicate_succ, referencePlace, ← List.replicate_succ, Radix.value_replicate_zero]
    simp only [paddedTree, TypeTree.meanings?, TypeTree.meaning?, hplace]
    rfl

/-- A tree need not be counted to derive a text: `2 ^ 32` zeros are as good a number as one, but
their count comes round to zero, and no decoder accepts them. -/
theorem derives_not_decodes_paddedTree :
    (String.ofList (paddedTree UInt32.size).text).utf8ByteSize < textBound ∧
    (∃ table, (paddedTree UInt32.size).Derives (String.ofList (paddedTree UInt32.size).text)
      paddedSignature table) ∧
    ∃ p : Pool, start.pools[0]? = some p ∧
      ¬∃ g q, KernelSymbol.decode (String.ofList (paddedTree UInt32.size).text) p = (.ok g, q) := by
  obtain ⟨p, hp⟩ : ∃ p, start.pools[0]? = some p := ⟨_, rfl⟩
  obtain ⟨zeros, hz⟩ : ∃ zeros, UInt32.size = zeros + 1 := ⟨4294967295, rfl⟩
  have hd := derives_paddedTree zeros
  rw [← hz] at hd
  refine ⟨?_, ⟨_, hd⟩, p, hp, ?_⟩
  · rw [utf8ByteSize_ofList]
    simp only [SymbolTree.text, SymbolTree.body, paddedTree, TypeTree.text, referenceText,
      spaceText, List.isEmpty_cons, Bool.false_eq_true, if_false, List.flatMap_cons,
      List.flatMap_nil, List.append_nil, List.cons_append, byteCount_append, byteCount_cons, byteCount_replicate]
    decide +kernel
  · rintro ⟨g, q, hg⟩
    obtain ⟨hiff, hunique⟩ := reachable_start.decode_iff_derives hp
      (String.ofList (paddedTree UInt32.size).text)
    obtain ⟨tree, table, htree, hcounted⟩ := (hiff (g.map Handle.type)).1 ⟨g, q, hg, rfl⟩
    obtain ⟨rfl, -⟩ := hunique _ _ _ _ _ _ htree hd
    refine hcounted (.thirtySix, List.replicate UInt32.size '0') ?_ rfl ?_ ?_
    · simp [SymbolTree.numerals, paddedTree, TypeTree.numerals]
    · exact mt (List.replicate_eq_nil_iff _).1 (by decide)
    · simp

/-- Every kind of node: a vector and a name with zeros in front of their lengths, a pointer to
what is referred to, a pointer with attributes, and a pointer to these attributes. -/
def mixedTree : SymbolTree where
  digits := ['3']
  name := "mix"
  params := [.vector ['0', '4'] (.builtin .float), .named ['0', '1'] "a", .pointerTo [],
    .pointer (some .globalSpace) (.ofList [.const]) (.builtin .int), .pointerTo ['2']]

theorem derives_mixedTree : mixedTree.Derives "_Z3mixDv04_f01aPS_PU3AS1KiPS2_"
    ⟨"mix", [.cons (.vector 4) (.builtin .float), ⟨[], .named "a"⟩,
      .pointer .plain (.cons (.vector 4) (.builtin .float)),
      .pointer ⟨.globalSpace, .ofList [.const]⟩ (.builtin .int),
      .pointer ⟨.globalSpace, .ofList [.const]⟩ (.builtin .int)]⟩
    [.whole (.cons (.vector 4) (.builtin .float)), .whole ⟨[], .named "a"⟩,
      .whole (.pointer .plain (.cons (.vector 4) (.builtin .float))),
      .qualified ⟨.globalSpace, .ofList [.const]⟩ (.builtin .int),
      .whole (.pointer ⟨.globalSpace, .ofList [.const]⟩ (.builtin .int)),
      .whole (.pointer ⟨.globalSpace, .ofList [.const]⟩ (.builtin .int))] := by
  decide +kernel

theorem counted_mixedTree : mixedTree.Counted := by decide +kernel

/-- A decoder accepts this symbol, and into what its tree stands for. -/
theorem decode_iff_derives_mixedTree : ∃ (p : Pool) (g : Signature Handle) (q : Pool),
    start.pools[0]? = some p ∧
      KernelSymbol.decode "_Z3mixDv04_f01aPS_PU3AS1KiPS2_" p = (.ok g, q) ∧
      g.map Handle.type = ⟨"mix", [.cons (.vector 4) (.builtin .float), ⟨[], .named "a"⟩,
        .pointer .plain (.cons (.vector 4) (.builtin .float)),
        .pointer ⟨.globalSpace, .ofList [.const]⟩ (.builtin .int),
        .pointer ⟨.globalSpace, .ofList [.const]⟩ (.builtin .int)]⟩ := by
  obtain ⟨p, hp⟩ : ∃ p, start.pools[0]? = some p := ⟨_, rfl⟩
  obtain ⟨g, q, hg, hf⟩ := ((reachable_start.decode_iff_derives hp _).1 _).2
    ⟨mixedTree, _, derives_mixedTree, counted_mixedTree⟩
  exact ⟨p, g, q, hp, hg, hf⟩

end Session

end KernelSymbol
