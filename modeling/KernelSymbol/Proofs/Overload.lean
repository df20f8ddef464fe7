import KernelSymbol.Proofs.Image
import KernelSymbol.Proofs.Refinement

/-!
# Overloads with one symbol

Functions of one name are told apart by their parameters. Where two parameter lists differ for the
first time, the texts in front are equal, and so are the components that may be referred to. From
there on a text can be cut off again: into references, letters, heads of pointers and vectors, and
names behind their lengths. So the types that are written agree, as far as they are written, and as
long as it is clear where a length ends and which leaf has a name.

That is not always so. Of the qualifiers of a pointer, only the bits with a letter are written. A
named type may have the name that an opaque builtin is spelled as. And a name that starts with a
digit may be taken for the rest of a longer length. These are the only ways for different overloads
to have one symbol, and each of them does lead to one symbol if the texts behind fit. They need not,
because different types may be different components, and a builtin is none.

## Main definitions

* `Link.trim` — a link without the bits that are not written
* `RunsInto` — a name behind its length, and what follows it, read as another name
* `Written` — what a transcript may write for a type
* `ArgType.Alike`, `ArgType.RunsInto`, `ArgType.Merges` — the types that may be read for each other,
  and what has to follow them
* `Transcript.textAfter`, `Transcript.Collide` — the text behind some types, and parameter lists
  with one text

## Main results

* `Transcript.exists_written` — what a transcript writes
* `Written.append_eq_iff` — when two texts may start with the texts of two types
* `Transcript.text_run_eq_iff` — when two lists of types have one text
* `Session.Reachable.encode_eq_encode_iff` — when two overloads have one symbol
-/

namespace KernelSymbol

/-! ### What is not written -/

/-- The set without the bits that belong to no qualifier. -/
def QualifierSet.trim (s : QualifierSet) : QualifierSet := .ofList s.toList

/-- The attributes without the bits that belong to no qualifier. -/
def PointerAttrs.trim (a : PointerAttrs) : PointerAttrs :=
  { a with qualifiers := a.qualifiers.trim }

/-- The link without the bits that belong to no qualifier. -/
def Link.trim : Link → Link
  | .vector n => .vector n
  | .pointer a => .pointer a.trim

@[simp] theorem QualifierSet.toList_trim (s : QualifierSet) : s.trim.toList = s.toList := by
  have h : s.trim.contains = s.contains := by
    funext q
    rw [trim, contains_ofList]
    simp [mem_toList]
  rw [toList, h]
  rfl

theorem QualifierSet.known_trim (s : QualifierSet) : s.trim.Known := known_ofList _

/-! ### Names behind their lengths -/

/-- Behind its length, a name and what follows it may be read as another name and what follows that.
The other length has the same digits and then more, and these are what the name starts with. -/
def RunsInto (name : String) (cs : List Char) (name' : String) (ds : List Char) : Prop :=
  ∃ digits, digits ≠ [] ∧
    Radix.ten.digits name'.utf8ByteSize = Radix.ten.digits name.utf8ByteSize ++ digits ∧
    name.toList ++ cs = digits ++ (name'.toList ++ ds)

theorem toList_sourceName (name : String) :
    (sourceName name).toList = Radix.ten.digits name.utf8ByteSize ++ name.toList := by
  simp [sourceName, Radix.text]

section

variable {name name' : String} {cs ds : List Char}

/-- Names behind their lengths are equal, unless one of them runs into the other's length. -/
theorem sourceName_append_eq_iff :
    (sourceName name).toList ++ cs = (sourceName name').toList ++ ds ↔
      name = name' ∧ cs = ds ∨ RunsInto name cs name' ds ∨ RunsInto name' ds name cs := by
  rw [toList_sourceName, toList_sourceName, List.append_assoc, List.append_assoc]
  constructor
  · intro h
    by_cases hsize : name.utf8ByteSize = name'.utf8ByteSize
    · rw [hsize] at h
      exact .inl (eq_of_name_append_eq hsize (List.append_cancel_left h))
    have more : ∀ {n m : Nat} {digits : List Char}, n ≠ m →
        Radix.ten.digits m = Radix.ten.digits n ++ digits → digits ≠ [] := by
      rintro n m digits hne hd rfl
      rw [List.append_nil] at hd
      exact hne (Radix.ten.digits_injective hd).symm
    -- the digits of one length go on where those of the other end
    rcases List.append_eq_append_iff.1 h with ⟨digits, hd, hrest⟩ | ⟨digits, hd, hrest⟩
    · exact .inr (.inl ⟨digits, more hsize hd, hd, hrest⟩)
    · exact .inr (.inr ⟨digits, more (Ne.symm hsize) hd, hd, hrest⟩)
  · rintro (⟨rfl, rfl⟩ | ⟨digits, -, hd, hrest⟩ | ⟨digits, -, hd, hrest⟩)
    · rfl
    · rw [hd, hrest, List.append_assoc]
    · rw [hd, hrest, List.append_assoc]

/-- Only a name that starts with a digit runs into a length. -/
theorem RunsInto.startsWithDigit (h : RunsInto name cs name' ds) (hne : name ≠ "") :
    StartsWithDigit name := by
  obtain ⟨digits, hdne, hd, hrest⟩ := h
  obtain ⟨c, tail, hname⟩ := List.exists_cons_of_ne_nil (mt String.toList_eq_nil_iff.1 hne)
  obtain ⟨d, digits, rfl⟩ := List.exists_cons_of_ne_nil hdne
  rw [hname] at hrest
  obtain rfl : c = d := List.head_eq_of_cons_eq hrest
  refine ⟨c, by rw [hname]; rfl, ?_⟩
  exact Radix.isDigit_of_mem_digits (r := .ten) (n := name'.utf8ByteSize) (by simp [hd])

/-- Where nothing follows it, no name runs into a length: the name behind a longer length is longer,
and so it is no part of the other one. -/
theorem not_runsInto_nil : ¬RunsInto name [] name' ds := by
  rintro ⟨digits, hne, hd, hrest⟩
  have hbytes := congrArg byteCount hrest
  rw [List.append_nil, byteCount_append, byteCount_append, byteCount_toList, byteCount_toList]
    at hbytes
  have hlen := Radix.ten.length_digits_le (m := name'.utf8ByteSize) (n := name.utf8ByteSize)
    (by omega)
  rw [hd, List.length_append] at hlen
  have hpos := List.length_pos_iff.2 hne
  omega

end

/-! ### What is written for a type -/

/-- What is written for a link, in front of what is below it. -/
def Link.code : Link → String
  | .vector n => vectorCode n
  | .pointer a => "P" ++ a.code

/-- The name that is written for a leaf, if any is. -/
def Leaf.sourceName? : Leaf → Option String
  | .named name => some name
  | .builtin b =>
    match b.spelling with
    | .source name => some name
    | _ => none

/-- What a text for a type may be: a reference, letters of a builtin, a name behind its length, or
a link in front of a text for what is below it. -/
inductive Form where
  | reference
  | letters
  | name
  | link

/-- A text that is written for a type behind some components. -/
inductive Written (table : List (Component ArgType)) : Form → ArgType → List Char → Prop
  | reference {t i} : table.idxOf? (.whole t) = some i →
      Written table .reference t (backReference i).toList
  | letters {b : Builtin} : (∀ name, b.spelling ≠ .source name) →
      Written table .letters (.builtin b) b.code.toList
  | name {l name} : l.sourceName? = some name → name ≠ "" → .whole ⟨[], l⟩ ∉ table →
      Written table .name ⟨[], l⟩ (sourceName name).toList
  | link {l form t cs} : .whole (.cons l t) ∉ table → Written table form t cs →
      Written table .link (.cons l t) (l.code.toList ++ cs)

/-! ### The texts as characters -/

/-- An address space as it is spelled out: all but the private one are. -/
def AddressSpace.spelled? (s : AddressSpace) : Option AddressSpace :=
  if s.isDefault then none else some s

theorem AddressSpace.getD_spelled? (s : AddressSpace) : s.spelled?.getD default = s := by
  cases s <;> rfl

/-- The digits of a reference to a place. -/
def referenceDigits : Nat → List Char
  | 0 => []
  | id + 1 => Radix.thirtySix.digits id

theorem isDigit_of_mem_referenceDigits {i : Nat} :
    ∀ c ∈ referenceDigits i, Radix.thirtySix.isDigit c = true := by
  cases i with
  | zero => exact List.forall_mem_nil _
  | succ n => exact fun c => Radix.isDigit_of_mem_digits

theorem referencePlace_referenceDigits (i : Nat) : referencePlace (referenceDigits i) = i := by
  cases i with
  | zero => rfl
  | succ n =>
    obtain ⟨c, tail, h⟩ := List.exists_cons_of_ne_nil (Radix.thirtySix.digits_ne_nil n)
    rw [referenceDigits, h, referencePlace, ← h, Radix.value_digits]

theorem toList_backReference (i : Nat) :
    (backReference i).toList = referenceText (referenceDigits i) := by
  cases i with
  | zero => rfl
  | succ n => simp [referenceText, referenceDigits, backReference, Radix.text]

/-- References to places are cut off alike. -/
theorem eq_of_backReference_append_eq {i j : Nat} {cs ds : List Char}
    (h : (backReference i).toList ++ cs = (backReference j).toList ++ ds) : i = j ∧ cs = ds := by
  rw [toList_backReference, toList_backReference] at h
  obtain ⟨hd, hrest⟩ := eq_of_referenceText_append_eq isDigit_of_mem_referenceDigits
    isDigit_of_mem_referenceDigits h
  have hij := congrArg referencePlace hd
  rw [referencePlace_referenceDigits, referencePlace_referenceDigits] at hij
  exact ⟨hij, hrest⟩

theorem Link.toList_code_vector (n : UInt32) :
    (code (.vector n)).toList = 'D' :: 'v' :: (Radix.ten.digits n.toNat ++ ['_']) := by
  simp [code, vectorCode, Radix.text]

theorem Link.toList_code_pointer (a : PointerAttrs) : (code (.pointer a)).toList =
    'P' :: (spaceText a.space.spelled? ++ a.qualifiers.toList.map Qualifier.letter) := by
  have hspace : spaceText a.space.spelled? = a.space.code.toList := by
    cases a.space <;> decide +kernel
  simp [code, PointerAttrs.code, QualifierSet.code, hspace]

/-- What is not written makes no difference to what is. -/
theorem Link.code_trim (l : Link) : l.trim.code = l.code := by
  cases l with
  | vector n => rfl
  | pointer a =>
    rw [← String.toList_inj, trim, toList_code_pointer, toList_code_pointer, PointerAttrs.trim,
      QualifierSet.toList_trim]

/-- A name behind its length starts with a digit. -/
theorem exists_toList_sourceName (name : String) :
    ∃ c tail, (sourceName name).toList = c :: tail ∧ c.isDigit = true := by
  obtain ⟨c, tail, h⟩ := List.exists_cons_of_ne_nil (Radix.ten.digits_ne_nil name.utf8ByteSize)
  refine ⟨c, tail ++ name.toList, by rw [toList_sourceName, h]; rfl, ?_⟩
  exact Radix.isDigit_of_mem_digits (r := .ten) (h ▸ List.mem_cons_self)

/-! ### A transcript writes such a text -/

theorem Leaf.spelling_of_sourceName? {b : Builtin} {name : String}
    (h : sourceName? (.builtin b) = some name) : b.spelling = .source name := by
  cases b <;> cases h <;> rfl

namespace Transcript

theorem noBuiltin_type {s : Transcript} (h : NoBuiltin s.table) (t : ArgType) :
    NoBuiltin (s.type t).table := fun b hm => by
  rcases mem_table_type hm with hm | hm
  · exact h b hm
  · exact ArgType.builtin_not_mem_components b t hm

theorem noBuiltin_foldl {s : Transcript} (h : NoBuiltin s.table) (ts : List ArgType) :
    NoBuiltin (ts.foldl type s).table := by
  induction ts generalizing s with
  | nil => exact h
  | cons t ts ih => exact ih (noBuiltin_type h t)

/-- A type is referred to, or spelled. -/
theorem exists_written_refer {s : Transcript} {t : ArgType} {spell : Transcript → Transcript}
    {form : Form} {cs : List Char} (h : (spell s).text = s.text ++ String.ofList cs)
    (hw : .whole t ∉ s.table → Written s.table form t cs) : ∃ form cs,
      (s.refer t spell).text = s.text ++ String.ofList cs ∧ Written s.table form t cs := by
  cases hi : s.table.idxOf? (.whole t) with
  | none =>
    rw [refer_of_none hi]
    exact ⟨form, cs, h, hw (List.idxOf?_eq_none_iff.1 hi)⟩
  | some i =>
    rw [refer_of_some hi]
    exact ⟨_, _, by rw [String.ofList_toList]; rfl, .reference hi⟩

/-- A builtin is written by its letters or like a name. -/
theorem exists_written_builtin {s : Transcript} (hs : NoBuiltin s.table) (b : Builtin) : ∃ form cs,
    (s.type (.builtin b)).text = s.text ++ String.ofList cs ∧
      Written s.table form (.builtin b) cs := by
  have htext : (s.type (.builtin b)).text = s.text ++ String.ofList b.code.toList := by
    rw [type_builtin, String.ofList_toList]
    rfl
  cases hb : b.spelling with
  | letter | extended => exact ⟨_, _, htext, .letters fun name => by simp [hb]⟩
  | source name =>
    rw [Builtin.code_eq, hb] at htext
    have hl : Leaf.sourceName? (.builtin b) = some name := by rw [Leaf.sourceName?, hb]
    exact ⟨_, _, htext, .name hl (Builtin.source_spelling hb).1 (hs b)⟩

/-- A link is written in front of what is below it. -/
theorem text_write_code {s : Transcript} {l : Link} {t : ArgType} {cs : List Char}
    (h : ((s.write l.code).type t).text = (s.write l.code).text ++ String.ofList cs) :
    ((s.write l.code).type t).text = s.text ++ String.ofList (l.code.toList ++ cs) := by
  rw [h, String.ofList_append, String.ofList_toList, ← String.append_assoc]
  rfl

theorem exists_written {s : Transcript} (hs : NoBuiltin s.table) {t : ArgType}
    (hw : t.WellFormed) :
    ∃ form cs, (s.type t).text = s.text ++ String.ofList cs ∧ Written s.table form t cs := by
  induction hw generalizing s with
  | builtin b => exact exists_written_builtin hs b
  | @named name hne =>
    rw [type_named]
    refine exists_written_refer ?_ (.name (l := .named name) rfl hne)
    rw [String.ofList_toList]
    rfl
  | @vector n b hn hb =>
    obtain ⟨form, cs, hcs, hw⟩ := exists_written_builtin (s := s.write (vectorCode n)) hs b
    rw [show s.type ⟨[.vector n], .builtin b⟩ = _ from type_vector s n (.builtin b)]
    exact exists_written_refer (text_write_code (l := .vector n) hcs) fun hm => .link hm hw
  | @pointer a t hw ih =>
    obtain ⟨form, cs, hcs, hw⟩ := ih (s := s.write ("P" ++ a.code)) hs
    rw [type_pointer]
    refine exists_written_refer ?_ fun hm => .link hm hw
    -- attributes enter the table, and leave the text as it is
    rw [← text_write_code (l := .pointer a) hcs]
    dsimp only
    split <;> rfl

end Transcript

/-! ### How the texts start -/

/-- The form of a text, by the kind of node that it starts with. -/
def TypeTree.Rule.form : Rule → Form
  | reference => .reference
  | builtin => .letters
  | named => .name
  | vector | pointerTo | pointer => .link

namespace Written

variable {table : List (Component ArgType)} {form form' : Form} {t u : ArgType}
  {as bs cs ds : List Char}

/-- A text starts with a node of its form, whatever follows it. -/
theorem exists_lead? (h : Written table form t as) (cs : List Char) :
    ∃ r, TypeTree.lead? (as ++ cs) = some r ∧ r.form = form := by
  cases h with
  | @reference t i hi =>
    rw [toList_backReference]
    exact ⟨.reference, rfl, rfl⟩
  | @letters b hb => exact ⟨.builtin, TypeTree.lead?_text (t := .builtin b) hb cs, rfl⟩
  | @name l name =>
    obtain ⟨c, tail, htext, hc⟩ := exists_toList_sourceName name
    rw [htext]
    exact ⟨.named, TypeTree.lead?_of_isDigit hc _, rfl⟩
  | @link l form t cs' h =>
    cases l with
    | vector n =>
      rw [Link.toList_code_vector]
      exact ⟨.vector, rfl, rfl⟩
    | pointer a =>
      rw [Link.toList_code_pointer]
      refine ⟨_, rfl, ?_⟩
      split <;> rfl

/-- A text starts with a letter of a builtin, a digit, an `S`, a `D` or a `P`. The letter of `void`
is written for `void` only. -/
theorem exists_head (h : Written table form t as) :
    ∃ c tail, as = c :: tail ∧ c ≠ 'o' ∧ (c = 'v' → t = .builtin .void ∧ tail = []) := by
  have other : ∀ {c : Char} {tail : List Char}, as = c :: tail → c ≠ 'o' → c ≠ 'v' →
      ∃ c tail, as = c :: tail ∧ c ≠ 'o' ∧ (c = 'v' → t = .builtin .void ∧ tail = []) :=
    fun h ho hv => ⟨_, _, h, ho, fun h => absurd h hv⟩
  cases h with
  | @reference t i hi => exact other (toList_backReference i) (by decide) (by decide)
  | @letters b hb =>
    rcases TypeTree.text_builtin hb with ⟨c, hc, -, htext⟩ | ⟨c, -, htext⟩
    · refine ⟨c, [], htext, ?_, ?_⟩
      · rintro rfl
        cases b <;> cases hc
      · rintro rfl
        rw [Builtin.eq_of_spelling_eq (show b.spelling = Builtin.void.spelling from hc)]
        exact ⟨rfl, rfl⟩
    · exact other htext (by decide) (by decide)
  | @name l name =>
    obtain ⟨c, tail, htext, hc⟩ := exists_toList_sourceName name
    refine other htext ?_ ?_ <;> rintro rfl <;> cases hc
  | @link l form t cs h =>
    cases l with
    | vector n =>
      exact other (congrArg (· ++ cs) (Link.toList_code_vector n)) (by decide) (by decide)
    | pointer a =>
      exact other (congrArg (· ++ cs) (Link.toList_code_pointer a)) (by decide) (by decide)

theorem form_eq (ht : Written table form t as) (hu : Written table form' u bs)
    (h : as ++ cs = bs ++ ds) : form = form' := by
  obtain ⟨r, hr, rfl⟩ := ht.exists_lead? cs
  obtain ⟨r', hr', rfl⟩ := hu.exists_lead? ds
  rw [h, hr'] at hr
  rw [Option.some.inj hr]

end Written

/-! ### Types that are read for each other -/

/-- A builtin, and the named type that has the name that the builtin is spelled as. -/
inductive Leaf.Homonym : Leaf → Leaf → Prop
  | mk {b : Builtin} {name : String} : b.spelling = .source name →
      Homonym (.builtin b) (.named name)

/-- Leaves that are written like names are equal or homonyms if and only if the names are equal. -/
theorem Leaf.eq_or_homonym_iff {l m : Leaf} {name name' : String} (hl : l.sourceName? = some name)
    (hm : m.sourceName? = some name') :
    l = m ∨ l.Homonym m ∨ m.Homonym l ↔ name = name' := by
  constructor
  · rintro (rfl | h | h)
    · exact Option.some.inj (hl.symm.trans hm)
    · obtain ⟨hs⟩ := h
      rw [← Spelling.source.inj (hs.symm.trans (spelling_of_sourceName? hl))]
      exact Option.some.inj hm
    · obtain ⟨hs⟩ := h
      rw [← Spelling.source.inj (hs.symm.trans (spelling_of_sourceName? hm))]
      exact (Option.some.inj hl).symm
  · rintro rfl
    cases l with
    | named =>
      obtain rfl := Option.some.inj hl
      cases m with
      | named =>
        obtain rfl := Option.some.inj hm
        exact .inl rfl
      | builtin c => exact .inr (.inr (.mk (spelling_of_sourceName? hm)))
    | builtin b =>
      cases m with
      | named =>
        obtain rfl := Option.some.inj hm
        exact .inr (.inl (.mk (spelling_of_sourceName? hl)))
      | builtin c =>
        rw [Builtin.eq_of_spelling_eq
          ((spelling_of_sourceName? hl).trans (spelling_of_sourceName? hm).symm)]
        exact .inl rfl

namespace ArgType

variable (table : List (Component ArgType))

/-- Types whose leaves are equal or homonyms, and of whose parts at one depth neither is known
unless they are equal. -/
structure Alike (t u : ArgType) : Prop where
  leaf : t.leaf = u.leaf ∨ t.leaf.Homonym u.leaf ∨ u.leaf.Homonym t.leaf
  known : ∀ p ∈ t.subchains.zip u.subchains,
    .whole p.1 ∈ table ∨ .whole p.2 ∈ table → p.1 = p.2

/-- Types of which nothing is known, and which are built on names of which one, with what follows
it, runs into the length of the other. -/
def RunsInto (t : ArgType) (cs : List Char) (u : ArgType) (ds : List Char) : Prop :=
  ∃ name name', t.leaf = .named name ∧ u.leaf = .named name' ∧
    KernelSymbol.RunsInto name cs name' ds ∧ ∀ p ∈ t.subchains ++ u.subchains, .whole p ∉ table

/-- Types that are read for each other in front of certain texts: their links are written alike, and
either they are alike and the texts behind are equal, or one of them runs into the other. -/
def Merges (t : ArgType) (cs : List Char) (u : ArgType) (ds : List Char) : Prop :=
  t.links.map Link.trim = u.links.map Link.trim ∧
    (Alike table t u ∧ cs = ds ∨ RunsInto table t cs u ds ∨ RunsInto table u ds t cs)

variable {table} {t u : ArgType} {cs ds : List Char}

theorem Alike.refl (t : ArgType) : Alike table t t := by
  refine ⟨.inl rfl, ?_⟩
  induction t using ind with
  | leaf l => simp
  | cons l t ih =>
    rw [subchains_cons, List.zip_cons_cons, List.forall_mem_cons]
    exact ⟨fun _ => rfl, ih⟩

/-- A type that is known is read for nothing else. -/
theorem Merges.eq_of_mem (h : Merges table t cs u ds)
    (hm : .whole t ∈ table ∨ .whole u ∈ table) : t = u ∧ cs = ds := by
  obtain ⟨-, ⟨⟨-, hk⟩, hrest⟩ | ⟨_, _, -, -, -, hn⟩ | ⟨_, _, -, -, -, hn⟩⟩ := h
  · refine ⟨hk (t, u) ?_ hm, hrest⟩
    cases t using ind <;> cases u using ind <;> simp [subchains_cons]
  all_goals
    rw [List.forall_mem_append] at hn
    exact absurd hm (by simp [hn.1 _ (mem_subchains_self _), hn.2 _ (mem_subchains_self _)])

/-- Links that are spelled stand in front of types that are read for each other. -/
theorem merges_cons_iff {l m : Link} (hl : .whole (cons l t) ∉ table)
    (hm : .whole (cons m u) ∉ table) :
    Merges table (cons l t) cs (cons m u) ds ↔ l.trim = m.trim ∧ Merges table t cs u ds := by
  have halike : Alike table (cons l t) (cons m u) ↔ Alike table t u := by
    constructor
    · rintro ⟨hleaf, hk⟩
      rw [subchains_cons, subchains_cons, List.zip_cons_cons, List.forall_mem_cons] at hk
      exact ⟨hleaf, hk.2⟩
    · rintro ⟨hleaf, hk⟩
      refine ⟨hleaf, ?_⟩
      rw [subchains_cons, subchains_cons, List.zip_cons_cons, List.forall_mem_cons]
      exact ⟨fun h => absurd h (not_or.2 ⟨hl, hm⟩), hk⟩
  have hruns : ∀ {l m : Link} {t u : ArgType} {cs ds : List Char}, .whole (cons l t) ∉ table →
      .whole (cons m u) ∉ table →
        (RunsInto table (cons l t) cs (cons m u) ds ↔ RunsInto table t cs u ds) := by
    intro l m t u cs ds hl hm
    have hparts : (∀ p ∈ (cons l t).subchains ++ (cons m u).subchains, .whole p ∉ table) ↔
        ∀ p ∈ t.subchains ++ u.subchains, .whole p ∉ table := by
      simp [subchains_cons, or_imp, forall_and, hl, hm]
    simp only [RunsInto, leaf_cons, hparts]
  simp only [Merges, links_cons, List.map_cons, List.cons.injEq, halike, hruns hl hm, hruns hm hl,
    and_assoc]

end ArgType

/-- The names of builtins are short, and start with a letter that no text of a type starts with. -/
theorem Builtin.bounds_of_sourceName? {b : Builtin} {name : String}
    (h : Leaf.sourceName? (.builtin b) = some name) :
    name.toList.head? = some 'o' ∧
      ((Radix.ten.digits name.utf8ByteSize).length = 1 ∨
        (Radix.ten.digits name.utf8ByteSize).length = 2 ∧
          (Radix.ten.digits name.utf8ByteSize).head? = some '1') := by
  cases b <;> cases h <;> decide +kernel

/-- A name does not run into the length of a builtin's name, because the builtin's name is none
that could follow. -/
theorem not_runsInto_of_sourceName? {b : Builtin} {name name' : String}
    (hb : Leaf.sourceName? (.builtin b) = some name') {cs ds : List Char}
    (hcs : cs.head? ≠ some 'o') : ¬RunsInto name cs name' ds := by
  rintro ⟨digits, hne, hd, h⟩
  obtain ⟨ho, hlen⟩ := Builtin.bounds_of_sourceName? hb
  obtain ⟨x, xs, hx⟩ := List.exists_cons_of_ne_nil (Radix.ten.digits_ne_nil name.utf8ByteSize)
  have hpos := List.length_pos_iff.2 hne
  -- the length of the builtin's name has two digits, so the name's is a one
  rw [hd, hx, List.length_append, List.length_cons] at hlen
  obtain ⟨hlen, hone⟩ := hlen.resolve_left (by omega)
  obtain rfl : x = '1' := by simpa using hone
  obtain rfl : xs = [] := List.eq_nil_of_length_eq_zero (by omega)
  have hsize : name.utf8ByteSize = 1 := by
    rw [← Radix.value_digits .ten name.utf8ByteSize, hx]
    rfl
  -- and the digit that follows it is all of the name
  have hname : name.toList.length = digits.length := by
    have hshort := length_le_utf8ByteSize name
    have hsome : name.toList ≠ [] := by
      intro hnil
      rw [String.toList_eq_nil_iff.1 hnil] at hsize
      cases hsize
    have := List.length_pos_iff.2 hsome
    rw [← String.length_toList] at hshort
    rw [List.length_nil] at hlen
    omega
  exact hcs (by rw [(List.append_inj h hname).2, List.head?_append, ho]; rfl)

namespace Written

variable {table : List (Component ArgType)} {form form' : Form} {t u : ArgType}
  {as bs cs ds : List Char}

theorem of_idxOf? (hb : NoBuiltin table) {i : Nat} (hi : table.idxOf? (.whole t) = some i)
    (h : Written table form t as) : form = .reference ∧ as = (backReference i).toList := by
  have hm : .whole t ∈ table := List.isSome_idxOf?.1 (by rw [hi]; rfl)
  cases h with
  | reference hj => exact ⟨rfl, by rw [Option.some.inj (hi.symm.trans hj)]⟩
  | @letters b => exact absurd hm (hb b)
  | name _ _ hn => exact absurd hm hn
  | link hn => exact absurd hm hn

end Written

/-- Links in front of texts of types are cut off alike, as far as they are written. -/
theorem Link.code_append_eq_iff {l m : Link} {cs ds : List Char} (hcs : NoAttrs cs)
    (hds : NoAttrs ds) :
    l.code.toList ++ cs = m.code.toList ++ ds ↔ l.trim = m.trim ∧ cs = ds := by
  constructor
  · intro h
    cases l with
    | vector n =>
      cases m with
      | vector k =>
        rw [toList_code_vector, toList_code_vector] at h
        have h : Radix.ten.digits n.toNat ++ '_' :: cs = Radix.ten.digits k.toNat ++ '_' :: ds := by
          simpa using h
        obtain ⟨hd, hrest⟩ := Radix.eq_of_append_eq (r := .ten)
          (fun _ => Radix.isDigit_of_mem_digits) (fun _ => Radix.isDigit_of_mem_digits)
          (Radix.stops_cons.2 rfl) (Radix.stops_cons.2 rfl) h
        rw [UInt32.toNat_inj.1 (Radix.ten.digits_injective hd)]
        exact ⟨rfl, List.tail_eq_of_cons_eq hrest⟩
      | pointer a =>
        rw [toList_code_vector, toList_code_pointer] at h
        cases h
    | pointer a =>
      cases m with
      | vector k =>
        rw [toList_code_vector, toList_code_pointer] at h
        cases h
      | pointer b =>
        rw [toList_code_pointer, toList_code_pointer, ← a.qualifiers.toList_trim,
          ← b.qualifiers.toList_trim] at h
        obtain ⟨hs, hq, hrest⟩ := eq_of_attributes_append_eq (QualifierSet.known_trim _)
          (QualifierSet.known_trim _) hcs hds (by simpa using h)
        have hs := congrArg (Option.getD · default) hs
        rw [AddressSpace.getD_spelled?, AddressSpace.getD_spelled?] at hs
        refine ⟨?_, hrest⟩
        rw [trim, trim, PointerAttrs.trim, PointerAttrs.trim, hs, hq]
  · rintro ⟨hl, rfl⟩
    rw [← code_trim l, hl, code_trim]

/-- Leaves that are written like names are read for each other as their names are. -/
theorem merges_name_iff {table : List (Component ArgType)} {l m : Leaf} {name name' : String}
    (hl : l.sourceName? = some name) (hm : m.sourceName? = some name') (hne : name ≠ "")
    (hne' : name' ≠ "") (hnl : .whole ⟨[], l⟩ ∉ table) (hnm : .whole ⟨[], m⟩ ∉ table)
    {cs ds : List Char} (hcs : cs.head? ≠ some 'o') (hds : ds.head? ≠ some 'o') :
    ArgType.Merges table ⟨[], l⟩ cs ⟨[], m⟩ ds ↔
      name = name' ∧ cs = ds ∨ RunsInto name cs name' ds ∨ RunsInto name' ds name cs := by
  have halike : ArgType.Alike table ⟨[], l⟩ ⟨[], m⟩ ↔ name = name' := by
    rw [← Leaf.eq_or_homonym_iff hl hm]
    refine ⟨ArgType.Alike.leaf, fun h => ⟨h, ?_⟩⟩
    rw [ArgType.subchains_leaf, ArgType.subchains_leaf, List.zip_cons_cons, List.zip_nil_left,
      List.forall_mem_singleton]
    exact fun h => absurd h (not_or.2 ⟨hnl, hnm⟩)
  -- only names of named types run into others, for the names of builtins start with no digit
  have hruns : ∀ {l m : Leaf} {name name' : String} {cs ds : List Char},
      l.sourceName? = some name → m.sourceName? = some name' → name ≠ "" →
        .whole ⟨[], l⟩ ∉ table → .whole ⟨[], m⟩ ∉ table → cs.head? ≠ some 'o' →
          (ArgType.RunsInto table ⟨[], l⟩ cs ⟨[], m⟩ ds ↔ RunsInto name cs name' ds) := by
    intro l m name name' cs ds hl hm hne hnl hnm hcs
    constructor
    · rintro ⟨n, n', rfl, rfl, h, -⟩
      cases hl
      cases hm
      exact h
    · intro h
      cases l with
      | builtin b =>
        exact absurd (h.startsWithDigit hne)
          (Builtin.source_spelling (Leaf.spelling_of_sourceName? hl)).2.1
      | named =>
        cases m with
        | builtin c => exact absurd h (not_runsInto_of_sourceName? hm hcs)
        | named =>
          cases hl
          cases hm
          exact ⟨_, _, rfl, rfl, h, by simp [hnl, hnm]⟩
  rw [ArgType.Merges, halike, hruns hl hm hne hnl hnm hcs, hruns hm hl hne' hnm hnl hds]
  exact and_iff_right rfl

namespace Written

variable {table : List (Component ArgType)} {form form' : Form} {t u : ArgType}
  {as bs cs ds : List Char}

theorem form_eq_of_merges (hb : NoBuiltin table) (ht : Written table form t as)
    (hu : Written table form' u bs) (h : t.Merges table cs u ds) : form = form' := by
  by_cases hm : .whole t ∈ table ∨ .whole u ∈ table
  · obtain ⟨rfl, -⟩ := h.eq_of_mem hm
    obtain ⟨i, hi⟩ := Option.isSome_iff_exists.1 (List.isSome_idxOf?.2 (or_self_iff.1 hm))
    rw [(ht.of_idxOf? hb hi).1, (hu.of_idxOf? hb hi).1]
  · have known : ∀ {t : ArgType} {i : Nat}, table.idxOf? (.whole t) = some i → .whole t ∈ table :=
      fun hi => List.isSome_idxOf?.1 (by rw [hi]; rfl)
    -- what is spelled by letters has no homonym
    have letters : ∀ {b : Builtin} {l : Leaf} {name : String}, (∀ name, b.spelling ≠ .source name) →
        l.sourceName? = some name → .builtin b ≠ l ∧ ¬Leaf.Homonym (.builtin b) l := by
      intro b l name hb hl
      constructor
      · rintro rfl
        exact hb _ (Leaf.spelling_of_sourceName? hl)
      · rintro ⟨hs⟩
        exact hb _ hs
    obtain ⟨hlinks, hcases⟩ := h
    cases ht with
    | reference hi => exact absurd (.inl (known hi)) hm
    | letters hbl =>
      cases hu with
      | reference hi => exact absurd (.inr (known hi)) hm
      | letters => rfl
      | name hl =>
        obtain ⟨hne, hnh⟩ := letters hbl hl
        rcases hcases with ⟨⟨h | h | h, -⟩, -⟩ | ⟨_, _, h, -⟩ | ⟨_, _, -, h, -⟩
        · exact absurd h hne
        · exact absurd h hnh
        all_goals cases h
      | link => cases hlinks
    | name hl =>
      cases hu with
      | reference hi => exact absurd (.inr (known hi)) hm
      | letters hbl =>
        obtain ⟨hne, hnh⟩ := letters hbl hl
        rcases hcases with ⟨⟨h | h | h, -⟩, -⟩ | ⟨_, _, -, h, -⟩ | ⟨_, _, h, -⟩
        · exact absurd h.symm hne
        · cases h
        · exact absurd h hnh
        all_goals cases h
      | name => rfl
      | link => cases hlinks
    | link =>
      cases hu with
      | reference hi => exact absurd (.inr (known hi)) hm
      | letters | name => cases hlinks
      | link => rfl

/-- Two texts, each of which starts with the text of a type, are equal if and only if the types are
read for each other in front of what is left. -/
theorem append_eq_iff (hb : NoBuiltin table) (ht : Written table form t as)
    (hu : Written table form' u bs) (hcs : cs.head? ≠ some 'o') (hds : ds.head? ≠ some 'o') :
    as ++ cs = bs ++ ds ↔ t.Merges table cs u ds := by
  have forms : ∀ {form form' : Form} {t u : ArgType} {as bs : List Char}, Written table form t as →
      Written table form' u bs → form' ≠ form → (as ++ cs = bs ++ ds ↔ t.Merges table cs u ds) :=
    fun ht hu hf => ⟨fun h => absurd (ht.form_eq hu h).symm hf,
      fun h => absurd (ht.form_eq_of_merges hb hu h).symm hf⟩
  induction ht generalizing form' u bs with
  | @reference t i hi =>
    by_cases hf : form' = .reference
    · subst hf
      cases hu with
      | @reference u j hj =>
        constructor
        · intro h
          obtain ⟨rfl, hrest⟩ := eq_of_backReference_append_eq h
          obtain ⟨_, ht, -⟩ := List.idxOf?_eq_some_iff.1 hi
          obtain ⟨_, hu, -⟩ := List.idxOf?_eq_some_iff.1 hj
          obtain rfl : t = u := Component.whole.inj (ht.symm.trans hu)
          exact ⟨rfl, .inl ⟨.refl t, hrest⟩⟩
        · intro h
          obtain ⟨rfl, rfl⟩ := h.eq_of_mem (.inl (List.isSome_idxOf?.1 (by rw [hi]; rfl)))
          rw [Option.some.inj (hi.symm.trans hj)]
    · exact forms (.reference hi) hu hf
  | @letters b hbl =>
    by_cases hf : form' = .letters
    · subst hf
      cases hu with
      | @letters c hcl =>
        constructor
        · intro h
          obtain ⟨rfl, hrest⟩ := TypeTree.eq_of_builtin_append hbl hcl h
          exact ⟨rfl, .inl ⟨.refl _, hrest⟩⟩
        · rintro ⟨-, ⟨⟨h | h | h, -⟩, rfl⟩ | ⟨_, _, h, -⟩ | ⟨_, _, h, -⟩⟩
          · rw [Leaf.builtin.inj h]
          all_goals cases h
    · exact forms (.letters hbl) hu hf
  | @name l name hl hne hn =>
    by_cases hf : form' = .name
    · subst hf
      cases hu with
      | @name m name' hm hne' hn' =>
        rw [merges_name_iff hl hm hne hne' hn hn' hcs hds, sourceName_append_eq_iff]
    · exact forms (.name hl hne hn) hu hf
  | @link l form t as hn ht ih =>
    by_cases hf : form' = .link
    · subst hf
      cases hu with
      | @link m form' u bs hn' hu =>
        obtain ⟨_, hr, -⟩ := ht.exists_lead? cs
        obtain ⟨_, hr', -⟩ := hu.exists_lead? ds
        rw [List.append_assoc, List.append_assoc, Link.code_append_eq_iff
          (TypeTree.noAttrs_of_lead? hr) (TypeTree.noAttrs_of_lead? hr'),
          ArgType.merges_cons_iff hn hn']
        exact and_congr_right fun _ => ih hu
    · exact forms (.link hn ht) hu hf

end Written

/-! ### Parameter lists -/

/-- Two lists are equal, or one of them goes on where the other ends, or there is a first
difference. -/
theorem eq_or_first_difference {α : Type} (ts us : List α) :
    ts = us ∨ (∃ x xs, us = ts ++ x :: xs) ∨ (∃ x xs, ts = us ++ x :: xs) ∨
      ∃ ws vs xs t u, ts = ws ++ t :: vs ∧ us = ws ++ u :: xs ∧ t ≠ u := by
  induction ts generalizing us with
  | nil =>
    cases us with
    | nil => exact .inl rfl
    | cons u us => exact .inr (.inl ⟨u, us, rfl⟩)
  | cons t ts ih =>
    cases us with
    | nil => exact .inr (.inr (.inl ⟨t, ts, rfl⟩))
    | cons u us =>
      by_cases h : t = u
      · subst h
        rcases ih us with rfl | ⟨x, xs, rfl⟩ | ⟨x, xs, rfl⟩ | ⟨ws, vs, xs, x, y, rfl, rfl, hne⟩
        · exact .inl rfl
        · exact .inr (.inl ⟨x, xs, rfl⟩)
        · exact .inr (.inr (.inl ⟨x, xs, rfl⟩))
        · exact .inr (.inr (.inr ⟨t :: ws, vs, xs, x, y, rfl, rfl, hne⟩))
      · exact .inr (.inr (.inr ⟨[], ts, us, t, u, rfl, rfl, h⟩))

namespace Transcript

/-- The text that is written for some types after other ones. -/
def textAfter (ws vs : List ArgType) : String := (vs.foldl type ⟨"", (run "" ws).table⟩).text

/-- Lists of types that differ for the first time where a type of one is read for that of the other,
in front of what is written after it. -/
def Collide (ts us : List ArgType) : Prop :=
  ∃ (ws vs xs : List ArgType) (t u : ArgType), ts = ws ++ t :: vs ∧ us = ws ++ u :: xs ∧ t ≠ u ∧
    t.Merges (run "" ws).table (textAfter (ws ++ [t]) vs).toList u
      (textAfter (ws ++ [u]) xs).toList

theorem foldl_behind (front : String) (s : Transcript) (ts : List ArgType) :
    ts.foldl type (s.behind front) = (ts.foldl type s).behind front := by
  induction ts generalizing s with
  | nil => rfl
  | cons t ts ih => rw [List.foldl_cons, List.foldl_cons, type_behind, ih]

/-- The components do not depend on the text in front. -/
theorem table_run (text : String) (ts : List ArgType) :
    (run text ts).table = (run "" ts).table := by
  have h := foldl_behind text (start "") ts
  rw [show (start "").behind text = start text by simp [behind, start]] at h
  rw [run, h]
  rfl

/-- What is written after some types is behind what is written for them. -/
theorem text_run_append (text : String) (ws vs : List ArgType) :
    (run text (ws ++ vs)).text = (run text ws).text ++ textAfter ws vs := by
  have h := foldl_behind (run text ws).text ⟨"", (run "" ws).table⟩ vs
  rw [show behind (run text ws).text ⟨"", (run "" ws).table⟩ = run text ws by
    rw [behind, String.append_empty, ← table_run text]] at h
  have happend : run text (ws ++ vs) = vs.foldl type (run text ws) := List.foldl_append
  rw [happend, h]
  rfl

theorem textAfter_cons (ws : List ArgType) (t : ArgType) (vs : List ArgType) :
    textAfter ws (t :: vs) = textAfter ws [t] ++ textAfter (ws ++ [t]) vs := by
  have h := text_run_append "" (ws ++ [t]) vs
  rw [List.append_assoc, List.singleton_append, text_run_append, text_run_append,
    String.append_assoc] at h
  exact (String.append_right_inj _).1 h

/-- What is written for one type after other ones. -/
theorem exists_textAfter (ws : List ArgType) {t : ArgType} (hw : t.WellFormed) : ∃ form as,
    textAfter ws [t] = String.ofList as ∧ Written (run "" ws).table form t as := by
  obtain ⟨form, as, has, hwr⟩ := exists_written (s := ⟨"", (run "" ws).table⟩)
    (noBuiltin_foldl (fun _ => List.not_mem_nil) ws) hw
  exact ⟨form, as, has.trans String.empty_append, hwr⟩

/-- What is written after some types starts like a type, unless there are no more. -/
theorem head?_textAfter (ws : List ArgType) {vs : List ArgType} (hw : ∀ t ∈ vs, t.WellFormed) :
    (textAfter ws vs).toList.head? ≠ some 'o' ∧ (textAfter ws vs = "" → vs = []) := by
  cases vs with
  | nil => exact ⟨nofun, fun _ => rfl⟩
  | cons t vs =>
    obtain ⟨form, as, has, hwr⟩ := exists_textAfter ws (hw t List.mem_cons_self)
    obtain ⟨c, tail, rfl, ho, -⟩ := hwr.exists_head
    rw [textAfter_cons, has]
    refine ⟨by simpa using ho, fun h => ?_⟩
    rw [← String.toList_inj] at h
    simp at h

/-- Lists of types have one text, where they differ for the first time, if and only if the types
there are read for each other. -/
theorem text_run_eq_iff_merges (text : String) {ws vs xs : List ArgType} {t u : ArgType}
    (ht : ∀ x ∈ ws ++ t :: vs, x.WellFormed) (hu : ∀ x ∈ ws ++ u :: xs, x.WellFormed) :
    (run text (ws ++ t :: vs)).text = (run text (ws ++ u :: xs)).text ↔
      t.Merges (run "" ws).table (textAfter (ws ++ [t]) vs).toList u
        (textAfter (ws ++ [u]) xs).toList := by
  obtain ⟨ht, hvs⟩ := List.forall_mem_cons.1 (List.forall_mem_append.1 ht).2
  obtain ⟨hu, hxs⟩ := List.forall_mem_cons.1 (List.forall_mem_append.1 hu).2
  obtain ⟨form, as, has, hwt⟩ := exists_textAfter ws ht
  obtain ⟨form', bs, hbs, hwu⟩ := exists_textAfter ws hu
  have hb : NoBuiltin (run "" ws).table := noBuiltin_foldl (fun _ => List.not_mem_nil) ws
  rw [text_run_append, text_run_append, String.append_right_inj, textAfter_cons,
    textAfter_cons ws u, has, hbs, ← String.toList_inj, String.toList_append,
    String.toList_append, String.toList_ofList, String.toList_ofList]
  exact hwt.append_eq_iff hb hwu (head?_textAfter _ hvs).1 (head?_textAfter _ hxs).1

/-- Two lists of types have one text if and only if they are equal or collide. -/
theorem text_run_eq_iff (text : String) {ts us : List ArgType} (ht : ∀ t ∈ ts, t.WellFormed)
    (hu : ∀ u ∈ us, u.WellFormed) :
    (run text ts).text = (run text us).text ↔ ts = us ∨ Collide ts us := by
  -- a list that goes on has a longer text
  have longer : ∀ {ts : List ArgType} {x : ArgType} {xs : List ArgType},
      (∀ t ∈ ts ++ x :: xs, t.WellFormed) →
        (run text (ts ++ x :: xs)).text ≠ (run text ts).text := by
    intro ts x xs hw h
    rw [text_run_append, String.append_eq_left_iff] at h
    cases (head?_textAfter ts (List.forall_mem_append.1 hw).2).2 h
  constructor
  · intro h
    rcases eq_or_first_difference ts us with rfl | ⟨x, xs, rfl⟩ | ⟨x, xs, rfl⟩ |
      ⟨ws, vs, xs, t, u, rfl, rfl, hne⟩
    · exact .inl rfl
    · exact absurd h.symm (longer hu)
    · exact absurd h (longer ht)
    · exact .inr ⟨ws, vs, xs, t, u, rfl, rfl, hne, (text_run_eq_iff_merges text ht hu).1 h⟩
  · rintro (rfl | ⟨ws, vs, xs, t, u, rfl, rfl, -, h⟩)
    · rfl
    · exact (text_run_eq_iff_merges text ht hu).2 h

theorem signature_eq_run {name : String} {ts : List ArgType} (h : ts ≠ []) :
    signature ⟨name, ts⟩ = run ("_Z" ++ sourceName name) ts := signature_of_ne_nil h

/-- No parameters have the symbol of a single `void`, and of nothing else. -/
theorem text_signature_nil_iff {name : String} {us : List ArgType} (hne : us ≠ [])
    (hw : ∀ u ∈ us, u.WellFormed) :
    (signature ⟨name, us⟩).text = (signature ⟨name, []⟩).text ↔ us = [.builtin .void] := by
  constructor
  · intro h
    obtain ⟨u, us, rfl⟩ := List.exists_cons_of_ne_nil hne
    obtain ⟨hu, hus⟩ := List.forall_mem_cons.1 hw
    have hrun := text_run_append ("_Z" ++ sourceName name) [] (u :: us)
    obtain ⟨form, as, has, hwr⟩ := exists_textAfter [] hu
    obtain ⟨c, tail, rfl, -, hv⟩ := hwr.exists_head
    rw [List.nil_append, textAfter_cons, has, ← signature_eq_run hne, h, signature_nil, text_write,
      show (run ("_Z" ++ sourceName name) []).text = "_Z" ++ sourceName name from rfl,
      show (start ("_Z" ++ sourceName name)).text = "_Z" ++ sourceName name from rfl,
      String.append_right_inj, ← String.toList_inj] at hrun
    obtain ⟨rfl, hrest⟩ : 'v' = c ∧ [] = tail ++ (textAfter ([] ++ [u]) us).toList := by
      simpa using hrun
    obtain ⟨rfl, rfl⟩ := hv rfl
    rw [List.nil_append, eq_comm, String.toList_eq_nil_iff] at hrest
    rw [(head?_textAfter _ hus).2 hrest]
  · rintro rfl
    rfl

/-- Two lists of types have one symbol if and only if they are equal or collide, or are the empty
list and a single `void`. -/
theorem text_signature_eq_iff (name : String) {ts us : List ArgType} (ht : ∀ t ∈ ts, t.WellFormed)
    (hu : ∀ u ∈ us, u.WellFormed) :
    (signature ⟨name, ts⟩).text = (signature ⟨name, us⟩).text ↔
      ts = us ∨ ts = [] ∧ us = [.builtin .void] ∨ ts = [.builtin .void] ∧ us = [] ∨
        Collide ts us := by
  have hnil : ∀ us, ¬Collide [] us ∧ ¬Collide us [] := fun us =>
    ⟨fun ⟨ws, vs, xs, t, u, h, _⟩ => by simp at h, fun ⟨ws, vs, xs, t, u, _, h, _⟩ => by simp at h⟩
  by_cases hts : ts = []
  · subst hts
    by_cases hus : us = []
    · simp [hus]
    · rw [eq_comm, text_signature_nil_iff hus hu]
      simp [hnil, Ne.symm hus]
  · by_cases hus : us = []
    · subst hus
      rw [text_signature_nil_iff hts ht]
      simp [hnil, hts]
    · rw [signature_eq_run hts, signature_eq_run hus, text_run_eq_iff _ ht hu]
      simp [hts, hus]

end Transcript

namespace Session

variable {s : Session}

/-- When two overloads have one symbol. Functions of one name have a symbol each, and it is the same
if and only if their parameters are equal one by one, or are none and a single `void`, or collide.
Then the types at the first difference have links that differ at most in bits which are not written,
and there are two ways to collide. Either the leaves are equal or homonyms, no part of one type is
known to the encoder unless the other type has it at the same place, and the same text is written
after both. Or nothing of the types is known, both are built on named types, and one name runs into
the length of the other: the digits by which that is longer, the other name and what is written
after it are the first name and what is written after that. -/
theorem Reachable.encode_eq_encode_iff (hs : s.Reachable) {f g : Signature Handle}
    (hf : ∀ h ∈ f.params, h ∈ s.handles) (hg : ∀ h ∈ g.params, h ∈ s.handles) (hne : f.name ≠ "")
    (hname : f.name = g.name) :
    ∃ a b, encode f = .ok a ∧ encode g = .ok b ∧
      (a = b ↔ f.params.isEqv g.params Handle.equals = true ∨
        f.params.map Handle.type = [] ∧ g.params.map Handle.type = [.builtin .void] ∨
        f.params.map Handle.type = [.builtin .void] ∧ g.params.map Handle.type = [] ∨
        Transcript.Collide (f.params.map Handle.type) (g.params.map Handle.type)) := by
  have hsv := hs.valid
  have symbol : ∀ {f : Signature Handle}, f.name ≠ "" → (∀ h ∈ f.params, h ∈ s.handles) →
      encode f = .ok (Transcript.signature ⟨f.name, f.params.map Handle.type⟩).text := fun hne hm =>
    encode_eq_transcript hne fun h hh => hsv.foreign (hm h hh)
  have wellFormed : ∀ {hs : List Handle}, (∀ h ∈ hs, h ∈ s.handles) →
      ∀ t ∈ hs.map Handle.type, t.WellFormed := fun hm =>
    List.forall_mem_map.2 fun h hh => hsv.wellFormed h (hm h hh)
  refine ⟨_, _, symbol hne hf, symbol (hname ▸ hne) hg, ?_⟩
  rw [← hname, hsv.isEqv_iff hf hg]
  exact Transcript.text_signature_eq_iff f.name (wellFormed hf) (wellFormed hg)

/-- An event and a type with its name; a name of one digit in front of a pointer, and a type with
the name that the pointer is spelled as. -/
def lookalikes : Session :=
  start.after [.outside ⟨.builtin 20, []⟩, .outside ⟨.named "ocl_event", []⟩,
    .outside ⟨.named "0", []⟩, .outside ⟨.builtin 6, [.pointers 1 [0, 1, 2] 1]⟩,
    .outside ⟨.named "PU3AS1rVKi", []⟩]

/-- An event and a type with its name have one symbol on their own, and different ones twice: the
second time, the type is a component, and the event is none. -/
theorem encode_eq_encode_iff_lookalikes : ∃ a b : Handle,
    lookalikes.handles[0]? = some a ∧ lookalikes.handles[1]? = some b ∧
      (∃ text, encode ⟨"f", [a]⟩ = .ok text ∧ encode ⟨"f", [b]⟩ = .ok text) ∧
      ∃ text text', encode ⟨"f", [a, a]⟩ = .ok text ∧ encode ⟨"f", [b, b]⟩ = .ok text' ∧
        text ≠ text' := by
  have hs : lookalikes.Reachable := ⟨_, rfl⟩
  obtain ⟨a, ha⟩ : ∃ a, lookalikes.handles[0]? = some a := ⟨_, rfl⟩
  obtain ⟨b, hb⟩ : ∃ b, lookalikes.handles[1]? = some b := ⟨_, rfl⟩
  have hat : a.type = ⟨[], .builtin .event⟩ := by cases ha; rfl
  have hbt : b.type = ⟨[], .named "ocl_event"⟩ := by cases hb; rfl
  have hne : "f" ≠ "" := by decide
  have hma : ∀ h ∈ [a, a], h ∈ lookalikes.handles := by simp [Array.mem_of_getElem? ha]
  have hmb : ∀ h ∈ [b, b], h ∈ lookalikes.handles := by simp [Array.mem_of_getElem? hb]
  refine ⟨a, b, ha, hb, ?_, ?_⟩
  · obtain ⟨x, y, hx, hy, hxy⟩ := hs.encode_eq_encode_iff (f := ⟨"f", [a]⟩) (g := ⟨"f", [b]⟩)
      (fun h hh => hma h (List.mem_cons_of_mem _ hh))
      (fun h hh => hmb h (List.mem_cons_of_mem _ hh)) hne rfl
    obtain rfl : x = y := by
      refine hxy.2 (.inr (.inr (.inr ⟨[], [], [], a.type, b.type, rfl, rfl, ?_, ?_⟩)))
      · rw [hat, hbt]
        decide
      · rw [hat, hbt]
        exact ⟨rfl, .inl ⟨⟨.inr (.inl (.mk rfl)), by simp [Transcript.run, Transcript.start]⟩, rfl⟩⟩
    exact ⟨x, hx, hy⟩
  · obtain ⟨x, y, hx, hy, hxy⟩ := hs.encode_eq_encode_iff (f := ⟨"f", [a, a]⟩)
      (g := ⟨"f", [b, b]⟩) hma hmb hne rfl
    refine ⟨x, y, hx, hy, fun h => ?_⟩
    rcases hxy.1 h with he | ⟨he, -⟩ | ⟨-, he⟩ | ⟨ws, vs, xs, t, u, ht, hu, hne, hmerge⟩
    · cases ha
      cases hb
      cases he
    · cases he
    · cases he
    · rw [List.map_cons, List.map_cons, List.map_nil, hat] at ht
      rw [List.map_cons, List.map_cons, List.map_nil, hbt] at hu
      cases ws with
      | cons w ws =>
        obtain rfl := (List.cons.inj ht).1
        cases (List.cons.inj hu).1
      | nil =>
        obtain ⟨rfl, rfl⟩ := List.cons.inj ht
        obtain ⟨rfl, rfl⟩ := List.cons.inj hu
        obtain ⟨-, ⟨-, he⟩ | ⟨_, _, he, -⟩ | ⟨_, _, -, he, -⟩⟩ := hmerge
        · revert he
          decide +kernel
        · cases he
        · cases he

/-- Overloads with lookalikes may have one symbol. -/
theorem encode_eq_lookalikes : ∃ (s : Session) (a b c d e : Handle), s.Reachable ∧
    (∀ h ∈ [a, b, c, d, e], h ∈ s.handles) ∧
      [a].isEqv [b] Handle.equals = false ∧
      encode ⟨"f", [a]⟩ = .ok "_Z1f9ocl_event" ∧ encode ⟨"f", [b]⟩ = .ok "_Z1f9ocl_event" ∧
      [c, d].isEqv [e] Handle.equals = false ∧
      encode ⟨"f", [c, d]⟩ = .ok "_Z1f10PU3AS1rVKi" ∧
      encode ⟨"f", [e]⟩ = .ok "_Z1f10PU3AS1rVKi" := by
  have hs : lookalikes.Reachable := ⟨_, rfl⟩
  obtain ⟨a, ha⟩ : ∃ a, lookalikes.handles[0]? = some a := ⟨_, rfl⟩
  obtain ⟨b, hb⟩ : ∃ b, lookalikes.handles[1]? = some b := ⟨_, rfl⟩
  obtain ⟨c, hc⟩ : ∃ c, lookalikes.handles[2]? = some c := ⟨_, rfl⟩
  obtain ⟨d, hd⟩ : ∃ d, lookalikes.handles[3]? = some d := ⟨_, rfl⟩
  obtain ⟨e, he⟩ : ∃ e, lookalikes.handles[4]? = some e := ⟨_, rfl⟩
  have hm : ∀ h ∈ [a, b, c, d, e], h ∈ lookalikes.handles := by
    simp [Array.mem_of_getElem? ha, Array.mem_of_getElem? hb, Array.mem_of_getElem? hc,
      Array.mem_of_getElem? hd, Array.mem_of_getElem? he]
  have symbol : ∀ {hs : List Handle} {text : String}, (∀ h ∈ hs, h ∈ [a, b, c, d, e]) →
      (Transcript.signature ⟨"f", hs.map Handle.type⟩).text = text →
        encode ⟨"f", hs⟩ = .ok text := by
    rintro hs' text hsub rfl
    exact encode_eq_transcript (show "f" ≠ "" by decide) fun h hh =>
      hs.valid.foreign (hm h (hsub h hh))
  refine ⟨lookalikes, a, b, c, d, e, hs, hm, ?_, symbol (by simp) ?_, symbol (by simp) ?_, ?_,
    symbol (by simp) ?_, symbol (by simp) ?_⟩ <;>
    cases ha <;> cases hb <;> cases hc <;> cases hd <;> cases he <;>
    decide +kernel

end Session

end KernelSymbol
