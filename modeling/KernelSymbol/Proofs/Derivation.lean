import KernelSymbol.Proofs.Components
import KernelSymbol.Proofs.Spelling

/-!
# What a derivation says about its text and its type

Facts about the grammar alone, by induction on derivations: which characters the text of a type
can start with, that strict spellings are lenient ones, how the table grows, and which types can
be spelled at all. A type that has a spelling is well formed, and its name, if it has one, is told
from its length and from the builtins.

## Main definitions

* `StartsWithDigit` — a name that runs on from its length
* `ArgType.Legible` — a type whose name can be read back
* `ArgType.NameBelow` — a bound on the bytes of that name
* `Component.owner` — the type that a component was recorded for
* `opaqueNames` — the names that are taken by builtins

## Main results

* `TypeText.lenient`, `TypesText.lenient` — a strict spelling is a lenient one
* `TypeText.of_all`, `TypesText.of_all` — what all builtins and names that can be spelled have,
  and vectors and pointers with qualifiers alone pass on, every type that is spelled has
* `TypeText.length_table`, `TypesText.length_table` — a text has a character for each component
* `TypeText.components_subset`, `TypesText.components_subset` — the table holds the components of
  every type that was spelled
-/

namespace KernelSymbol

/-! ### Names -/

/-- A name that starts with a digit runs on from the digits of its length. -/
def StartsWithDigit (name : String) : Prop := ∃ c ∈ name.toList.head?, c.isDigit = true

instance (name : String) : Decidable (StartsWithDigit name) :=
  decidable_of_iff (name.toList.head?.any Char.isDigit = true) (Option.any_eq_true ..)

/-- A type whose name, if it has one, is told from its length and from every builtin. -/
structure ArgType.Legible (t : ArgType) : Prop where
  /-- The name does not run on from its length. -/
  not_digit : ∀ {name : String}, t.leaf = .named name → ¬StartsWithDigit name
  /-- The name is not how a builtin is spelled. -/
  not_builtin : ∀ {name : String}, t.leaf = .named name → ∀ b : Builtin, b.spelling ≠ .source name

/-- A type whose name, if it has one, has fewer bytes than a bound. -/
def ArgType.NameBelow (bound : Nat) (t : ArgType) : Prop :=
  ∀ name, t.leaf = .named name → name.utf8ByteSize < bound

/-- A name that does not start with a digit is spelled by its length and itself. -/
theorem nameText_sourceName {name : String} (hne : name ≠ "") (hd : ¬StartsWithDigit name)
    (hb : name.utf8ByteSize < numberBound) :
    NameText .strict name (sourceName name).toList := by
  obtain ⟨c, tail, hname⟩ : ∃ c tail, name.toList = c :: tail :=
    List.exists_cons_of_ne_nil fun h => hne (String.toList_eq_nil_iff.1 h)
  refine ⟨c, tail, Radix.ten.digits name.utf8ByteSize, hname, ?_, ⟨hb, rfl⟩, ?_⟩
  · rw [← Bool.not_eq_true]
    exact fun hc => hd ⟨c, by simp [hname], hc⟩
  · simp [sourceName, Radix.text, hname]

theorem NameText.not_startsWithDigit {style : Style} {name : String} {cs : List Char}
    (h : NameText style name cs) : ¬StartsWithDigit name := by
  obtain ⟨c, tail, digits, hname, hc, -, -⟩ := h
  rintro ⟨d, hd, hdigit⟩
  obtain rfl : c = d := by simpa [hname] using hd
  exact absurd hdigit (by simp [hc])

theorem NameText.ne_empty {style : Style} {name : String} {cs : List Char}
    (h : NameText style name cs) : name ≠ "" := by
  obtain ⟨c, tail, digits, hname, -, -, -⟩ := h
  rintro rfl
  cases hname

theorem NameText.size_lt {style : Style} {name : String} {cs : List Char}
    (h : NameText style name cs) : name.utf8ByteSize < numberBound := by
  obtain ⟨c, tail, digits, -, -, hn, -⟩ := h
  exact hn.1

theorem NameText.lenient {style : Style} {name : String} {cs : List Char}
    (h : NameText style name cs) : NameText .lenient name cs := by
  obtain ⟨c, tail, digits, hname, hc, hn, rfl⟩ := h
  exact ⟨c, tail, digits, hname, hc, hn.lenient, rfl⟩

theorem NameText.head {style : Style} {name : String} {cs : List Char}
    (h : NameText style name cs) : ∃ c tail, cs = c :: tail ∧ c.isDigit = true := by
  obtain ⟨-, -, digits, -, -, hn, rfl⟩ := h
  obtain ⟨c, tail, rfl, hc⟩ := hn.head
  exact ⟨c, _, rfl, hc⟩

/-! ### References and attributes -/

theorem ReferenceText.lenient {style : Style} {i : Nat} {cs : List Char}
    (h : ReferenceText style i cs) : ReferenceText .lenient i cs := by
  cases h with
  | first => exact .first
  | later h hc => exact .later h.lenient hc

/-- A place of the table that is not too large has a spelling. -/
theorem referenceText_backReference {i : Nat} (h : i ≤ numberBound) :
    ReferenceText .strict i (backReference i).toList := by
  cases i with
  | zero => exact .first
  | succ n =>
    have ht : (backReference (n + 1)).toList = ['S'] ++ Radix.thirtySix.digits n ++ ['_'] := by
      simp [backReference, Radix.text]
    rw [ht]
    exact .later ⟨h, rfl⟩ (counted_digits h)

theorem ReferenceText.head {style : Style} {i : Nat} {cs : List Char}
    (h : ReferenceText style i cs) : ∃ tail, cs = 'S' :: tail ∧ tail ≠ [] := by
  cases h with
  | first => exact ⟨_, rfl, nofun⟩
  | later h hc => exact ⟨_, rfl, by simp⟩

theorem AttrsText.lenient {style : Style} {a : PointerAttrs} {spelled : Bool} {cs : List Char}
    (h : AttrsText style a spelled cs) : AttrsText .lenient a spelled cs := by
  obtain ⟨hs, hq⟩ := h
  cases hs with
  | silent => exact .mk .silent hq
  | spelled s hs =>
    have hl : SpaceText .lenient (some s) (['U', '3', 'A', 'S'] ++ Radix.ten.digits s.number) :=
      .spelled s nofun
    exact .mk hl hq

/-- Attributes that say nothing are plain and have no text. -/
theorem AttrsText.of_not_spelled {style : Style} {a : PointerAttrs} {cs : List Char}
    (h : AttrsText style a false cs) : a = .plain ∧ cs = [] := by
  generalize hf : false = spelled at h
  obtain @⟨_, _, hs, qs, -⟩ := h
  cases hs with
  | silent =>
    obtain rfl : qs = .empty := by simpa using hf.symm
    exact ⟨rfl, rfl⟩
  | spelled s hs => cases hf

theorem AttrsText.length_pos {style : Style} {a : PointerAttrs} {cs : List Char}
    (h : AttrsText style a true cs) : 0 < cs.length := by
  generalize hf : true = spelled at h
  obtain @⟨_, _, hs, qs, hq⟩ := h
  cases hs with
  | silent =>
    -- a set of qualifiers alone that is not empty has a member
    have hne : qs.toList ≠ [] := fun hnil => by
      obtain rfl : qs = .empty := hq.eq_of_toList_eq QualifierSet.known_empty hnil
      cases hf
    simpa [List.length_pos_iff] using hne
  | spelled s hs => simp

theorem AttrsText.head {style : Style} {a : PointerAttrs} {spelled : Bool} {cs : List Char}
    (h : AttrsText style a spelled cs) : 'S' ∉ cs.head? := by
  obtain @⟨_, _, hs, qs, -⟩ := h
  cases hs with
  | silent =>
    rw [List.nil_append, QualifierSet.map_letter_toList, List.append_assoc,
      ← List.append_nil (Qualifier.flagText .const qs.const)]
    exact Qualifier.head?_flagText_append _ _ (by decide)
      (Qualifier.head?_flagText_append _ _ (by decide)
        (Qualifier.head?_flagText_append _ _ (by decide) (by simp)))
  | spelled s hs => simp

/-- Where attributes say nothing, the text behind them must not start with an `S` either. -/
theorem AttrsText.head_append {style : Style} {a : PointerAttrs} {spelled : Bool}
    {cs tail : List Char} (h : AttrsText style a spelled cs)
    (ht : spelled = false → 'S' ∉ tail.head?) : 'S' ∉ (cs ++ tail).head? := by
  cases spelled with
  | false =>
    obtain ⟨-, rfl⟩ := h.of_not_spelled
    exact ht rfl
  | true =>
    have hS := h.head
    obtain ⟨c, cs, rfl⟩ := List.exists_cons_of_length_pos h.length_pos
    exact hS

/-- The attributes that are spelled are qualifiers and an address space. -/
theorem AttrsText.known {style : Style} {a : PointerAttrs} {spelled : Bool} {cs : List Char}
    (h : AttrsText style a spelled cs) : a.qualifiers.Known := by
  obtain ⟨-, hq⟩ := h
  exact hq

/-- What a pointer says after its `P` is the strict spelling of its attributes, if they can be
spelled. -/
theorem attrsText_code {a : PointerAttrs} (hk : a.qualifiers.Known) :
    AttrsText .strict a (!a.isPlain) a.code.toList := by
  obtain ⟨s, qs⟩ := a
  have hq : (PointerAttrs.code ⟨s, qs⟩).toList
      = s.code.toList ++ qs.toList.map Qualifier.letter := by
    simp [PointerAttrs.code, QualifierSet.code]
  rw [hq]
  by_cases hs : s = .privateSpace
  · subst hs
    exact .mk .silent hk
  · have hd : s.isDefault = false := by
      rw [← Bool.not_eq_true, AddressSpace.isDefault_iff]
      exact hs
    have hc : s.code.toList = ['U', '3', 'A', 'S'] ++ Radix.ten.digits s.number := by
      simp [AddressSpace.code, hd, Radix.text]
    have hp : (!PointerAttrs.isPlain ⟨s, qs⟩) = ((some s).isSome || !qs.isEmpty) := by
      simp [PointerAttrs.isPlain, hd]
    rw [hc, hp]
    exact .mk (.spelled s fun _ => hs) hk

/-! ### How the text of a type starts -/

/-- A builtin's letter starts nothing else. -/
theorem Builtin.letter_spelling {b : Builtin} {c : Char} (h : b.spelling = .letter c) :
    c ∉ ['S', 'D', 'P', 'U', 'r', 'V', 'K'] ∧ c.isDigit = false := by
  cases b <;> cases h <;> decide

/-- The letter of a builtin behind `D` is not that of a vector. -/
theorem Builtin.extended_spelling {b : Builtin} {c : Char} (h : b.spelling = .extended c) :
    c ≠ 'v' := by
  cases b <;> cases h
  decide

/-- The builtins that are spelled like names have names that can be read back. -/
theorem Builtin.source_spelling {b : Builtin} {name : String} (h : b.spelling = .source name) :
    name ≠ "" ∧ ¬StartsWithDigit name ∧ name.utf8ByteSize < numberBound := by
  cases b <;> cases h <;> decide

theorem Builtin.ofSpelling?_eq_none_iff {s : Spelling} :
    ofSpelling? s = none ↔ ∀ b : Builtin, b.spelling ≠ s := by
  rw [Option.eq_none_iff_forall_ne_some]
  exact forall_congr' fun b => not_congr ofSpelling?_eq_some_iff

/-- The names that are taken by builtins. -/
def opaqueNames : List String :=
  ["ocl_image1d", "ocl_image2d", "ocl_image3d", "ocl_image1dbuffer", "ocl_image1darray",
    "ocl_image2darray", "ocl_event", "ocl_sampler"]

/-- A name is that of no builtin if it is not one of the names that are taken. -/
theorem Builtin.spelling_ne_source_iff {name : String} :
    (∀ b : Builtin, b.spelling ≠ .source name) ↔ name ∉ opaqueNames := by
  constructor
  · intro h hm
    simp only [opaqueNames, List.mem_cons, List.not_mem_nil, or_false] at hm
    rcases hm with rfl | rfl | rfl | rfl | rfl | rfl | rfl | rfl
    · exact h .image1d rfl
    · exact h .image2d rfl
    · exact h .image3d rfl
    · exact h .image1dBuffer rfl
    · exact h .image1dArray rfl
    · exact h .image2dArray rfl
    · exact h .event rfl
    · exact h .sampler rfl
  · intro h b hb
    refine h ?_
    cases b <;> cases hb <;> simp [opaqueNames]

section

variable {style : Style} {table table' : List (Component ArgType)} {cs : List Char} {t : ArgType}
  {ts : List ArgType}

/-- The text of a type is not empty, and cannot be taken for attributes of a pointer. -/
theorem TypeText.head (h : TypeText style table cs t table') :
    ∃ c tail, cs = c :: tail ∧ c ∉ ['U', 'r', 'V', 'K'] := by
  have digit : ∀ {c : Char}, c.isDigit = true → c ∉ ['U', 'r', 'V', 'K'] := by
    rintro c hc hm
    rcases List.mem_cons.1 hm with rfl | hm
    · exact absurd hc (by decide)
    · rcases List.mem_cons.1 hm with rfl | hm
      · exact absurd hc (by decide)
      · rcases List.mem_cons.1 hm with rfl | hm
        · exact absurd hc (by decide)
        · obtain rfl := List.mem_singleton.1 hm
          exact absurd hc (by decide)
  cases h with
  | letter hb => exact ⟨_, [], rfl, fun hm => (Builtin.letter_spelling hb).1 (by simp_all)⟩
  | extended hb => exact ⟨'D', _, rfl, by decide⟩
  | source hb hn =>
    obtain ⟨c, tail, rfl, hc⟩ := hn.head
    exact ⟨c, tail, rfl, digit hc⟩
  | named hb hn =>
    obtain ⟨c, tail, rfl, hc⟩ := hn.head
    exact ⟨c, tail, rfl, digit hc⟩
  | reference hi hr =>
    obtain ⟨tail, rfl, -⟩ := hr.head
    exact ⟨'S', tail, rfl, by decide⟩
  | vector hn hs hd ht => exact ⟨'D', _, rfl, by decide⟩
  | pointerTo hi hr => exact ⟨'P', _, rfl, by decide⟩
  | pointerToQualified hi hr => exact ⟨'P', _, rfl, by decide⟩
  | pointer ha hs ht => exact ⟨'P', _, rfl, by decide⟩

/-- A text that starts like a reference is one. -/
theorem TypeText.reference_of_head (h : TypeText style table cs t table')
    (hS : cs.head? = some 'S') :
    ∃ i, table[i]? = some (.whole t) ∧ ReferenceText style i cs ∧ table' = table := by
  cases h with
  | letter hb =>
    obtain rfl := Option.some.inj hS
    exact absurd (by simp) (Builtin.letter_spelling hb).1
  | source hb hn | named hb hn =>
    obtain ⟨c, tail, rfl, hc⟩ := hn.head
    obtain rfl := Option.some.inj hS
    exact absurd hc (by decide)
  | reference hi hr => exact ⟨_, hi, hr, rfl⟩
  | extended | vector | pointerTo | pointerToQualified | pointer => cases hS

theorem TypesText.eq_nil (h : TypesText style table [] ts table') : ts = [] := by
  generalize hcs : ([] : List Char) = cs at h
  cases h with
  | nil => rfl
  | cons h hs =>
    obtain ⟨c, tail, rfl, -⟩ := h.head
    cases hcs

/-- The text `v` on its own stands for the pseudo type `void`. -/
theorem TypeText.eq_void (h : TypeText style table ['v'] t table') : t = .builtin .void := by
  generalize hcs : ['v'] = cs at h
  cases h with
  | @letter b c hb =>
    cases hcs
    cases b <;> cases hb
    rfl
  | source hb hn | named hb hn =>
    obtain ⟨c, tail, rfl, hc⟩ := hn.head
    cases hcs
    cases hc
  | reference hi hr =>
    obtain ⟨tail, rfl, -⟩ := hr.head
    cases hcs
  | extended | vector | pointerTo | pointerToQualified | pointer => cases hcs

/-- The pseudo type `void` on its own is only spelled as `v`. -/
theorem TypeText.eq_v (h : TypeText style [] cs (.builtin .void) table') : cs = ['v'] := by
  generalize ht : ArgType.builtin .void = t at h
  cases h with
  | letter hb =>
    cases ht
    cases hb
    rfl
  | extended hb | source hb =>
    cases ht
    cases hb
  | reference hi => cases hi
  | named | vector | pointerTo | pointerToQualified | pointer => cases ht

/-- A single `void` has the text that stands for no parameters, and nothing else has. -/
theorem TypesText.eq_v_iff (h : TypesText style [] cs ts table') :
    cs = ['v'] ↔ ts = [.builtin .void] := by
  constructor
  · rintro rfl
    generalize hcs : ['v'] = cs at h
    cases h with
    | nil => cases hcs
    | cons h hs =>
      obtain ⟨c, tail, rfl, -⟩ := h.head
      obtain ⟨rfl, rfl, rfl⟩ : 'v' = c ∧ tail = [] ∧ _ = [] := by simpa using hcs
      rw [h.eq_void, hs.eq_nil]
  · rintro rfl
    cases h with
    | cons h hs =>
      cases hs
      rw [h.eq_v, List.append_nil]

/-! ### Strict and lenient spellings -/

theorem TypeText.lenient (h : TypeText style table cs t table') :
    TypeText .lenient table cs t table' := by
  induction h with
  | letter hb => exact .letter hb
  | extended hb => exact .extended hb
  | source hb hn => exact .source hb hn.lenient
  | named hb hn => exact .named hb hn.lenient
  | reference hi hr => exact .reference hi hr.lenient
  | vector hn hs hd _ ih => exact .vector hn hs hd.lenient ih
  | pointerTo hi hr => exact .pointerTo hi hr.lenient
  | pointerToQualified hi hr => exact .pointerToQualified hi hr.lenient
  | pointer ha hs _ ih => exact .pointer ha.lenient hs ih

theorem TypesText.lenient (h : TypesText style table cs ts table') :
    TypesText .lenient table cs ts table' := by
  induction h with
  | nil => exact .nil
  | cons h _ ih => exact .cons h.lenient ih

/-! ### What a spelled type is -/

/-- The type that a component was recorded for: attributes are recorded for their pointer. -/
def Component.owner : Component ArgType → ArgType
  | .whole t => t
  | .qualified a t => .pointer a t

/-- What builtins and spelled names have, and vectors and pointers with qualifiers alone pass on
from what is below them, a spelled type has, given that the components in the table belong to types
that have it. -/
theorem TypeText.of_all {motive : ArgType → Prop} (builtin : ∀ b : Builtin, motive (.builtin b))
    (named : ∀ {name : String} {cs : List Char}, (∀ b : Builtin, b.spelling ≠ .source name) →
      NameText style name cs → motive ⟨[], .named name⟩)
    (vector : ∀ {n : UInt32} {t : ArgType}, n ≠ 0 → t.isScalar = true → motive t →
      motive (.cons (.vector n) t))
    (pointer : ∀ {a : PointerAttrs} {t : ArgType}, a.qualifiers.Known → motive t →
      motive (.pointer a t))
    (h : TypeText style table cs t table') (htable : ∀ c ∈ table, motive c.owner) :
    motive t ∧ ∀ c ∈ table', motive c.owner := by
  have push : ∀ {table : List (Component ArgType)} {c : Component ArgType},
      (∀ c ∈ table, motive c.owner) → motive c.owner → ∀ d ∈ table ++ [c], motive d.owner := by
    intro table c h hc d hd
    rcases List.mem_append.1 hd with hd | hd
    · exact h d hd
    · obtain rfl := List.mem_singleton.1 hd
      exact hc
  induction h with
  | letter hb | extended hb | source hb => exact ⟨builtin _, htable⟩
  | named hb hn => exact ⟨named hb hn, push htable (named hb hn)⟩
  | reference hi hr => exact ⟨htable _ (List.mem_of_getElem? hi), htable⟩
  | vector hn hs hd ht ih =>
    obtain ⟨hm, htable'⟩ := ih
    exact ⟨vector hn hs hm, push htable' (vector hn hs hm)⟩
  | pointerTo hi hr =>
    have hm := pointer (a := .plain) rfl (htable _ (List.mem_of_getElem? hi))
    exact ⟨hm, push htable hm⟩
  | pointerToQualified hi hr =>
    have hm := htable _ (List.mem_of_getElem? hi)
    exact ⟨hm, push htable hm⟩
  | @pointer table' a spelled t as cs ha hs ht ih =>
    obtain ⟨hm, htable'⟩ := ih
    have hp := pointer ha.known hm
    refine ⟨hp, push ?_ hp⟩
    cases spelled with
    | false => simpa using htable'
    | true => exact push htable' hp

theorem TypesText.of_all {motive : ArgType → Prop} (builtin : ∀ b : Builtin, motive (.builtin b))
    (named : ∀ {name : String} {cs : List Char}, (∀ b : Builtin, b.spelling ≠ .source name) →
      NameText style name cs → motive ⟨[], .named name⟩)
    (vector : ∀ {n : UInt32} {t : ArgType}, n ≠ 0 → t.isScalar = true → motive t →
      motive (.cons (.vector n) t))
    (pointer : ∀ {a : PointerAttrs} {t : ArgType}, a.qualifiers.Known → motive t →
      motive (.pointer a t))
    (h : TypesText style table cs ts table') (htable : ∀ c ∈ table, motive c.owner) :
    ∀ t ∈ ts, motive t := by
  induction h with
  | nil => exact List.forall_mem_nil _
  | cons h _ ih =>
    obtain ⟨hm, htable'⟩ := h.of_all builtin named vector pointer htable
    exact List.forall_mem_cons.2 ⟨hm, ih htable'⟩

theorem TypesText.wellFormed (h : TypesText style [] cs ts table') : ∀ t ∈ ts, t.WellFormed :=
  h.of_all .builtin (fun _ hn => .named hn.ne_empty)
    (fun hn hs _ => ArgType.wellFormed_cons_vector hn hs) (fun _ ht => .pointer _ ht)
    (List.forall_mem_nil _)

/-- The name of a spelled type is not longer than a number can say. -/
theorem TypesText.nameBelow (h : TypesText style [] cs ts table') :
    ∀ t ∈ ts, t.NameBelow numberBound := by
  refine h.of_all (fun b => nofun) (fun _ hn => ?_) (fun _ _ ht => ht) (fun _ ht => ht)
    (List.forall_mem_nil _)
  rintro _ ⟨⟩
  exact hn.size_lt

/-- The name of a spelled type can be read back. -/
theorem TypesText.legible (h : TypesText style [] cs ts table') : ∀ t ∈ ts, t.Legible := by
  refine h.of_all (fun b => ⟨nofun, nofun⟩) (fun hb hn => ⟨?_, ?_⟩)
    (fun _ _ ht => ⟨ht.not_digit, ht.not_builtin⟩) (fun _ ht => ⟨ht.not_digit, ht.not_builtin⟩)
    (List.forall_mem_nil _)
  · rintro _ ⟨⟩
    exact hn.not_startsWithDigit
  · rintro _ ⟨⟩
    exact hb

theorem TypesText.known (h : TypesText style [] cs ts table') : ∀ t ∈ ts, t.Known :=
  h.of_all (fun _ => List.forall_mem_nil _) (fun _ _ => List.forall_mem_nil _)
    (fun _ _ ht => ArgType.known_cons.2 ⟨trivial, ht⟩)
    (fun ha ht => ArgType.known_cons.2 ⟨ha, ht⟩) (List.forall_mem_nil _)

/-! ### How the table grows -/

/-- The text of a type has a character for each component that it adds. -/
theorem TypeText.length_table (h : TypeText style table cs t table') :
    table'.length ≤ table.length + cs.length := by
  induction h with
  | letter | extended | source | reference => omega
  | named hb hn =>
    obtain ⟨c, tail, rfl, -⟩ := hn.head
    simp
  | vector hn hs hd _ ih =>
    simp only [List.length_append, List.length_cons, List.length_nil]
    omega
  | pointerTo hi hr | pointerToQualified hi hr => simp
  | @pointer table' a spelled t as cs ha hs _ ih =>
    simp only [List.length_append, List.length_cons, List.length_nil]
    cases spelled with
    | false =>
      simp only [Bool.false_eq_true, ↓reduceIte, List.length_nil]
      omega
    | true =>
      have := ha.length_pos
      simp only [↓reduceIte, List.length_cons, List.length_nil]
      omega

theorem TypesText.length_table (h : TypesText style table cs ts table') :
    table'.length ≤ table.length + cs.length := by
  induction h with
  | nil => omega
  | cons h _ ih =>
    have := h.length_table
    rw [List.length_append]
    omega

/-- Components are only ever added behind the others. -/
theorem TypeText.table_prefix (h : TypeText style table cs t table') : table <+: table' := by
  induction h with
  | letter | extended | source | reference => exact List.prefix_rfl
  | named | pointerTo | pointerToQualified => exact List.prefix_append ..
  | vector _ _ _ _ ih => exact ih.trans (List.prefix_append ..)
  | pointer _ _ _ ih => exact ih.trans ((List.prefix_append ..).trans (List.prefix_append ..))

theorem TypesText.table_prefix (h : TypesText style table cs ts table') : table <+: table' := by
  induction h with
  | nil => exact List.prefix_rfl
  | cons h _ ih => exact h.table_prefix.trans ih

/-- The table of a derivation from a closed table is closed, and holds the components of the
type that was spelled. -/
theorem TypeText.components_subset (h : TypeText style table cs t table')
    (htable : ClosedTable table) : t.components ⊆ table' ∧ ClosedTable table' := by
  induction h with
  | letter | extended | source => exact ⟨List.nil_subset _, htable⟩
  | @named name cs hb hn =>
    have hs : ArgType.components ⟨[], .named name⟩ ⊆ table ++ [.whole ⟨[], .named name⟩] := by simp
    exact ⟨hs, htable.whole hs⟩
  | reference hi => exact ⟨htable _ (List.mem_of_getElem? hi), htable⟩
  | @vector table' n t digits cs hn hs hd _ ih =>
    obtain ⟨ht, htable'⟩ := ih
    have hs := ArgType.components_vector_subset (n := n) ht
    exact ⟨hs, htable'.whole hs⟩
  | @pointerTo i t cs hi hr =>
    have ht : t.components ⊆ table := htable _ (List.mem_of_getElem? hi)
    have hs := ArgType.components_pointer_subset (a := .plain) ht (List.nil_subset _)
    exact ⟨hs, htable.whole hs⟩
  | @pointerToQualified i a t cs hi hr =>
    have hm := List.mem_of_getElem? hi
    have ha : a.component t ⊆ table := fun c hc => by
      obtain rfl := List.mem_singleton.1 (a.component_subset t hc)
      exact hm
    have hs := ArgType.components_pointer_subset (htable _ hm) ha
    exact ⟨hs, htable.whole hs⟩
  | @pointer table' a spelled t as cs ha hs _ ih =>
    obtain ⟨ht, htable'⟩ := ih
    cases spelled with
    | false =>
      obtain ⟨rfl, -⟩ := ha.of_not_spelled
      have hs := ArgType.components_pointer_subset (a := .plain) ht (List.nil_subset _)
      simpa using ⟨hs, htable'.whole hs⟩
    | true =>
      have hs := ArgType.components_pointer_subset (List.subset_append_of_subset_left _ ht)
        (List.subset_append_of_subset_right _ (a.component_subset t))
      exact ⟨hs, (htable'.qualified ht).whole hs⟩

theorem TypesText.components_subset (h : TypesText style table cs ts table')
    (htable : ClosedTable table) : ∀ t ∈ ts, t.components ⊆ table' := by
  induction h with
  | nil => exact List.forall_mem_nil _
  | cons h hs ih =>
    obtain ⟨ht, htable'⟩ := h.components_subset htable
    exact List.forall_mem_cons.2 ⟨List.Subset.trans ht hs.table_prefix.subset, ih htable'⟩

/-! ### Whole symbols -/

theorem ParamsText.typesText (h : ParamsText style cs ts table) :
    ∃ ds, TypesText style [] ds ts table ∧ ds.length ≤ cs.length := by
  cases h with
  | none => exact ⟨[], .nil, Nat.zero_le _⟩
  | some h => exact ⟨cs, h, Nat.le_refl _⟩

theorem ParamsText.ne_void (h : ParamsText style cs ts table) : ts ≠ [.builtin .void] := by
  cases h with
  | none => exact nofun
  | some h _ hv => exact mt h.eq_v_iff.2 hv

variable {name : String}

theorem SymbolText.typesText (h : SymbolText style cs name ts table) :
    ∃ ds, TypesText style [] ds ts table ∧ ds.length ≤ cs.length := by
  obtain ⟨hn, hp⟩ := h
  obtain ⟨ds, ht, hl⟩ := hp.typesText
  refine ⟨ds, ht, Nat.le_trans hl ?_⟩
  rw [List.length_append]
  omega

theorem SymbolText.ne_void (h : SymbolText style cs name ts table) : ts ≠ [.builtin .void] := by
  obtain ⟨hn, hp⟩ := h
  exact hp.ne_void

theorem SymbolText.nameText (h : SymbolText style cs name ts table) :
    ∃ ds, NameText style name ds := by
  obtain ⟨hn, hp⟩ := h
  exact ⟨_, hn⟩

theorem SymbolText.length_table (h : SymbolText style cs name ts table) :
    table.length ≤ cs.length := by
  obtain ⟨ds, ht, hl⟩ := h.typesText
  have := ht.length_table
  rw [List.length_nil] at this
  omega

theorem SymbolText.lenient (h : SymbolText style cs name ts table) :
    SymbolText .lenient cs name ts table := by
  obtain ⟨hn, hp⟩ := h
  cases hp with
  | none => exact .mk hn.lenient .none
  | some h hne hv => exact .mk hn.lenient (.some h.lenient hne hv)

end

end KernelSymbol
