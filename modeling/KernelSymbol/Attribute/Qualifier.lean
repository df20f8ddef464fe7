import KernelSymbol.BuildError

/-!
# Qualifiers and sets of them

A pointer carries any of the qualifiers `restrict`, `volatile` and `const`. A set of them is a byte,
and every qualifier has a bit in it. Sets are compared as bytes. Five bits belong to no qualifier:
a byte that has one of them is a set like any other, but nothing that is said about its members
shows the bit. Wherever the members are listed, they come in the order `restrict`, `volatile`,
`const`.

## Main definitions

* `Qualifier`, `QualifierSet` — one qualifier, and a set of them
* `QualifierSet.contains`, `QualifierSet.set`, `QualifierSet.toList` — membership, one change,
  the members in order
* `QualifierSet.spare`, `QualifierSet.Known` — the bits that belong to no qualifier, and a set that
  has none of them
* `QualifierSet.bits`, `QualifierSet.ofBits?`, `QualifierSet.ofLowBits` — sets as numbers

## Main results

* `QualifierSet.ext_contains` — a set is determined by its members and its spare bits
* `QualifierSet.contains_set`, `QualifierSet.spare_set` — a change touches one member only
* `QualifierSet.Known.ofBits?_bits` — the number of a set of qualifiers alone gives the set back
-/

namespace KernelSymbol

/-- A qualifier of a pointer. -/
inductive Qualifier where
  | restrict
  | volatile
  | const
  deriving DecidableEq, Hashable

namespace Qualifier

/-- Every qualifier, in the order in which sets list them. -/
def all : List Qualifier := [restrict, volatile, const]

/-- The slot number of a qualifier. -/
def number : Qualifier → Nat
  | restrict => 0
  | volatile => 1
  | const => 2

/-- The qualifier with a given slot number. -/
def ofNumber (n : Nat) : Except BuildError Qualifier :=
  match all[n]? with
  | some q => .ok q
  | none => .error (.qualifierOutOfRange n)

/-- The first qualifier of the numbering. -/
def first : Qualifier := restrict

/-- The last qualifier of the numbering. -/
def last : Qualifier := const

/-- The bit of a qualifier in a set. -/
def flag (q : Qualifier) : UInt8 := 1 <<< UInt8.ofNat q.number

/-- The bit of a qualifier in the number of a set. -/
def bit (q : Qualifier) : Nat := q.flag.toNat

/-- The keyword of a qualifier in the kernel language. -/
def name : Qualifier → String
  | restrict => "restrict"
  | volatile => "volatile"
  | const => "const"

/-- The label of a qualifier in diagnostic output. -/
def label : Qualifier → String
  | restrict => "Restrict"
  | volatile => "Volatile"
  | const => "Const"

/-- The label of a qualifier inside the diagnostic output of a set. -/
def flagLabel : Qualifier → String
  | restrict => "RESTRICT"
  | volatile => "VOLATILE"
  | const => "CONST"

theorem mem_all (q : Qualifier) : q ∈ all := by cases q <;> decide

@[simp] theorem all_getElem?_number (q : Qualifier) : all[q.number]? = some q := by
  cases q <;> rfl

@[simp] theorem ofNumber_number (q : Qualifier) : ofNumber q.number = .ok q := by
  simp [ofNumber]

/-- A number names at most one qualifier, the one that carries it. -/
theorem number_of_ofNumber {n : Nat} {q : Qualifier} (h : ofNumber n = .ok q) :
    q.number = n := by
  rw [ofNumber] at h
  split at h
  next t ht =>
    obtain rfl : t = q := by simpa using h
    obtain ⟨hn, rfl⟩ := List.getElem?_eq_some_iff.1 ht
    exact (by decide : ∀ i : Fin 3, (all.get ⟨i.1, i.2⟩).number = i.1) ⟨n, hn⟩
  next => cases h

end Qualifier

/-- A set of qualifiers: a byte, in which every qualifier has a bit. The other bits belong to no
qualifier. They are never set by name, but a byte that has some of them is kept as it is. -/
structure QualifierSet where
  byte : UInt8
  deriving DecidableEq, Hashable

namespace QualifierSet

/-! ### Members -/

/-- The set without any bit. -/
def empty : QualifierSet := ⟨0⟩

/-- The set of every qualifier. -/
def full : QualifierSet :=
  ⟨Qualifier.restrict.flag ||| Qualifier.volatile.flag ||| Qualifier.const.flag⟩

/-- Pointers are unqualified unless they say otherwise. -/
instance : Inhabited QualifierSet := ⟨empty⟩

/-- Whether a qualifier is a member. -/
def contains (s : QualifierSet) (q : Qualifier) : Bool := s.byte &&& q.flag == q.flag

/-- Whether `restrict` is a member. -/
def restrict (s : QualifierSet) : Bool := s.contains .restrict

/-- Whether `volatile` is a member. -/
def volatile (s : QualifierSet) : Bool := s.contains .volatile

/-- Whether `const` is a member. -/
def const (s : QualifierSet) : Bool := s.contains .const

/-- The set with one member added or removed, the others untouched. -/
def set (s : QualifierSet) (q : Qualifier) (on : Bool) : QualifierSet :=
  ⟨if on then s.byte ||| q.flag else s.byte &&& ~~~q.flag⟩

/-- The members, in the order `restrict`, `volatile`, `const`. -/
def toList (s : QualifierSet) : List Qualifier := Qualifier.all.filter s.contains

/-- The set of the members of a list. -/
def ofList (qs : List Qualifier) : QualifierSet := qs.foldl (fun s q => s.set q true) empty

/-- The set with three flags. -/
def ofFlags (restrict volatile const : Bool) : QualifierSet :=
  ((empty.set .restrict restrict).set .volatile volatile).set .const const

/-- Whether the set has no bit at all. -/
def isEmpty (s : QualifierSet) : Bool := s == empty

/-- Whether the set has every qualifier. -/
def isFull (s : QualifierSet) : Bool := full.byte ||| s.byte == s.byte

/-- The bits that belong to no qualifier. -/
def spare (s : QualifierSet) : UInt8 := s.byte &&& ~~~full.byte

/-- Every bit belongs to a qualifier. -/
def Known (s : QualifierSet) : Prop := s.spare = 0

instance (s : QualifierSet) : Decidable s.Known := inferInstanceAs (Decidable (s.spare = 0))

/-- What holds of the sets with each of the 256 bytes holds of every set. -/
private theorem forall_of_bits {p : QualifierSet → Prop} (h : ∀ v : BitVec 8, p ⟨⟨v⟩⟩)
    (s : QualifierSet) : p s := h s.byte.toBitVec

/-- A change touches one member only. -/
theorem contains_set (s : QualifierSet) (q r : Qualifier) (on : Bool) :
    (s.set q on).contains r = if r = q then on else s.contains r := by
  revert s
  cases q <;> cases r <;> cases on <;> exact forall_of_bits (by decide +kernel)

/-- No change touches the bits that belong to no qualifier. -/
@[simp] theorem spare_set (s : QualifierSet) (q : Qualifier) (on : Bool) :
    (s.set q on).spare = s.spare := by
  revert s
  cases q <;> cases on <;> exact forall_of_bits (by decide +kernel)

@[simp] theorem contains_empty (q : Qualifier) : empty.contains q = false := by cases q <;> rfl

theorem known_empty : empty.Known := rfl

theorem mem_toList {s : QualifierSet} {q : Qualifier} : q ∈ s.toList ↔ s.contains q = true := by
  simp [toList, Qualifier.mem_all]

@[simp] theorem isEmpty_iff {s : QualifierSet} : s.isEmpty = true ↔ s = empty := by
  simp [isEmpty]

/-- The members and the bits that belong to no qualifier make up a set. -/
private theorem byte_eq (s : QualifierSet) : s.byte = (ofList s.toList).byte ||| s.spare :=
  forall_of_bits (p := fun s => s.byte = (ofList s.toList).byte ||| s.spare) (by decide +kernel) s

/-- A set is determined by its members and the bits that belong to no qualifier. -/
theorem ext_contains {s t : QualifierSet} (hs : s.spare = t.spare)
    (h : ∀ q, s.contains q = t.contains q) : s = t := by
  have hbyte : s.byte = t.byte := by
    rw [s.byte_eq, t.byte_eq, hs, toList, toList, funext h]
  cases s; cases t
  exact congrArg mk hbyte

/-- So sets of qualifiers alone are determined by their members. -/
theorem Known.eq_of_toList_eq {s t : QualifierSet} (hs : s.Known) (ht : t.Known)
    (h : s.toList = t.toList) : s = t := by
  refine ext_contains (hs.trans ht.symm) fun q => ?_
  rw [Bool.eq_iff_iff, ← mem_toList, ← mem_toList, h]

theorem contains_ofList (qs : List Qualifier) (q : Qualifier) :
    (ofList qs).contains q = decide (q ∈ qs) := by
  have key : ∀ (qs : List Qualifier) (s : QualifierSet),
      (qs.foldl (fun s q => s.set q true) s).contains q = (s.contains q || decide (q ∈ qs)) := by
    intro qs
    induction qs with
    | nil => simp
    | cons r qs ih =>
      intro s
      rw [List.foldl_cons, ih, contains_set]
      by_cases h : q = r <;> simp [h]
  rw [ofList, key]
  simp

theorem known_ofList (qs : List Qualifier) : (ofList qs).Known := by
  have key : ∀ s : QualifierSet, (qs.foldl (fun s q => s.set q true) s).spare = s.spare := by
    induction qs with
    | nil => exact fun s => rfl
    | cons q qs ih => exact fun s => (ih _).trans (spare_set s q true)
  exact key empty

/-- Listing the members and collecting them gives a set of qualifiers alone back. -/
theorem Known.ofList_toList {s : QualifierSet} (hs : s.Known) : ofList s.toList = s := by
  refine ext_contains ((known_ofList _).trans hs.symm) fun q => ?_
  rw [contains_ofList]
  simp [mem_toList]

@[simp] theorem restrict_ofFlags (r v c : Bool) : (ofFlags r v c).restrict = r := by
  cases r <;> cases v <;> cases c <;> rfl

@[simp] theorem volatile_ofFlags (r v c : Bool) : (ofFlags r v c).volatile = v := by
  cases r <;> cases v <;> cases c <;> rfl

@[simp] theorem const_ofFlags (r v c : Bool) : (ofFlags r v c).const = c := by
  cases r <;> cases v <;> cases c <;> rfl

theorem known_ofFlags (r v c : Bool) : (ofFlags r v c).Known := by
  cases r <;> cases v <;> cases c <;> rfl

/-- The three flags of a set of qualifiers alone give it back. -/
theorem Known.ofFlags_eq {s : QualifierSet} (hs : s.Known) :
    ofFlags s.restrict s.volatile s.const = s := by
  refine ext_contains ((known_ofFlags ..).trans hs.symm) fun q => ?_
  cases q
  · exact restrict_ofFlags ..
  · exact volatile_ofFlags ..
  · exact const_ofFlags ..

/-! ### Sets as numbers -/

/-- The number of a set. -/
def bits (s : QualifierSet) : Nat := s.byte.toNat

/-- The set whose members are the bits of a number that belong to qualifiers. Other bits are
dropped. -/
def ofLowBits (n : Nat) : QualifierSet := ⟨UInt8.ofNat n &&& full.byte⟩

/-- The set with a given number, if every bit of it belongs to a qualifier. -/
def ofBits? (n : Nat) : Option QualifierSet :=
  let s := ofLowBits n
  if s.bits = n then some s else none

theorem Known.ofLowBits_bits {s : QualifierSet} : s.Known → ofLowBits s.bits = s :=
  forall_of_bits (p := fun s => s.Known → ofLowBits s.bits = s) (by decide +kernel) s

theorem Known.ofBits?_bits {s : QualifierSet} (hs : s.Known) : ofBits? s.bits = some s := by
  simp [ofBits?, hs.ofLowBits_bits]

/-- A number is read as the set that carries it, or not at all. -/
theorem bits_of_ofBits? {n : Nat} {s : QualifierSet} (h : ofBits? n = some s) : s.bits = n := by
  simp only [ofBits?, Option.ite_none_right_eq_some, Option.some.injEq] at h
  exact h.2 ▸ h.1

/-! ### Diagnostic output -/

/-- The diagnostic output of a set: its members between bars, and behind them the number of the
bits that belong to no qualifier, if there are any; or a zero. -/
def debug (s : QualifierSet) : String :=
  let spare := if s.spare = 0 then [] else ["0x" ++ String.ofList (Nat.toDigits 16 s.spare.toNat)]
  let members := s.toList.map Qualifier.flagLabel ++ spare
  "Qualifiers(" ++ (if s.isEmpty then "0x0" else " | ".intercalate members) ++ ")"

end QualifierSet

end KernelSymbol
