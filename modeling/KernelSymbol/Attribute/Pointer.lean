import KernelSymbol.Attribute.AddressSpace
import KernelSymbol.Attribute.Qualifier

/-!
# Attributes of a pointer

A pointer says where it points to (an address space) and under which qualifiers. Both belong to
the identity of the pointer type. A plain pointer is private and unqualified.

Edits are given with raw numbers, as a front end receives them. An edit that fails changes
nothing. A set of qualifiers may also be given as a byte; this cannot fail, and bits that belong to
no qualifier stay in the set.

## Main definitions

* `PointerAttrs` — address space and qualifiers
* `PointerAttrs.isPlain` — nothing to say beyond "pointer"
* `PointerAttrs.ofNumbers`, `PointerAttrs.retain` — attributes from raw numbers, and with a byte of
  qualifiers
* `PointerAttrs.Edit`, `PointerAttrs.apply` — one change, and its effect

## Main results

* `PointerAttrs.isPlain_iff` — only the default attributes are plain
-/

namespace KernelSymbol

/-- The address space and the qualifiers of a pointer. -/
structure PointerAttrs where
  space : AddressSpace
  qualifiers : QualifierSet
  deriving DecidableEq, Hashable

/-- The qualifiers with the given slot numbers, converted from left to right. Numbers may repeat
and come in any order. -/
def QualifierSet.ofNumbers (slots : List Nat) : Except BuildError QualifierSet :=
  go slots QualifierSet.empty
where
  /-- Adds the remaining slots to a set. -/
  go : List Nat → QualifierSet → Except BuildError QualifierSet
    | [], s => .ok s
    | n :: rest, s =>
      match Qualifier.ofNumber n with
      | .ok q => go rest (s.set q true)
      | .error e => .error e

namespace PointerAttrs

/-- The attributes of a private pointer without qualifiers. -/
def plain : PointerAttrs := ⟨default, QualifierSet.empty⟩

/-- Pointers are plain unless they say otherwise. -/
instance : Inhabited PointerAttrs := ⟨plain⟩

/-- Whether neither the address space nor a qualifier needs to be spelled out. -/
def isPlain (a : PointerAttrs) : Bool := a.space.isDefault && a.qualifiers.isEmpty

/-- The attributes with another address space. -/
def withSpace (a : PointerAttrs) (s : AddressSpace) : PointerAttrs := { a with space := s }

/-- The attributes with one qualifier added or removed. -/
def setQualifier (a : PointerAttrs) (q : Qualifier) (on : Bool) : PointerAttrs :=
  { a with qualifiers := a.qualifiers.set q on }

/-- Attributes from an address space number and slot numbers, converted in this order. -/
def ofNumbers (space : Nat) (slots : List Nat) : Except BuildError PointerAttrs :=
  match AddressSpace.ofNumber space with
  | .error e => .error e
  | .ok s =>
    match QualifierSet.ofNumbers slots with
    | .error e => .error e
    | .ok qs => .ok ⟨s, qs⟩

/-- Attributes from an address space number and a byte of qualifiers, which is kept as it is. -/
def retain (space : Nat) (byte : UInt8) : Except BuildError PointerAttrs :=
  match AddressSpace.ofNumber space with
  | .error e => .error e
  | .ok s => .ok ⟨s, ⟨byte⟩⟩

theorem isPlain_iff {a : PointerAttrs} : a.isPlain = true ↔ a = plain := by
  rcases a with ⟨s, qs⟩
  simp [isPlain, plain, show (default : AddressSpace) = .privateSpace from rfl]

/-! ### Edits -/

/-- One change to the attributes of a pointer, in raw numbers. -/
inductive Edit where
  /-- Refer to another address space. -/
  | space (number : Nat)
  /-- Add or remove one qualifier. -/
  | qualifier (slot : Nat) (on : Bool)
  /-- Replace the whole set of qualifiers. -/
  | qualifiers (slots : List Nat)
  /-- Replace the whole set of qualifiers by a byte, which is kept as it is. -/
  | retain (byte : UInt8)

/-- The attributes after an edit. -/
def apply (a : PointerAttrs) : Edit → Except BuildError PointerAttrs
  | .space n => (AddressSpace.ofNumber n).map a.withSpace
  | .qualifier n on => (Qualifier.ofNumber n).map (a.setQualifier · on)
  | .qualifiers slots => (QualifierSet.ofNumbers slots).map fun qs => { a with qualifiers := qs }
  | .retain byte => .ok { a with qualifiers := ⟨byte⟩ }

end PointerAttrs

end KernelSymbol
