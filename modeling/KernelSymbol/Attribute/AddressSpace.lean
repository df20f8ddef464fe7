import KernelSymbol.BuildError

/-!
# Address spaces

The memory region that a pointer refers into. The private space is the default: renderings and
symbols leave it out.

## Main definitions

* `AddressSpace` — the four regions
* `AddressSpace.number`, `AddressSpace.ofNumber` — their numbering
* `AddressSpace.name`, `AddressSpace.label` — the keyword, and the diagnostic label

## Main results

* `AddressSpace.ofNumber_number`, `AddressSpace.number_of_ofNumber` — the numbering and its
  inverse
-/

namespace KernelSymbol

/-- A memory region of the device. -/
inductive AddressSpace where
  | privateSpace
  | globalSpace
  | constantSpace
  | localSpace
  deriving DecidableEq, Hashable

namespace AddressSpace

/-- Pointers refer to private memory unless they say otherwise. -/
instance : Inhabited AddressSpace := ⟨privateSpace⟩

/-- Every address space, in the order of the numbering. -/
def all : List AddressSpace := [privateSpace, globalSpace, constantSpace, localSpace]

/-- The number of an address space. -/
def number : AddressSpace → Nat
  | privateSpace => 0
  | globalSpace => 1
  | constantSpace => 2
  | localSpace => 3

/-- The address space with a given number. -/
def ofNumber (n : Nat) : Except BuildError AddressSpace :=
  match all[n]? with
  | some s => .ok s
  | none => .error (.spaceOutOfRange n)

/-- The first address space of the numbering. -/
def first : AddressSpace := privateSpace

/-- The last address space of the numbering. -/
def last : AddressSpace := localSpace

/-- Whether this is the space that goes without saying. -/
def isDefault (s : AddressSpace) : Bool := s == default

/-- The keyword of an address space in the kernel language. -/
def name : AddressSpace → String
  | privateSpace => "__private"
  | globalSpace => "__global"
  | constantSpace => "__constant"
  | localSpace => "__local"

/-- The label of an address space in diagnostic output. -/
def label : AddressSpace → String
  | privateSpace => "Private"
  | globalSpace => "Global"
  | constantSpace => "Constant"
  | localSpace => "Local"

theorem mem_all (s : AddressSpace) : s ∈ all := by cases s <;> decide

@[simp] theorem all_getElem?_number (s : AddressSpace) : all[s.number]? = some s := by
  cases s <;> rfl

@[simp] theorem ofNumber_number (s : AddressSpace) : ofNumber s.number = .ok s := by
  simp [ofNumber]

/-- A number names at most one address space, the one that carries it. -/
theorem number_of_ofNumber {n : Nat} {s : AddressSpace} (h : ofNumber n = .ok s) :
    s.number = n := by
  rw [ofNumber] at h
  split at h
  next t ht =>
    obtain rfl : t = s := by simpa using h
    obtain ⟨hn, rfl⟩ := List.getElem?_eq_some_iff.1 ht
    exact (by decide : ∀ i : Fin 4, (all.get ⟨i.1, i.2⟩).number = i.1) ⟨n, hn⟩
  next => cases h

@[simp] theorem isDefault_iff {s : AddressSpace} : s.isDefault = true ↔ s = privateSpace := by
  cases s <;> decide

end AddressSpace

end KernelSymbol
