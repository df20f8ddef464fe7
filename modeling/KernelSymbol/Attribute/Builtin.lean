import KernelSymbol.BuildError

/-!
# Builtin types

The scalars, the pseudo types `void` and `...`, and the opaque objects (images, events and
samplers) that a kernel function can take. They are numbered from zero in the order of `all`;
the scalars come first and the opaque objects are contiguous, so both classes are ranges.

## Main definitions

* `Builtin` — the twenty-two builtin types
* `Builtin.number`, `Builtin.ofNumber` — their numbering
* `Builtin.isScalar`, `Builtin.isOpaque` — the two ranges
* `Builtin.name`, `Builtin.label` — the spelling in the kernel language, and the diagnostic label

## Main results

* `Builtin.ofNumber_number`, `Builtin.number_of_ofNumber` — the numbering and its inverse
-/

namespace KernelSymbol

/-- A builtin type of the kernel language. -/
inductive Builtin where
  | bool
  | uchar
  | char
  | ushort
  | short
  | uint
  | int
  | ulong
  | long
  | half
  | float
  | double
  | void
  /-- The `...` that ends a variadic parameter list. -/
  | varArg
  | image1d
  | image2d
  | image3d
  | image1dBuffer
  | image1dArray
  | image2dArray
  | event
  | sampler
  deriving DecidableEq, Hashable

namespace Builtin

/-! ### Numbering -/

/-- Every builtin, in the order of the numbering. -/
def all : List Builtin :=
  [bool, uchar, char, ushort, short, uint, int, ulong, long, half, float, double, void, varArg,
    image1d, image2d, image3d, image1dBuffer, image1dArray, image2dArray, event, sampler]

/-- The number of a builtin. -/
def number : Builtin → Nat
  | bool => 0
  | uchar => 1
  | char => 2
  | ushort => 3
  | short => 4
  | uint => 5
  | int => 6
  | ulong => 7
  | long => 8
  | half => 9
  | float => 10
  | double => 11
  | void => 12
  | varArg => 13
  | image1d => 14
  | image2d => 15
  | image3d => 16
  | image1dBuffer => 17
  | image1dArray => 18
  | image2dArray => 19
  | event => 20
  | sampler => 21

/-- The builtin with a given number. -/
def ofNumber (n : Nat) : Except BuildError Builtin :=
  match all[n]? with
  | some b => .ok b
  | none => .error (.builtinOutOfRange n)

/-- The first builtin of the numbering. -/
def first : Builtin := bool

/-- The last builtin of the numbering. -/
def last : Builtin := sampler

/-- The first of the opaque objects. -/
def opaqueFirst : Builtin := image1d

/-- The last of the opaque objects. -/
def opaqueLast : Builtin := event

/-- How many builtins there are; also the least number that names none. -/
def count : Nat := all.length

theorem mem_all (b : Builtin) : b ∈ all := by cases b <;> decide

@[simp] theorem all_getElem?_number (b : Builtin) : all[b.number]? = some b := by
  cases b <;> rfl

@[simp] theorem ofNumber_number (b : Builtin) : ofNumber b.number = .ok b := by
  simp [ofNumber]

/-- A number names at most one builtin, the one that carries it. -/
theorem number_of_ofNumber {n : Nat} {b : Builtin} (h : ofNumber n = .ok b) : b.number = n := by
  rw [ofNumber] at h
  split at h
  next c hc =>
    obtain rfl : c = b := by simpa using h
    obtain ⟨hn, rfl⟩ := List.getElem?_eq_some_iff.1 hc
    exact (by decide : ∀ i : Fin 22, (all.get ⟨i.1, i.2⟩).number = i.1) ⟨n, hn⟩
  next => cases h

/-! ### Classes -/

/-- Opaque objects are the images and the event; the sampler is counted apart. -/
def isOpaque (b : Builtin) : Bool :=
  opaqueFirst.number ≤ b.number && b.number ≤ opaqueLast.number

/-- Scalars run from `bool` to `double`. Only they can be elements of a vector. -/
def isScalar (b : Builtin) : Bool := b.number ≤ double.number

/-! ### Names -/

/-- The spelling of a builtin in the kernel language. -/
def name : Builtin → String
  | bool => "bool"
  | uchar => "uchar"
  | char => "char"
  | ushort => "ushort"
  | short => "short"
  | uint => "uint"
  | int => "int"
  | ulong => "ulong"
  | long => "long"
  | half => "half"
  | float => "float"
  | double => "double"
  | void => "void"
  | varArg => "..."
  | image1d => "image1d_t"
  | image2d => "image2d_t"
  | image3d => "image3d_t"
  | image1dBuffer => "image1d_buffer_t"
  | image1dArray => "image1d_array_t"
  | image2dArray => "image2d_array_t"
  | event => "event_t"
  | sampler => "sampler_t"

/-- The label of a builtin in diagnostic output. -/
def label : Builtin → String
  | bool => "Bool"
  | uchar => "UChar"
  | char => "Char"
  | ushort => "UShort"
  | short => "Short"
  | uint => "UInt"
  | int => "Int"
  | ulong => "ULong"
  | long => "Long"
  | half => "Half"
  | float => "Float"
  | double => "Double"
  | void => "Void"
  | varArg => "VarArg"
  | image1d => "Image1d"
  | image2d => "Image2d"
  | image3d => "Image3d"
  | image1dBuffer => "Image1dBuffer"
  | image1dArray => "Image1dArray"
  | image2dArray => "Image2dArray"
  | event => "Event"
  | sampler => "Sampler"

end Builtin

end KernelSymbol
