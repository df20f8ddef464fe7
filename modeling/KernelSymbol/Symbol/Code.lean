import KernelSymbol.ArgType.Basic
import KernelSymbol.Numeral

/-!
# Codes: how the parts of a type are written in a symbol

A name is written after its length in bytes. The common builtins have a letter, `half` has two,
and the opaque objects are written like names. A pointer says `P`, its address space unless
private, and its qualifiers. A vector says `Dv`, its length and `_`. A component that was written
before is referred to by its place in the table of components.

## Main definitions

* `sourceName` — a name after its length
* `Builtin.spelling`, `Builtin.code` — the spelling of a builtin, and the table of their texts
* `Builtin.ofLetter?`, `Builtin.ofSource?`, `Builtin.ofSpelling?` — the builtin that has a letter, a
  name or any spelling
* `PointerAttrs.code` — what a pointer says after `P`
* `vectorCode`, `backReference` — the head of a vector, and a reference to the table

## Main results

* `Builtin.code_eq`, `Builtin.ofLetter?_eq_some_iff`, `Builtin.ofSource?_eq_some_iff` — the tables
  agree with the spellings
* `Builtin.ofSpelling?_eq_some_iff` — no two builtins share a spelling
-/

namespace KernelSymbol

/-- A name after its length in bytes. -/
def sourceName (name : String) : String := Radix.ten.text name.utf8ByteSize ++ name

/-! ### Builtins -/

/-- How a builtin is spelled in a symbol. -/
inductive Spelling where
  /-- As one letter. -/
  | letter (c : Char)
  /-- As a letter behind `D`. -/
  | extended (c : Char)
  /-- Like a name. -/
  | source (name : String)
  deriving DecidableEq

/-- The text of a spelling. -/
def Spelling.text : Spelling → String
  | letter c => c.toString
  | extended c => "D" ++ c.toString
  | source name => sourceName name

namespace Builtin

/-- The spelling of a builtin. -/
def spelling : Builtin → Spelling
  | bool => .letter 'b'
  | uchar => .letter 'h'
  | char => .letter 'c'
  | ushort => .letter 't'
  | short => .letter 's'
  | uint => .letter 'j'
  | int => .letter 'i'
  | ulong => .letter 'm'
  | long => .letter 'l'
  | half => .extended 'h'
  | float => .letter 'f'
  | double => .letter 'd'
  | void => .letter 'v'
  | varArg => .letter 'z'
  | image1d => .source "ocl_image1d"
  | image2d => .source "ocl_image2d"
  | image3d => .source "ocl_image3d"
  | image1dBuffer => .source "ocl_image1dbuffer"
  | image1dArray => .source "ocl_image1darray"
  | image2dArray => .source "ocl_image2darray"
  | event => .source "ocl_event"
  | sampler => .source "ocl_sampler"

/-- The text of a builtin in a symbol. -/
def code : Builtin → String
  | bool => "b"
  | uchar => "h"
  | char => "c"
  | ushort => "t"
  | short => "s"
  | uint => "j"
  | int => "i"
  | ulong => "m"
  | long => "l"
  | half => "Dh"
  | float => "f"
  | double => "d"
  | void => "v"
  | varArg => "z"
  | image1d => "11ocl_image1d"
  | image2d => "11ocl_image2d"
  | image3d => "11ocl_image3d"
  | image1dBuffer => "17ocl_image1dbuffer"
  | image1dArray => "16ocl_image1darray"
  | image2dArray => "16ocl_image2darray"
  | event => "9ocl_event"
  | sampler => "11ocl_sampler"

/-- The builtin that has a letter. -/
def ofLetter? : Char → Option Builtin
  | 'b' => some bool
  | 'h' => some uchar
  | 'c' => some char
  | 't' => some ushort
  | 's' => some short
  | 'j' => some uint
  | 'i' => some int
  | 'm' => some ulong
  | 'l' => some long
  | 'f' => some float
  | 'd' => some double
  | 'v' => some void
  | 'z' => some varArg
  | _ => none

/-- The builtin whose text is a name behind its length. -/
def ofSource? (name : String) : Option Builtin :=
  all.find? fun b =>
    b.code.toList.head?.any Char.isDigit && b.code.toList.dropWhile Char.isDigit == name.toList

/-- The builtin that has a spelling. -/
def ofSpelling? : Spelling → Option Builtin
  | .letter c => ofLetter? c
  | .extended c => if c = 'h' then some half else none
  | .source name => ofSource? name

/-! The text of a builtin is that of its spelling, and both ways to find a builtin by what is
spelled agree with it. -/

theorem code_eq (b : Builtin) : b.code = b.spelling.text := by
  cases b <;> decide +kernel

theorem ofLetter?_eq_some_iff {c : Char} {b : Builtin} :
    ofLetter? c = some b ↔ b.spelling = .letter c := by
  constructor
  · intro h
    unfold ofLetter? at h
    split at h <;> cases h <;> rfl
  · intro h
    cases b <;> cases h <;> rfl

/-- The builtin that is spelled like a name, as its spelling says. -/
private theorem source_iff (b : Builtin) (name : String) :
    (b.code.toList.head?.any Char.isDigit
      && b.code.toList.dropWhile Char.isDigit == name.toList) = true ↔
        b.spelling = .source name := by
  have cut : ∀ {name' : String}, b.spelling = .source name' →
      b.code.toList.head?.any Char.isDigit = true ∧
        b.code.toList.dropWhile Char.isDigit = name'.toList := by
    intro name' h
    cases b <;> cases h <;> decide +kernel
  cases h : b.spelling with
  | letter c | extended c =>
    have hhead : b.code.toList.head?.any Char.isDigit = false := by
      cases b <;> cases h <;> decide +kernel
    simp [hhead]
  | source name' =>
    obtain ⟨hhead, hrest⟩ := cut h
    simp [hhead, hrest, String.toList_inj]

private theorem ofSource?_spelling {b : Builtin} {name : String} (h : b.spelling = .source name) :
    ofSource? name = some b := by
  cases b <;> cases h <;> decide +kernel

theorem ofSource?_eq_some_iff {name : String} {b : Builtin} :
    ofSource? name = some b ↔ b.spelling = .source name := by
  refine ⟨fun h => ?_, ofSource?_spelling⟩
  rw [ofSource?] at h
  have hb := List.find?_some h
  exact (source_iff b name).1 hb

theorem ofSpelling?_eq_some_iff {s : Spelling} {b : Builtin} :
    ofSpelling? s = some b ↔ b.spelling = s := by
  cases s with
  | letter c => exact ofLetter?_eq_some_iff
  | extended c =>
    rw [ofSpelling?]
    constructor
    · intro h
      split at h <;> cases h
      next hc => rw [hc]; rfl
    · intro h
      cases b <;> cases h
      rfl
  | source name => exact ofSource?_eq_some_iff

end Builtin

/-! ### Pointers, vectors and references -/

/-- What a pointer into an address space says about it; nothing for the private space. -/
def AddressSpace.code (s : AddressSpace) : String :=
  if s.isDefault then "" else "U3AS" ++ Radix.ten.text s.number

/-- The letter of a qualifier. -/
def Qualifier.letter : Qualifier → Char
  | .restrict => 'r'
  | .volatile => 'V'
  | .const => 'K'

/-- The letters of the members of a set, in order. -/
def QualifierSet.code (qs : QualifierSet) : String := String.ofList (qs.toList.map Qualifier.letter)

/-- What a pointer says after `P`. -/
def PointerAttrs.code (a : PointerAttrs) : String := a.space.code ++ a.qualifiers.code

/-- The head of a vector. -/
def vectorCode (length : UInt32) : String := "Dv" ++ Radix.ten.text length.toNat ++ "_"

/-- A reference to the component at a place of the table. The first component needs no number,
and the others are numbered from zero. -/
def backReference : Nat → String
  | 0 => "S_"
  | id + 1 => "S" ++ Radix.thirtySix.text id ++ "_"

end KernelSymbol
