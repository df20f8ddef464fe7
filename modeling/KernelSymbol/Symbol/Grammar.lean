import KernelSymbol.ArgType.Checked
import KernelSymbol.Symbol.Component
import KernelSymbol.Symbol.Reader

/-!
# The grammar of symbols

Which texts are symbols, and of what, said as a relation and without reading. A derivation of a
type relates the table of components before its text to the table after it, because a reference
means what the table says at that point.

The grammar comes in two styles. The lenient style allows zeros in front of numbers and lets a
pointer spell out the private address space. The strict style has one spelling for each number
and leaves the private space out. In both, the digits of a reference are counted in a word of
thirty-two bits, and their count must not be zero.

## Main definitions

* `Style`, `NumberText`, `NameText`, `ReferenceText`, `AttrsText` — the small parts
* `TypeText`, `TypesText` — one type, and several in a row
* `SymbolText` — a whole symbol
-/

namespace KernelSymbol

/-- How freely numbers and attributes are spelled. -/
inductive Style where
  | lenient
  | strict
  deriving DecidableEq

/-- A spelling of a number below the bound. -/
def NumberText (style : Style) (r : Radix) (n : Nat) (cs : List Char) : Prop :=
  n < numberBound ∧
    match style with
    | .lenient => cs ≠ [] ∧ (∀ c ∈ cs, r.isDigit c = true) ∧ r.value cs = n
    | .strict => cs = r.digits n

/-- A spelling of a name: its length in bytes, and the name. A name that starts with a digit
cannot be told from its length, and an empty name is none. -/
def NameText (style : Style) (name : String) (cs : List Char) : Prop :=
  ∃ c tail digits, name.toList = c :: tail ∧ c.isDigit = false ∧
    NumberText style .ten name.utf8ByteSize digits ∧ cs = digits ++ c :: tail

/-- A spelling of a reference to a place of the table. The digits of its number have to be counted
as some. -/
inductive ReferenceText (style : Style) : Nat → List Char → Prop where
  | first : ReferenceText style 0 ['S', '_']
  | later {n : Nat} {digits : List Char} (h : NumberText style .thirtySix n digits)
    (hc : Counted digits) : ReferenceText style (n + 1) (['S'] ++ digits ++ ['_'])

/-- A spelling of an address space, or of none. -/
inductive SpaceText (style : Style) : Option AddressSpace → List Char → Prop where
  | silent : SpaceText style none []
  | spelled (s : AddressSpace) (h : style = .strict → s ≠ .privateSpace) :
    SpaceText style (some s) (['U', '3', 'A', 'S'] ++ Radix.ten.digits s.number)

/-- A spelling of the attributes of a pointer, and whether it says anything. Qualifiers are all that
can be spelled of a set. -/
inductive AttrsText (style : Style) : PointerAttrs → Bool → List Char → Prop where
  | mk {space : Option AddressSpace} {cs : List Char} (h : SpaceText style space cs)
    {qs : QualifierSet} (hq : qs.Known) :
    AttrsText style ⟨space.getD default, qs⟩ (space.isSome || !qs.isEmpty)
      (cs ++ qs.toList.map Qualifier.letter)

/-- `TypeText style table cs t table'`: after the components in `table`, the text `cs` is a
spelling of the type `t`, and the components are then those in `table'`. -/
inductive TypeText (style : Style) : List (Component ArgType) → List Char → ArgType →
    List (Component ArgType) → Prop where
  | letter {table : List (Component ArgType)} {b : Builtin} {c : Char}
    (h : b.spelling = .letter c) : TypeText style table [c] (.builtin b) table
  | extended {table : List (Component ArgType)} {b : Builtin} {c : Char}
    (h : b.spelling = .extended c) : TypeText style table ['D', c] (.builtin b) table
  | source {table : List (Component ArgType)} {b : Builtin} {name : String} {cs : List Char}
    (h : b.spelling = .source name) (hn : NameText style name cs) :
    TypeText style table cs (.builtin b) table
  | named {table : List (Component ArgType)} {name : String} {cs : List Char}
    (h : ∀ b : Builtin, b.spelling ≠ .source name) (hn : NameText style name cs) :
    TypeText style table cs ⟨[], .named name⟩ (table ++ [.whole ⟨[], .named name⟩])
  | reference {table : List (Component ArgType)} {i : Nat} {t : ArgType} {cs : List Char}
    (h : table[i]? = some (.whole t)) (hr : ReferenceText style i cs) :
    TypeText style table cs t table
  | vector {table table' : List (Component ArgType)} {n : UInt32} {t : ArgType}
    {digits cs : List Char} (hn : n ≠ 0) (hs : t.isScalar = true)
    (hd : NumberText style .ten n.toNat digits) (ht : TypeText style table cs t table') :
    TypeText style table (['D', 'v'] ++ digits ++ ['_'] ++ cs) (.cons (.vector n) t)
      (table' ++ [.whole (.cons (.vector n) t)])
  | pointerTo {table : List (Component ArgType)} {i : Nat} {t : ArgType} {cs : List Char}
    (h : table[i]? = some (.whole t)) (hr : ReferenceText style i cs) :
    TypeText style table ('P' :: cs) (.pointer .plain t) (table ++ [.whole (.pointer .plain t)])
  | pointerToQualified {table : List (Component ArgType)} {i : Nat} {a : PointerAttrs}
    {t : ArgType} {cs : List Char} (h : table[i]? = some (.qualified a t))
    (hr : ReferenceText style i cs) :
    TypeText style table ('P' :: cs) (.pointer a t) (table ++ [.whole (.pointer a t)])
  | pointer {table table' : List (Component ArgType)} {a : PointerAttrs} {spelled : Bool}
    {t : ArgType} {as cs : List Char} (ha : AttrsText style a spelled as)
    (hs : spelled = false → cs.head? ≠ some 'S') (ht : TypeText style table cs t table') :
    TypeText style table ('P' :: as ++ cs) (.pointer a t)
      (table' ++ (if spelled then [.qualified a t] else []) ++ [.whole (.pointer a t)])

/-- Spellings of types in a row, each of which sees the components of those before it. -/
inductive TypesText (style : Style) : List (Component ArgType) → List Char → List ArgType →
    List (Component ArgType) → Prop where
  | nil {table : List (Component ArgType)} : TypesText style table [] [] table
  | cons {table₁ table₂ table₃ : List (Component ArgType)} {cs ds : List Char} {t : ArgType}
    {ts : List ArgType} (h : TypeText style table₁ cs t table₂)
    (hs : TypesText style table₂ ds ts table₃) :
    TypesText style table₁ (cs ++ ds) (t :: ts) table₃

/-- Spellings of a parameter list: a `v` on its own for none, and otherwise types in a row. -/
inductive ParamsText (style : Style) : List Char → List ArgType → List (Component ArgType) → Prop
    where
  | none : ParamsText style ['v'] [] []
  | some {cs : List Char} {ts : List ArgType} {table : List (Component ArgType)}
    (h : TypesText style [] cs ts table) (hne : cs ≠ []) (hv : cs ≠ ['v']) :
    ParamsText style cs ts table

/-- Spellings of a symbol of a function, and the components in it. -/
inductive SymbolText (style : Style) : List Char → String → List ArgType →
    List (Component ArgType) → Prop where
  | mk {name : String} {cs ds : List Char} {ts : List ArgType} {table : List (Component ArgType)}
    (hn : NameText style name cs) (hp : ParamsText style ds ts table) :
    SymbolText style (['_', 'Z'] ++ cs ++ ds) name ts table

end KernelSymbol
