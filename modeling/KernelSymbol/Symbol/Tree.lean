import KernelSymbol.Signature
import KernelSymbol.Symbol.Grammar

/-!
# Parse trees of symbols

The grammar says which texts are symbols and what they stand for, but not how a text came to be
derived. A parse tree does: it has a node for every builtin, name, reference, vector and pointer
that is spelled, and keeps the digits of each number as they stand in the text.

Three things are said of a tree apart from each other: its text, whether each of its parts is
spelled as it has to be, and what it stands for. The first two are matters of the tree alone. The
third depends on the components in front of it, because references do.

## Main definitions

* `TypeTree`, `SymbolTree` — how a type, and a whole symbol, is spelled
* `TypeTree.text`, `SymbolTree.text` — the text itself
* `TypeTree.Spelled`, `SymbolTree.Spelled` — that the text is read off in one way only
* `TypeTree.meaning?`, `TypeTree.meanings?` — what types stand for, and the components after them
* `TypeTree.numerals`, `TypeTree.spaces` — the numbers and the address spaces in a text
* `SymbolTree.Derives` — a tree of a text, and what it says that the text stands for
* `SymbolTree.Counted` — a tree whose references have digits that are counted as some
-/

namespace KernelSymbol

/-! ### Numbers and names -/

/-- No zero stands in front of another digit. -/
def NoSpareZero (digits : List Char) : Prop := digits.head? = some '0' → digits = ['0']

instance (digits : List Char) : Decidable (NoSpareZero digits) :=
  inferInstanceAs (Decidable (_ → _))

/-- Digits that say how many bytes a name has, and that end where the name starts. -/
structure Measures (digits : List Char) (name : String) : Prop where
  digits_ne_nil : digits ≠ []
  isDigit : ∀ c ∈ digits, c.isDigit = true
  value_eq : Radix.ten.value digits = name.utf8ByteSize
  starts : ∃ c tail, name.toList = c :: tail ∧ c.isDigit = false

-- The lists are gone through, so that nothing is looked for among all characters.
instance (digits : List Char) (name : String) : Decidable (Measures digits name) :=
  have : Decidable (∀ c ∈ digits, c.isDigit = true) := List.decidableBAll _ _
  have : Decidable (∃ c ∈ name.toList.head?, c.isDigit = false) := Option.decidableExistsMem _
  decidable_of_iff (digits ≠ [] ∧ (∀ c ∈ digits, c.isDigit = true) ∧
      Radix.ten.value digits = name.utf8ByteSize ∧ ∃ c ∈ name.toList.head?, c.isDigit = false) <| by
    constructor
    · rintro ⟨hne, hd, hv, c, hc, hcd⟩
      obtain ⟨tail, ht⟩ := List.head?_eq_some_iff.1 hc
      exact ⟨hne, hd, hv, c, tail, ht, hcd⟩
    · rintro ⟨hne, hd, hv, c, tail, ht, hcd⟩
      exact ⟨hne, hd, hv, c, by simp [ht], hcd⟩

/-- The place that a reference is to. Without digits it is the first. -/
def referencePlace : List Char → Nat
  | [] => 0
  | c :: digits => Radix.thirtySix.value (c :: digits) + 1

/-- The text of a reference. -/
def referenceText (digits : List Char) : List Char := 'S' :: digits ++ ['_']

/-- The text of an address space, or of none. -/
def spaceText : Option AddressSpace → List Char
  | none => []
  | some s => ['U', '3', 'A', 'S', Radix.digitChar s.number]

/-- If a number is that of a reference, its digits are counted as some. -/
def NumeralCounted (n : Radix × List Char) : Prop := n.1 = .thirtySix → n.2 ≠ [] → Counted n.2

instance (n : Radix × List Char) : Decidable (NumeralCounted n) :=
  inferInstanceAs (Decidable (_ → _ → _))

/-! ### Types -/

/-- How a type is spelled. -/
inductive TypeTree where
  /-- A builtin that has letters. -/
  | builtin (b : Builtin)
  /-- A name behind its length, of a builtin or not. -/
  | named (digits : List Char) (name : String)
  /-- A reference to a type. -/
  | reference (digits : List Char)
  /-- A vector of what is spelled behind its length. -/
  | vector (digits : List Char) (element : TypeTree)
  /-- A pointer to what is referred to, which may have attributes. -/
  | pointerTo (digits : List Char)
  /-- A pointer to what is spelled behind its attributes. -/
  | pointer (space : Option AddressSpace) (qualifiers : QualifierSet) (target : TypeTree)
  deriving DecidableEq

namespace TypeTree

/-- The text of a type. -/
def text : TypeTree → List Char
  | builtin b => b.code.toList
  | named digits name => digits ++ name.toList
  | reference digits => referenceText digits
  | vector digits element => ['D', 'v'] ++ digits ++ ['_'] ++ element.text
  | pointerTo digits => 'P' :: referenceText digits
  | pointer space qualifiers target =>
    'P' :: spaceText space ++ qualifiers.toList.map Qualifier.letter ++ target.text

/-- Every part is spelled as it has to be: builtins by letters if they have any, numbers by digits,
names behind their lengths. A set of qualifiers has no other bits, and an `S` behind a `P` is always
that of a pointer to what is referred to. -/
def Spelled : TypeTree → Prop
  | builtin b => ∀ name, b.spelling ≠ .source name
  | named digits name => Measures digits name
  | reference digits => ∀ c ∈ digits, Radix.thirtySix.isDigit c = true
  | vector digits element => digits ≠ [] ∧ (∀ c ∈ digits, c.isDigit = true) ∧ element.Spelled
  | pointerTo digits => ∀ c ∈ digits, Radix.thirtySix.isDigit c = true
  | pointer space qualifiers target =>
    qualifiers.Known ∧ ((space.isSome || !qualifiers.isEmpty) = false →
      target.text.head? ≠ some 'S') ∧ target.Spelled

instance decidableSpelled : (tree : TypeTree) → Decidable tree.Spelled
  | builtin b =>
    match h : b.spelling with
    | .letter _ | .extended _ => isTrue fun _ he => nomatch h.symm.trans he
    | .source name => isFalse fun hb => hb name h
  | named digits name => inferInstanceAs (Decidable (Measures digits name))
  | reference digits => List.decidableBAll _ digits
  | vector digits element =>
    have := decidableSpelled element
    have : Decidable (∀ c ∈ digits, c.isDigit = true) := List.decidableBAll _ _
    inferInstanceAs (Decidable (_ ∧ _ ∧ element.Spelled))
  | pointerTo digits => List.decidableBAll _ digits
  | pointer _ _ target =>
    have := decidableSpelled target
    inferInstanceAs (Decidable (_ ∧ _ ∧ target.Spelled))

/-- The numbers in a text, with their radixes. -/
def numerals : TypeTree → List (Radix × List Char)
  | builtin _ => []
  | named digits _ => [(.ten, digits)]
  | reference digits => [(.thirtySix, digits)]
  | vector digits element => (.ten, digits) :: element.numerals
  | pointerTo digits => [(.thirtySix, digits)]
  | pointer _ _ target => target.numerals

/-- The address spaces in a text. -/
def spaces : TypeTree → List AddressSpace
  | vector _ element => element.spaces
  | pointer space _ target => space.toList ++ target.spaces
  | _ => []

/-- What a tree stands for behind the components in `table`, and the components then. A reference
may stand for nothing, and so may a vector. -/
def meaning? (table : List (Component ArgType)) :
    TypeTree → Option (ArgType × List (Component ArgType))
  | builtin b => some (.builtin b, table)
  | named _ name =>
    match Builtin.ofSpelling? (.source name) with
    | some b => some (.builtin b, table)
    | none => some (⟨[], .named name⟩, table ++ [.whole ⟨[], .named name⟩])
  | reference digits =>
    match table[referencePlace digits]? with
    | some (.whole t) => some (t, table)
    | _ => none
  | vector digits element =>
    match element.meaning? table with
    | some (t, table) =>
      let n := Radix.ten.value digits
      if 0 < n ∧ n < UInt32.size ∧ t.isScalar = true then
        let t := .cons (.vector (UInt32.ofNat n)) t
        some (t, table ++ [.whole t])
      else none
    | none => none
  | pointerTo digits =>
    match table[referencePlace digits]? with
    | some (.whole t) => some (.pointer .plain t, table ++ [.whole (.pointer .plain t)])
    | some (.qualified a t) => some (.pointer a t, table ++ [.whole (.pointer a t)])
    | none => none
  | pointer space qualifiers target =>
    match target.meaning? table with
    | some (t, table) =>
      let a : PointerAttrs := ⟨space.getD default, qualifiers⟩
      let attributes := if space.isSome || !qualifiers.isEmpty then [.qualified a t] else []
      some (.pointer a t, table ++ attributes ++ [.whole (.pointer a t)])
    | none => none

/-- What trees in a row stand for, each of which sees the components of those before it. -/
def meanings? (table : List (Component ArgType)) :
    List TypeTree → Option (List ArgType × List (Component ArgType))
  | [] => some ([], table)
  | tree :: trees =>
    match tree.meaning? table with
    | some (t, table) =>
      match meanings? table trees with
      | some (ts, table) => some (t :: ts, table)
      | none => none
    | none => none

end TypeTree

/-! ### Symbols -/

/-- How a symbol is spelled: the name of the function behind its length, and the parameters. -/
structure SymbolTree where
  digits : List Char
  name : String
  params : List TypeTree
  deriving DecidableEq

namespace SymbolTree

/-- The text of the parameters: a `v` for none, and otherwise types in a row. -/
def body (tree : SymbolTree) : List Char :=
  if tree.params.isEmpty then ['v'] else tree.params.flatMap TypeTree.text

/-- The text of a symbol. -/
def text (tree : SymbolTree) : List Char :=
  ['_', 'Z'] ++ tree.digits ++ tree.name.toList ++ tree.body

/-- Every part is spelled as it has to be, and a `v` on its own stands for no parameters. -/
structure Spelled (tree : SymbolTree) : Prop where
  name : Measures tree.digits tree.name
  params : ∀ t ∈ tree.params, t.Spelled
  body_ne : tree.params ≠ [] → tree.body ≠ ['v']

instance (tree : SymbolTree) : Decidable tree.Spelled :=
  decidable_of_iff (Measures tree.digits tree.name ∧ (∀ t ∈ tree.params, t.Spelled) ∧
      (tree.params ≠ [] → tree.body ≠ ['v']))
    ⟨fun h => ⟨h.1, h.2.1, h.2.2⟩, fun h => ⟨h.name, h.params, h.body_ne⟩⟩

/-- The numbers in a symbol, with their radixes. -/
def numerals (tree : SymbolTree) : List (Radix × List Char) :=
  (.ten, tree.digits) :: tree.params.flatMap TypeTree.numerals

/-- The address spaces in a symbol. -/
def spaces (tree : SymbolTree) : List AddressSpace := tree.params.flatMap TypeTree.spaces

/-- The digits of every reference that has any are counted as some. -/
def Counted (tree : SymbolTree) : Prop := ∀ n ∈ tree.numerals, NumeralCounted n

instance (tree : SymbolTree) : Decidable tree.Counted :=
  inferInstanceAs (Decidable (∀ n ∈ tree.numerals, NumeralCounted n))

/-- A text has this tree, and stands for a signature with these components by it. -/
structure Derives (tree : SymbolTree) (text : String) (f : Signature ArgType)
    (table : List (Component ArgType)) : Prop where
  text_eq : tree.text = text.toList
  spelled : tree.Spelled
  /-- Every number stays below the bound. -/
  bounded : ∀ n ∈ tree.numerals, n.1.value n.2 < numberBound
  name_eq : tree.name = f.name
  meaning_eq : TypeTree.meanings? [] tree.params = some (f.params, table)

instance (tree : SymbolTree) (text : String) (f : Signature ArgType)
    (table : List (Component ArgType)) : Decidable (tree.Derives text f table) :=
  decidable_of_iff (tree.text = text.toList ∧ tree.Spelled ∧
      (∀ n ∈ tree.numerals, n.1.value n.2 < numberBound) ∧ tree.name = f.name ∧
      TypeTree.meanings? [] tree.params = some (f.params, table))
    ⟨fun h => ⟨h.1, h.2.1, h.2.2.1, h.2.2.2.1, h.2.2.2.2⟩,
      fun h => ⟨h.text_eq, h.spelled, h.bounded, h.name_eq, h.meaning_eq⟩⟩

end SymbolTree

end KernelSymbol
