import KernelSymbol.ArgType.Basic

/-!
# The diagnostic output of a type

Unlike the readable form, the diagnostic output names every node and all of its data, and quotes
names. Like it, the output is flat: what nodes write before their child, from the outermost
inwards, the leaf, and what they write after it, from the innermost outwards.

Quoting writes a quotation mark and a backslash behind a backslash, the line feed, the tabulator,
the carriage return and the null character as a backslash and a letter or digit, and any other
control character of ASCII as its number in braces. Characters beyond ASCII stand for themselves.

## Main definitions

* `escape`, `quoted` — a character, and a text, as diagnostic output shows it
* `Link.debugOpening`, `Link.debugClosing` — what a link writes around what is below it
* `ArgType.debug` — the diagnostic output of a type
-/

namespace KernelSymbol

/-- A character as it stands between quotation marks. -/
def escape (c : Char) : String :=
  if c = '"' then "\\\""
  else if c = '\\' then "\\\\"
  else if c = '\n' then "\\n"
  else if c = '\t' then "\\t"
  else if c = '\r' then "\\r"
  else if c.toNat = 0 then "\\0"
  else if c.toNat < 32 ∨ c.toNat = 127 then
    "\\u\x7b" ++ String.ofList (Nat.toDigits 16 c.toNat) ++ "\x7d"
  else c.toString

/-- A text between quotation marks. -/
def quoted (text : String) : String :=
  text.toList.foldl (fun out c => out ++ escape c) "\"" ++ "\""

/-- What a link writes before what is below it. -/
def Link.debugOpening : Link → String
  | .pointer _ => "Pointer(PointerType \x7b pointee: "
  | .vector _ => "Vector(VectorType \x7b element: "

/-- What a link writes after what is below it. -/
def Link.debugClosing : Link → String
  | .pointer attrs =>
    ", address_space: " ++ attrs.space.label ++ ", qualifiers: " ++ attrs.qualifiers.debug
      ++ " \x7d)"
  | .vector length => ", len: " ++ toString length.toNat ++ " \x7d)"

/-- The diagnostic output of a leaf. -/
def Leaf.debug : Leaf → String
  | .builtin b => "Primitive(PrimitiveType \x7b primitive: " ++ b.label ++ " \x7d)"
  | .named name => "UserDefined(UserDefinedType \x7b name: " ++ quoted name ++ " \x7d)"

/-- The diagnostic output of a type. -/
def ArgType.debug (t : ArgType) : String :=
  let text := t.links.foldl (fun text l => text ++ l.debugOpening) ""
  t.links.foldr (fun l text => text ++ l.debugClosing) (text ++ t.leaf.debug)

end KernelSymbol
