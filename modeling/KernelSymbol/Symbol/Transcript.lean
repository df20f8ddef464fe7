import KernelSymbol.Signature
import KernelSymbol.Symbol.Code
import KernelSymbol.Symbol.Component

/-!
# Symbols, told by types alone

What an encoder writes can be said without a pool: a table of types and attributed types takes
the place of the table of nodes, and a component is looked up by comparing types. This is slow,
because every look-up walks the whole table and every comparison a whole type, but nothing in it
depends on where a type was built.

A transcript is the text so far and the table, in the order in which components were completed.
The attributes of a pointer enter the table in front of the pointer. They are never referred to.

## Main definitions

* `Transcript` — the text so far, and the components in it
* `Transcript.type` — one more type
* `Transcript.signature` — a whole signature
-/

namespace KernelSymbol

/-- The text so far, and the components completed in it. -/
structure Transcript where
  text : String
  table : List (Component ArgType)
  deriving DecidableEq

namespace Transcript

/-- A transcript that starts with a text. -/
def start (text : String) : Transcript := ⟨text, []⟩

/-- The transcript after some more text. -/
def write (s : Transcript) (text : String) : Transcript := { s with text := s.text ++ text }

/-- The transcript with a component at the end of the table. -/
def record (s : Transcript) (c : Component ArgType) : Transcript :=
  { s with table := s.table ++ [c] }

/-- Writes a component that can be referred to: a reference if it is in the table, and otherwise
its text, after which it is in the table. -/
def refer (s : Transcript) (t : ArgType) (spell : Transcript → Transcript) : Transcript :=
  match s.table.idxOf? (.whole t) with
  | some i => s.write (backReference i)
  | none => (spell s).record (.whole t)

/-- Writes the chain of links and a leaf. -/
def chain (leaf : Leaf) (s : Transcript) : List Link → Transcript
  | [] =>
    match leaf with
    | .builtin b => s.write b.code
    | .named name => s.refer ⟨[], leaf⟩ (·.write (sourceName name))
  | .vector n :: rest =>
    s.refer ⟨.vector n :: rest, leaf⟩ fun s => chain leaf (s.write (vectorCode n)) rest
  | .pointer a :: rest =>
    s.refer ⟨.pointer a :: rest, leaf⟩ fun s =>
      let s := chain leaf (s.write ("P" ++ a.code)) rest
      if a.isPlain then s else s.record (.qualified a ⟨rest, leaf⟩)

/-- Writes one more type. -/
def type (s : Transcript) (t : ArgType) : Transcript := chain t.leaf s t.links

/-- The text of a signature with a name. -/
def signature (s : Signature ArgType) : Transcript :=
  let head := start ("_Z" ++ sourceName s.name)
  if s.isEmpty then head.write "v" else s.params.foldl type head

end Transcript

end KernelSymbol
