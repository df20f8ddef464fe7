import KernelSymbol.Pool.Basic
import KernelSymbol.Signature
import KernelSymbol.Symbol.Code
import KernelSymbol.Symbol.Component

/-!
# Writing symbols

An encoder writes types one after the other behind a text and keeps a table of the components
that it completed. A component that is in the table is not written again but referred to. To find
out in one step whether a component was written before, the encoder interns every type into a
pool of its own and keys the table by the identities of the nodes there; equal types are then one
node, whoever built them. No node leaves that pool, so no type to write holds one of its nodes.

A component enters the table when its text is complete, so a chain is written from the outermost
node inwards while the components still open are kept on a list, and they are recorded from the
innermost outwards at the end.

## Main definitions

* `Encoder` — the text so far, the pool and the table
* `Encoder.node` — one more of its own nodes
* `Encoder.param` — one more parameter
* `Encoder.visit` — one more type, as a visitor of it would write it
* `Encoder.step` — either of them
* `encode`, `encodeType` — the symbol of a function, and the code of a type on its own
-/

namespace KernelSymbol

/-- The text so far, the nodes of the types in it, and the places of the components in it. -/
structure Encoder where
  text : String
  pool : Pool
  table : Std.HashMap (Component Tag) Nat

namespace Encoder

/-- An encoder that writes after a text. -/
def start (text : String) : Encoder := ⟨text, .emptyOf .encoder, ∅⟩

/-- How many components are in the table. -/
def candidates (e : Encoder) : Nat := e.table.size

/-- The encoder after some more text. -/
def write (e : Encoder) (text : String) : Encoder := { e with text := e.text ++ text }

/-- The encoder with a component put at the next place of the table, unless it has one. -/
def record (e : Encoder) (c : Component Tag) : Encoder :=
  { e with table := e.table.insertIfNew c e.table.size }

/-- The encoder with components recorded from left to right. -/
def recordAll (e : Encoder) (cs : List (Component Tag)) : Encoder := cs.foldl record e

/-- Writes a chain of the encoder's own nodes. `pending` holds the components that are complete
with it, innermost first. -/
def emit (leaf : Leaf) (leafTag : Tag) (e : Encoder) (pending : List (Component Tag)) :
    List (Link × Tag) → Encoder
  | [] =>
    match leaf with
    | .builtin b => (e.write b.code).recordAll pending
    | .named name =>
      match e.table[Component.whole leafTag]? with
      | some i => (e.write (backReference i)).recordAll pending
      | none => (e.write (sourceName name)).recordAll (.whole leafTag :: pending)
  | (link, tag) :: rest =>
    match e.table[Component.whole tag]? with
    | some i => (e.write (backReference i)).recordAll pending
    | none =>
      match link with
      | .vector length =>
        emit leaf leafTag (e.write (vectorCode length)) (.whole tag :: pending) rest
      | .pointer attrs =>
        if attrs.isPlain then emit leaf leafTag (e.write "P") (.whole tag :: pending) rest
        else
          let component := .qualified attrs (Handle.tag ⟨rest, leaf, leafTag⟩)
          match e.table[component]? with
          | some i => (e.write ("P" ++ backReference i)).recordAll (.whole tag :: pending)
          | none =>
            emit leaf leafTag (e.write ("P" ++ attrs.code))
              (component :: .whole tag :: pending) rest

/-- Writes one more of the encoder's own nodes. -/
def node (e : Encoder) (h : Handle) : Encoder := emit h.leaf h.leafTag e [] h.links

/-- Writes one more parameter. -/
def param (e : Encoder) (h : Handle) : Encoder :=
  let ⟨text, pool, table⟩ := e
  let (h, pool) := pool.canon h
  node ⟨text, pool, table⟩ h

/-- Writes one more type node by node. A builtin has no components, so it is not interned. -/
def visit (e : Encoder) (h : Handle) : Encoder :=
  match h.links, h.leaf with
  | [], .builtin b => e.write b.code
  | _, _ =>
    let ⟨text, pool, table⟩ := e
    let (h, pool) := pool.intern h
    node ⟨text, pool, table⟩ h

/-- One thing to write. -/
inductive Step where
  | param (h : Handle)
  | visit (h : Handle)

/-- Writes one more thing. -/
def step (e : Encoder) : Step → Encoder
  | .param h => e.param h
  | .visit h => e.visit h

end Encoder

/-- Why a signature has no symbol. -/
inductive EncodeError where
  /-- A name of length zero cannot be read back. -/
  | emptyName
  deriving DecidableEq

/-- The wording of a cause. -/
def EncodeError.message : EncodeError → String
  | .emptyName => "cannot mangle a function with an empty name"

/-- The symbol of a function: the name, and the parameters or a `v` for none. -/
def encode (s : Signature Handle) : Except EncodeError String :=
  if s.name = "" then .error .emptyName
  else
    let head := "_Z" ++ sourceName s.name
    if s.isEmpty then .ok (head ++ "v")
    else .ok (s.params.foldl Encoder.param (.start head)).text

/-- The code of a type on its own. -/
def encodeType (h : Handle) : String :=
  let (h, pool) := (Pool.emptyOf .encoder).intern h
  (Encoder.node ⟨"", pool, ∅⟩ h).text

end KernelSymbol
