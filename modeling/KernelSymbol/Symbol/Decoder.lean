import KernelSymbol.Pool.Build
import KernelSymbol.Signature
import KernelSymbol.Symbol.Component
import KernelSymbol.Symbol.Lexeme

/-!
# Reading symbols

A symbol is read parameter by parameter. The text of a parameter is read first; then its type is
built from the stem outwards, and every component that is completed on the way goes to the end of
a table for later references, whether or not it is there already.

Types are built in a pool. If the text turns out to be no symbol, the pool keeps what was built
until then.

## Main definitions

* `Decoder` — the pool and the table
* `Decoder.resolve`, `Decoder.close` — the type of a stem, and the types around it
* `Decoder.param` — reading and building one parameter
* `decode` — the signature that a symbol stands for
-/

namespace KernelSymbol

/-- The pool in which types are built, and the components read so far. -/
structure Decoder where
  pool : Pool
  table : Array (Component Handle)

namespace Decoder

/-- A decoder that has read nothing. -/
def start (pool : Pool) : Decoder := ⟨pool, #[]⟩

/-- The decoder with a component at the end of the table. -/
def record (d : Decoder) (c : Component Handle) : Decoder := { d with table := d.table.push c }

/-- What a place of the table holds, referred to at `place`. -/
def component (d : Decoder) (index : Nat) (place : List Char) :
    Except Fault (Component Handle) :=
  match d.table[index]? with
  | some c => .ok c
  | none => .error (.invalidReference place)

/-- Builds a pointer and records it. -/
def pointer (d : Decoder) (attrs : PointerAttrs) (h : Handle) : Handle × Decoder :=
  let ⟨pool, table⟩ := d
  let (h, pool) := pool.pointer attrs h
  (h, ⟨pool, table.push (.whole h)⟩)

/-- Builds a vector that starts at `place` and records it. -/
def vector (d : Decoder) (length : UInt32) (place : List Char) (h : Handle) :
    Except Fault Handle × Decoder :=
  let ⟨pool, table⟩ := d
  match pool.vector length h with
  | (.ok h, pool) => (.ok h, ⟨pool, table.push (.whole h)⟩)
  | (.error e, pool) => (.error (.invalidType place e), ⟨pool, table⟩)

/-- Builds a named type whose text starts at `place` and records it. -/
def named (d : Decoder) (name : String) (place : List Char) : Except Fault Handle × Decoder :=
  let ⟨pool, table⟩ := d
  match pool.named name with
  | (.ok h, pool) => (.ok h, ⟨pool, table.push (.whole h)⟩)
  | (.error e, pool) => (.error (.invalidType place e), ⟨pool, table⟩)

/-- Builds a builtin. Builtins are never referred to, so it is not recorded. -/
def builtin (d : Decoder) (b : Builtin) : Handle × Decoder :=
  let ⟨pool, table⟩ := d
  let (h, pool) := pool.builtin b
  (h, ⟨pool, table⟩)

/-! ### One parameter -/

/-- The type of a stem. A pointer to the attributes of a pointer is that pointer; the attributes
alone are no type. -/
def resolve (d : Decoder) : Stem → Except Fault Handle × Decoder
  | .builtin b =>
    let (h, d) := d.builtin b
    (.ok h, d)
  | .named name place => d.named name place
  | .reference index place =>
    match d.component index place with
    | .ok (.whole h) => (.ok h, d)
    | .ok (.qualified ..) => (.error (.invalidReference place), d)
    | .error e => (.error e, d)
  | .pointerTo index place =>
    match d.component index place with
    | .ok (.whole h) =>
      let (h, d) := d.pointer .plain h
      (.ok h, d)
    | .ok (.qualified attrs h) =>
      let (h, d) := d.pointer attrs h
      (.ok h, d)
    | .error e => (.error e, d)

/-- The type `h` inside a pointer or a vector. The attributes of a pointer are recorded if they
were spelled out, and before the pointer itself. -/
def closeOne (d : Decoder) (h : Handle) : Opening → Except Fault Handle × Decoder
  | .pointer attrs spelled =>
    let d := if spelled then d.record (.qualified attrs h) else d
    let (h, d) := d.pointer attrs h
    (.ok h, d)
  | .vector length place => d.vector length place h

/-- The type `h` inside pointers and vectors, the innermost of which comes first. -/
def close (d : Decoder) (h : Handle) : List Opening → Except Fault Handle × Decoder
  | [] => (.ok h, d)
  | opening :: rest =>
    match d.closeOne h opening with
    | (.ok h, d) => close d h rest
    | (.error e, d) => (.error e, d)

/-- The type of a parameter. -/
def build (d : Decoder) (lexeme : Lexeme) : Except Fault Handle × Decoder :=
  match d.resolve lexeme.stem with
  | (.ok h, d) => d.close h lexeme.openings
  | (.error e, d) => (.error e, d)

/-- Reads one parameter and builds its type. -/
def param (d : Decoder) (cs : List Char) : Read Handle × Decoder :=
  match readLexeme [] cs with
  | .error e => (.error e, d)
  | .ok (lexeme, rest) =>
    match d.build lexeme with
    | (.ok h, d) => (.ok (h, rest), d)
    | (.error e, d) => (.error e, d)

theorem param_length {d d' : Decoder} {cs rest : List Char} {h : Handle}
    (hp : d.param cs = (.ok (h, rest), d')) : rest.length < cs.length := by
  rw [param] at hp
  split at hp
  · cases hp
  next hl =>
    split at hp <;> cases hp
    exact readLexeme_length hl

/-! ### The whole text -/

/-- Reads parameters to the end of the text. `params` holds, in reverse, those read already. -/
def readParams (d : Decoder) (params : List Handle) (cs : List Char) :
    Except Fault (List Handle) × Decoder :=
  if cs.isEmpty then (.ok params.reverse, d)
  else
    match _h : d.param cs with
    | (.error e, d) => (.error e, d)
    | (.ok (h, rest), d) => readParams d (h :: params) rest
termination_by cs.length
decreasing_by exact param_length _h

end Decoder

/-- The name of the function, and the text of its parameters. -/
def readHead (cs : List Char) : Read String :=
  match after? ['_', 'Z'] cs with
  | none => .error .missingPrefix
  | some rest =>
    match readName rest with
    | .error e => .error e
    | .ok (name, rest) => if name = "" then .error .emptyName else .ok (name, rest)

/-- The parameters that a text stands for. A `v` on its own stands for none; otherwise there has
to be at least one. -/
def decodeParams (cs : List Char) (pool : Pool) : Except Fault (List Handle) × Pool :=
  if cs = ['v'] then (.ok [], pool)
  else if cs.isEmpty then (.error (.unexpectedEnd []), pool)
  else
    let (result, d) := (Decoder.start pool).readParams [] cs
    (result, d.pool)

/-- The signature that a symbol stands for, with the place of a fault as the text left there. -/
def decodeText (cs : List Char) (pool : Pool) : Except Fault (Signature Handle) × Pool :=
  match readHead cs with
  | .error e => (.error e, pool)
  | .ok (name, rest) =>
    match decodeParams rest pool with
    | (.ok params, pool) => (.ok ⟨name, params⟩, pool)
    | (.error e, pool) => (.error e, pool)

/-- The signature that a symbol stands for, built in a pool. The place of a fault is counted in
bytes. -/
def decode (text : String) (pool : Pool) :
    Except (DecodeError Nat) (Signature Handle) × Pool :=
  match decodeText text.toList pool with
  | (.ok s, pool) => (.ok s, pool)
  | (.error e, pool) => (.error (e.map fun rest => text.utf8ByteSize - byteCount rest), pool)

end KernelSymbol
