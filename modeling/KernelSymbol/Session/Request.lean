import KernelSymbol.ArgType.Description
import KernelSymbol.Pool.Build
import KernelSymbol.Symbol.Decoder
import KernelSymbol.Symbol.Encoder

/-!
# Requests to a session, and replies

A session works on pools and on a growing list of handles. Requests name handles by their numbers
in that list and give all other arguments raw.

## Main definitions

* `Session.Request` — what can be asked of a session
* `Session.Node`, `Session.Reply` — a handle as it is reported, and the answers
-/

namespace KernelSymbol

namespace Session

/-- What can be asked of a session. Most requests work in the current pool. -/
inductive Request where
  /-- A type built outside every pool, of fresh nodes only. -/
  | outside (type : Description)
  /-- A fresh pointer, outside every pool, to a node. -/
  | outsidePointer (target space : Nat) (slots : List Nat)
  /-- A fresh pointer, outside every pool, to a node, with a byte of qualifiers. -/
  | outsideRetaining (target space : Nat) (byte : UInt8)
  /-- A fresh vector, outside every pool, of a node. -/
  | outsideVector (element : Nat) (length : UInt32)
  /-- The node below a node. -/
  | child (handle : Nat)
  /-- The own node for a type. -/
  | internType (type : Description)
  /-- The own node for a copy of a node. -/
  | intern (handle : Nat)
  /-- The own node for a node. -/
  | canon (handle : Nat)
  /-- The own node of the builtin with a number. -/
  | builtin (number : Nat)
  /-- The own node of the builtin with a name. -/
  | builtinNamed (name : String)
  /-- The own node of a plain pointer. -/
  | pointer (target : Nat)
  /-- The own node of a pointer with attributes. -/
  | pointerWith (target space : Nat) (slots : List Nat)
  /-- The own node of a pointer with a byte of qualifiers. -/
  | pointerRetaining (target space : Nat) (byte : UInt8)
  /-- The own node of a vector. -/
  | vector (element : Nat) (length : UInt32)
  /-- The own node of a named type. -/
  | named (name : String)
  /-- The own node of a pointer into another address space. -/
  | withSpace (handle space : Nat)
  /-- The own node of a pointer with one qualifier added or removed. -/
  | withQualifier (handle slot : Nat) (on : Bool)
  /-- The own node for a node, if it is there already. -/
  | find (handle : Nat)
  /-- Whether the pool has a node for a node. -/
  | contains (handle : Nat)
  /-- Whether a node is the pool's own. -/
  | owns (handle : Nat)
  /-- Whether the pool has no nodes. -/
  | isEmpty
  /-- Whether two handles are the same node, and whether they have equal types. -/
  | same (first second : Nat)
  /-- The types of the stored nodes. -/
  | types
  /-- The diagnostic output of the pool. -/
  | debug
  /-- Work in another pool from now on. -/
  | usePool (number : Nat)
  /-- The symbol of a function. -/
  | encode (name : String) (params : List Nat)
  /-- The function of a symbol. -/
  | decode (text : String)

/-- A handle as it is reported: its number, the least number of the same node, whether the
current pool owns the node, and its type. -/
structure Node where
  number : Nat
  firstNumber : Nat
  own : Bool
  type : ArgType

/-- What a session answers. -/
inductive Reply where
  | node (n : Node)
  | nothing
  | flag (b : Bool)
  | sameness (node equal : Bool)
  | types (ts : List ArgType)
  | text (text : String)
  | signature (s : Signature Node)
  | buildError (e : BuildError)
  | encodeError (e : EncodeError)
  | decodeError (e : DecodeError Nat)
  /-- A request named a handle that does not exist. -/
  | unknownHandle

end Session

end KernelSymbol
