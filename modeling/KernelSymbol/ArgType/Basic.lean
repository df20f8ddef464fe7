import KernelSymbol.Attribute.Builtin
import KernelSymbol.Attribute.Pointer

/-!
# Parameter types

The type of a kernel parameter is a chain: every node but the last has exactly one node below
it. `ArgType` stores the chain flat, as the list of its links from the outermost inwards and the
leaf that ends it, so that every walk over a type is a walk over a list and depth costs no call
stack.

The structure on its own admits chains that no kernel has, such as a vector of pointers. The
constructors of `KernelSymbol.ArgType.Checked` refuse them, and `ArgType.WellFormed` says which
chains remain.

## Main definitions

* `Link`, `Leaf`, `ArgType` — a node above another one, a node that ends a chain, a chain
* `ArgType.builtin`, `ArgType.cons`, `ArgType.pointer` — a builtin, one more node, a pointer
* `Link.Known`, `ArgType.Known` — no set of qualifiers has bits that belong to no qualifier
* `ArgType.kind`, `ArgType.child?`, `ArgType.depth` — the outermost node and what is below it
* `ArgType.cast` — succeeds on types of the wanted kind
* `ArgType.subchains` — the type, what is below it, and so on down to the leaf

## Main results

* `ArgType.ind` — induction from the leaf outwards
* `ArgType.length_subchains` — a type of depth `n` has `n + 1` sub-chains
-/

namespace KernelSymbol

/-- A node that has another one below it. -/
inductive Link where
  /-- A pointer to what is below. -/
  | pointer (attrs : PointerAttrs)
  /-- A vector whose elements are below. -/
  | vector (length : UInt32)
  deriving DecidableEq, Hashable

/-- A node that ends a chain. -/
inductive Leaf where
  /-- A builtin type. -/
  | builtin (b : Builtin)
  /-- A structure or an opaque object that is known by name only. -/
  | named (name : String)
  deriving DecidableEq, Hashable

/-- The type of a kernel parameter: its links, outermost first, and the leaf at their end. -/
@[ext] structure ArgType where
  links : List Link
  leaf : Leaf
  deriving BEq

/-- The kind of a link. -/
def Link.kind : Link → Kind
  | .pointer _ => .pointer
  | .vector _ => .vector

/-- The kind of a leaf. -/
def Leaf.kind : Leaf → Kind
  | .builtin _ => .primitive
  | .named _ => .userDefined

/-- The qualifiers of a pointer are all known: no bit of its set is left over. -/
def Link.Known : Link → Prop
  | .pointer attrs => attrs.qualifiers.Known
  | .vector _ => True

instance : (l : Link) → Decidable l.Known
  | .pointer attrs => inferInstanceAs (Decidable attrs.qualifiers.Known)
  | .vector _ => inferInstanceAs (Decidable True)

namespace ArgType

/-! ### Equality -/

/-- Two types are equal when their chains agree node by node. -/
instance : LawfulBEq ArgType where
  rfl {t} := by
    rcases t with ⟨ls, l⟩
    change (ls == ls && l == l) = true
    simp
  eq_of_beq {s t} h := by
    rcases s with ⟨ls, l⟩
    rcases t with ⟨ms, m⟩
    have h : (ls == ms && l == m) = true := h
    simpa using h

instance : DecidableEq ArgType := fun s t => decidable_of_iff ((s == t) = true) beq_iff_eq

/-! ### Building -/

/-- The type with one more node above it. -/
def cons (l : Link) (t : ArgType) : ArgType := ⟨l :: t.links, t.leaf⟩

/-- A builtin type. -/
def builtin (b : Builtin) : ArgType := ⟨[], .builtin b⟩

/-- A pointer to `t`. -/
def pointer (attrs : PointerAttrs) (t : ArgType) : ArgType := cons (.pointer attrs) t

@[simp] theorem links_cons (l : Link) (t : ArgType) : (cons l t).links = l :: t.links := rfl

@[simp] theorem leaf_cons (l : Link) (t : ArgType) : (cons l t).leaf = t.leaf := rfl

/-- The qualifiers of every pointer are known. -/
def Known (t : ArgType) : Prop := ∀ l ∈ t.links, l.Known

instance (t : ArgType) : Decidable t.Known := List.decidableBAll _ t.links

theorem known_cons {l : Link} {t : ArgType} : (cons l t).Known ↔ l.Known ∧ t.Known :=
  List.forall_mem_cons

/-- Induction from the leaf outwards. -/
@[elab_as_elim] theorem ind {motive : ArgType → Prop} (leaf : ∀ l, motive ⟨[], l⟩)
    (cons : ∀ l t, motive t → motive (cons l t)) (t : ArgType) : motive t := by
  rcases t with ⟨ls, l⟩
  induction ls with
  | nil => exact leaf l
  | cons k ls ih => exact cons k ⟨ls, l⟩ ih

/-! ### The outermost node -/

/-- The kind of the outermost node. -/
def kind (t : ArgType) : Kind :=
  match t.links with
  | [] => t.leaf.kind
  | l :: _ => l.kind

/-- What the outermost node points to or consists of, if it is not a leaf. -/
def child? (t : ArgType) : Option ArgType :=
  match t.links with
  | [] => none
  | _ :: rest => some ⟨rest, t.leaf⟩

/-- The builtin that a type consists of, if it is one. -/
def builtin? (t : ArgType) : Option Builtin :=
  match t.links, t.leaf with
  | [], .builtin b => some b
  | _, _ => none

/-- Whether a type can be the element of a vector. -/
def isScalar (t : ArgType) : Bool :=
  match t.builtin? with
  | some b => b.isScalar
  | none => false

/-- The type itself, if it is of the wanted kind. -/
def cast (t : ArgType) (wanted : Kind) : Except BuildError ArgType :=
  if t.kind = wanted then .ok t else .error (.kindMismatch wanted t.kind)

@[simp] theorem kind_cons (l : Link) (t : ArgType) : (cons l t).kind = l.kind := rfl

@[simp] theorem child?_cons (l : Link) (t : ArgType) : (cons l t).child? = some t := rfl

@[simp] theorem child?_leaf (l : Leaf) : child? ⟨[], l⟩ = none := rfl

/-! ### The whole chain -/

/-- How many nodes are below the outermost one. -/
def depth (t : ArgType) : Nat := t.links.length

/-- The type, what is below it, and so on down to the leaf. -/
def subchains (t : ArgType) : List ArgType := go t.links
where
  /-- The sub-chains above a suffix of the links. -/
  go : List Link → List ArgType
    | [] => [⟨[], t.leaf⟩]
    | l :: rest => ⟨l :: rest, t.leaf⟩ :: go rest

@[simp] theorem depth_cons (l : Link) (t : ArgType) : (cons l t).depth = t.depth + 1 := rfl

@[simp] theorem subchains_leaf (l : Leaf) : subchains ⟨[], l⟩ = [⟨[], l⟩] := rfl

theorem subchains_cons (l : Link) (t : ArgType) :
    (cons l t).subchains = cons l t :: t.subchains := by
  have key : ∀ (s : ArgType), s.leaf = t.leaf → ∀ ls,
      subchains.go s ls = subchains.go t ls := by
    intro s h ls
    induction ls with
    | nil => simp [subchains.go, h]
    | cons k ls ih => simp [subchains.go, h, ih]
  simp only [subchains, links_cons, subchains.go, leaf_cons]
  rw [key (cons l t) rfl]
  rfl

theorem mem_subchains_self (t : ArgType) : t ∈ t.subchains := by
  induction t using ind with
  | leaf l => simp
  | cons l t ih => simp [subchains_cons]

theorem length_subchains (t : ArgType) : t.subchains.length = t.depth + 1 := by
  induction t using ind with
  | leaf l => rfl
  | cons l t ih => simp [subchains_cons, ih]

end ArgType

end KernelSymbol
