import KernelSymbol.ArgType.Basic

/-!
# Handles: types whose nodes have an identity

Two types can have the same shape and still be different nodes in memory, and a node can be part
of many types. A handle is a type in which every node carries a tag, its identity: who made the
node, and a number that this maker gave to no other node. Handles share a node exactly if they
carry its tag.

Comparing two handles may stop as soon as both walks reach the same node. The shortcut is sound
when equal tags mean equal nodes, as they do for handles that come from their makers.

## Main definitions

* `Maker`, `Tag`, `Handle` — who makes nodes, the identity of a node, a type with identities
* `Handle.type` — the type alone
* `Handle.outside` — a type whose nodes are all fresh
* `Handle.sameNode`, `Handle.equals` — identity, and equality that stops at a shared node

## Main results

* `Handle.type_cons`, `Handle.child?_cons` — the outermost node and what is below it
* `Handle.type_outside` — giving identities does not change the type
-/

namespace KernelSymbol

/-- Who made a node. -/
inductive Maker where
  /-- Nobody in particular: a node built outside every pool. -/
  | outside
  /-- The pool with a number. -/
  | pool (id : Nat)
  /-- An encoder, in the pool that it keeps to itself. -/
  | encoder
  deriving DecidableEq, Hashable

/-- The identity of a node: its maker, and a number that the maker uses once. -/
structure Tag where
  maker : Maker
  index : Nat
  deriving DecidableEq, Hashable

/-- A type whose nodes carry their identities, outermost link first. -/
@[ext] structure Handle where
  links : List (Link × Tag)
  leaf : Leaf
  leafTag : Tag
  deriving DecidableEq

namespace Handle

/-! ### The outermost node -/

/-- The identity of the outermost node. -/
def tag (h : Handle) : Tag :=
  match h.links with
  | [] => h.leafTag
  | (_, t) :: _ => t

/-- A handle to one more node, with its identity, above `h`. -/
def cons (l : Link) (t : Tag) (h : Handle) : Handle := { h with links := (l, t) :: h.links }

/-- The node below the outermost one, if there is one. -/
def child? (h : Handle) : Option Handle :=
  match h.links with
  | [] => none
  | _ :: rest => some { h with links := rest }

/-- The type that a handle has, without the identities. -/
def type (h : Handle) : ArgType := ⟨h.links.map Prod.fst, h.leaf⟩

/-- The kind of the outermost node. -/
def kind (h : Handle) : Kind :=
  match h.links with
  | [] => h.leaf.kind
  | (l, _) :: _ => l.kind

@[simp] theorem tag_leaf (l : Leaf) (t : Tag) : tag ⟨[], l, t⟩ = t := rfl

@[simp] theorem tag_cons (l : Link) (t : Tag) (h : Handle) : (cons l t h).tag = t := rfl

@[simp] theorem child?_leaf (l : Leaf) (t : Tag) : child? ⟨[], l, t⟩ = none := rfl

@[simp] theorem child?_cons (l : Link) (t : Tag) (h : Handle) : (cons l t h).child? = some h := rfl

@[simp] theorem type_leaf (l : Leaf) (t : Tag) : type ⟨[], l, t⟩ = ⟨[], l⟩ := rfl

@[simp] theorem type_cons (l : Link) (t : Tag) (h : Handle) :
    (cons l t h).type = ArgType.cons l h.type := rfl

@[simp] theorem kind_type (h : Handle) : h.type.kind = h.kind := by
  rcases h with ⟨_ | ⟨⟨l, t⟩, ls⟩, leaf, t'⟩ <;> rfl

/-- Induction from the leaf outwards. -/
@[elab_as_elim] theorem ind {motive : Handle → Prop} (leaf : ∀ l t, motive ⟨[], l, t⟩)
    (cons : ∀ l t h, motive h → motive (cons l t h)) (h : Handle) : motive h := by
  rcases h with ⟨ls, l, t⟩
  induction ls with
  | nil => exact leaf l t
  | cons k ls ih => exact cons k.1 k.2 ⟨ls, l, t⟩ ih

/-! ### The whole chain -/

/-- A type whose nodes are all fresh: they are numbered from `start`, the leaf first and then
the links from the outermost inwards. -/
def outside (start : Nat) (t : ArgType) : Handle :=
  { links := (t.links.zipIdx (start + 1)).map fun (l, i) => (l, ⟨.outside, i⟩)
    leaf := t.leaf
    leafTag := ⟨.outside, start⟩ }

@[simp] theorem type_outside (start : Nat) (t : ArgType) : (outside start t).type = t := by
  have key : ∀ (ls : List Link) (n : Nat),
      ((ls.zipIdx n).map fun (l, i) => (l, (⟨.outside, i⟩ : Tag))).map Prod.fst = ls := by
    intro ls
    induction ls with
    | nil => exact fun _ => rfl
    | cons l ls ih =>
      intro n
      simpa using ih (n + 1)
  simp only [type, outside, key]

/-- The handle, what is below it, and so on down to the leaf. -/
def subchains (h : Handle) : List Handle := go h.links
where
  /-- The sub-chains above a suffix of the links. -/
  go : List (Link × Tag) → List Handle
    | [] => [{ h with links := [] }]
    | l :: rest => { h with links := l :: rest } :: go rest

@[simp] theorem subchains_leaf (l : Leaf) (t : Tag) : subchains ⟨[], l, t⟩ = [⟨[], l, t⟩] := rfl

theorem subchains_cons (l : Link) (t : Tag) (h : Handle) :
    (cons l t h).subchains = cons l t h :: h.subchains := by
  have key : ∀ ls, subchains.go (cons l t h) ls = subchains.go h ls := by
    intro ls
    induction ls with
    | nil => rfl
    | cons k ls ih => rw [subchains.go, subchains.go, ih]; rfl
  rw [subchains, subchains, ← key]
  rfl

theorem mem_subchains_self (h : Handle) : h ∈ h.subchains := by
  induction h using ind with
  | leaf l t => simp
  | cons l t h => simp [subchains_cons]

theorem subchains_trans {g h k : Handle} (hg : g ∈ h.subchains) (hh : h ∈ k.subchains) :
    g ∈ k.subchains := by
  induction k using ind with
  | leaf l t =>
    obtain rfl := List.mem_singleton.1 hh
    exact hg
  | cons l t k ih =>
    rw [subchains_cons] at hh ⊢
    rcases List.mem_cons.1 hh with rfl | hh
    · rwa [subchains_cons] at hg
    · exact List.mem_cons_of_mem _ (ih hh)

/-! ### Identity and equality -/

/-- Whether two handles are the same node. -/
def sameNode (g h : Handle) : Bool := g.tag == h.tag

/-- Whether two handles have equal types. Both chains are walked together, and the walk ends
early at a node that they share. -/
def equals (g h : Handle) : Bool := go g.links h.links
where
  /-- Compares what is below two suffixes of the links. -/
  go : List (Link × Tag) → List (Link × Tag) → Bool
    | (l, t) :: ls, (m, u) :: ms => if t = u then true else if l = m then go ls ms else false
    | [], [] => if g.leafTag = h.leafTag then true else g.leaf == h.leaf
    | _, _ => false

end Handle

end KernelSymbol
