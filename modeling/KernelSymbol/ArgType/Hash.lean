import KernelSymbol.ArgType.Basic
import Std.Data.HashSet

/-!
# Hashing types

The hash of a type is computed from a list of items: the kind of each node and then its data,
from the outermost node to the leaf. Different types have different items, so nothing about a
type is left out of its hash.

## Main definitions

* `HashItem` — one item
* `ArgType.hashItems` — the items of a type
* `ArgType.distinct` — how many different types a list holds

## Main results

* `ArgType.hashItems_injective` — the items determine the type
-/

namespace KernelSymbol

/-- A part of a type that goes into its hash. -/
inductive HashItem where
  | kind (k : Kind)
  | builtin (b : Builtin)
  | name (name : String)
  | space (s : AddressSpace)
  | qualifiers (qs : QualifierSet)
  | length (n : UInt32)
  deriving DecidableEq, Hashable

/-- The items of a link. -/
def Link.hashItems : Link → List HashItem
  | .pointer attrs => [.kind .pointer, .space attrs.space, .qualifiers attrs.qualifiers]
  | .vector length => [.kind .vector, .length length]

/-- The items of a leaf. -/
def Leaf.hashItems : Leaf → List HashItem
  | .builtin b => [.kind .primitive, .builtin b]
  | .named name => [.kind .userDefined, .name name]

namespace ArgType

/-- The items of a type, outermost node first. -/
def hashItems (t : ArgType) : List HashItem := t.links.flatMap Link.hashItems ++ t.leaf.hashItems

instance : Hashable ArgType where
  hash t := t.hashItems.foldl (fun h item => mixHash h (hash item)) 7

/-- How many different types a list holds. -/
def distinct (ts : List ArgType) : Nat := (Std.HashSet.ofList ts).size

@[simp] theorem hashItems_cons (l : Link) (t : ArgType) :
    (cons l t).hashItems = l.hashItems ++ t.hashItems := by
  simp [hashItems]

theorem hashItems_injective {s t : ArgType} (h : s.hashItems = t.hashItems) : s = t := by
  induction s using ind generalizing t with
  | leaf l =>
    induction t using ind with
    | leaf m => cases l <;> cases m <;> simp_all [hashItems, Leaf.hashItems]
    | cons m t ih => cases l <;> cases m <;> simp [hashItems, Leaf.hashItems, Link.hashItems] at h
  | cons l s ih =>
    induction t using ind with
    | leaf m => cases l <;> cases m <;> simp [hashItems, Leaf.hashItems, Link.hashItems] at h
    | cons m t ih' =>
      rw [hashItems_cons, hashItems_cons] at h
      rcases l with ⟨⟨_, _⟩⟩ | _ <;> rcases m with ⟨⟨_, _⟩⟩ | _ <;>
        simp [Link.hashItems] at h
      · obtain ⟨rfl, rfl, h⟩ := h
        rw [ih h]
      · obtain ⟨rfl, h⟩ := h
        rw [ih h]

end ArgType

end KernelSymbol
