import KernelSymbol.ArgType.Basic

/-!
# Outlines

The outline of a type is what someone sees who walks it from the outermost node to the leaf and
notes the kind and the data of every node.

## Main definitions

* `Link.outline`, `Leaf.outline` — the note on one node
* `ArgType.outline` — the notes on a whole type

## Main results

* `ArgType.outline_cons` — the outermost node comes first
-/

namespace KernelSymbol

/-- The note on a link: a pointer's address space and the number of its set of qualifiers, or a
vector's length. -/
def Link.outline : Link → String
  | .pointer attrs => "pointer " ++ attrs.space.name ++ " " ++ toString attrs.qualifiers.bits
  | .vector length => "vector " ++ toString length.toNat

/-- The note on a leaf: its name. -/
def Leaf.outline : Leaf → String
  | .builtin b => "primitive " ++ b.name
  | .named name => "user " ++ name

namespace ArgType

/-- The notes on a type, outermost node first. -/
def outline (t : ArgType) : List String := t.links.map Link.outline ++ [t.leaf.outline]

@[simp] theorem outline_leaf (l : Leaf) : outline ⟨[], l⟩ = [l.outline] := rfl

@[simp] theorem outline_cons (l : Link) (t : ArgType) :
    (cons l t).outline = l.outline :: t.outline := rfl

end ArgType

end KernelSymbol
