import KernelSymbol.ArgType.Basic

/-!
# The readable form of a type

`const __global float4*` is a constant global pointer to vectors of four floats. Read from the
left, the text holds what each pointer says about itself, from the outermost inwards, then the
name of the leaf, and then a star for each pointer and the length of a vector, from the
innermost outwards. The private address space is left out.

## Main definitions

* `Link.opening`, `Link.closing` — what a link writes before and after what is below it
* `ArgType.renderOnto`, `ArgType.render` — the readable form, after a text and on its own

## Main results

* `ArgType.renderOnto_cons` — a link writes its two parts around what is below
* `ArgType.renderOnto_eq` — the text before stays as it is, and does not matter
-/

namespace KernelSymbol

/-- What a pointer says before what it points to: its qualifiers, then its address space unless
private, a blank after each word. -/
def PointerAttrs.words (a : PointerAttrs) : String :=
  let qualifiers := a.qualifiers.toList.foldl (fun text q => text ++ q.name ++ " ") ""
  if a.space.isDefault then qualifiers else qualifiers ++ a.space.name ++ " "

/-- What a link writes before what is below it. -/
def Link.opening : Link → String
  | .pointer attrs => attrs.words
  | .vector _ => ""

/-- What a link writes after what is below it. -/
def Link.closing : Link → String
  | .pointer _ => "*"
  | .vector length => toString length.toNat

/-- The readable form of a leaf. -/
def Leaf.render : Leaf → String
  | .builtin b => b.name
  | .named name => name

namespace ArgType

/-- `text` and after it the readable form of a type. -/
def renderOnto (text : String) (t : ArgType) : String :=
  let text := t.links.foldl (fun text l => text ++ l.opening) text
  t.links.foldr (fun l text => text ++ l.closing) (text ++ t.leaf.render)

/-- The readable form of a type. -/
def render (t : ArgType) : String := renderOnto "" t

@[simp] theorem renderOnto_leaf (text : String) (l : Leaf) :
    renderOnto text ⟨[], l⟩ = text ++ l.render := rfl

/-- A link writes its opening before and its closing after what is below it. -/
theorem renderOnto_cons (text : String) (l : Link) (t : ArgType) :
    renderOnto text (cons l t) = renderOnto (text ++ l.opening) t ++ l.closing := rfl

/-- The text before stays as it is, and does not matter. -/
theorem renderOnto_eq (text : String) (t : ArgType) : renderOnto text t = text ++ t.render := by
  induction t using ind generalizing text with
  | leaf l => simp [render]
  | cons l t ih =>
    rw [render, renderOnto_cons, renderOnto_cons, ih, ih (_ ++ _)]
    simp [String.append_assoc]

end ArgType

end KernelSymbol
