import KernelSymbol.ArgType.Render
import KernelSymbol.Handle

/-!
# Visitors

A visitor is told the kind and the data of a node, and with a pointer or a vector it is given the
visit of what is below. It goes there when it likes, if at all: it may do something before and
something after. Handles lead a visitor from node to node; it never sees their identities.

## Main definitions

* `Visitor`, `Handle.accept` — what is done at each kind of node, and a visit
* `renderer`, `Handle.renderInto` — the visitor that writes the readable form

## Main results

* `Handle.accept_pointer`, `Handle.accept_vector` — a visit of the outermost node
-/

namespace KernelSymbol

variable {σ : Type}

/-- What is done at a node of each kind. A node above another one comes with the visit of what is
below it. -/
structure Visitor (σ : Type) where
  builtin (b : Builtin) : σ → σ
  named (name : String) : σ → σ
  vector (length : UInt32) (below : σ → σ) : σ → σ
  pointer (attrs : PointerAttrs) (below : σ → σ) : σ → σ

namespace Handle

/-- A visit of a handle, which starts at its outermost node. -/
def accept (v : Visitor σ) (h : Handle) : σ → σ := go h.links
where
  /-- A visit of what is below a suffix of the links. -/
  go : List (Link × Tag) → σ → σ
    | [] =>
      match h.leaf with
      | .builtin b => v.builtin b
      | .named name => v.named name
    | (.vector length, _) :: rest => v.vector length (go rest)
    | (.pointer attrs, _) :: rest => v.pointer attrs (go rest)

variable (v : Visitor σ) (h : Handle) (t : Tag)

private theorem go_cons (l : Link) (ls : List (Link × Tag)) :
    accept.go v (cons l t h) ls = accept.go v h ls := by
  induction ls with
  | nil => rfl
  | cons k ls ih =>
    obtain ⟨_ | _, _⟩ := k <;> simp only [accept.go, ih]

theorem accept_vector (n : UInt32) :
    (cons (.vector n) t h).accept v = v.vector n (h.accept v) :=
  congrArg (v.vector n) (go_cons v h t _ h.links)

theorem accept_pointer (a : PointerAttrs) :
    (cons (.pointer a) t h).accept v = v.pointer a (h.accept v) :=
  congrArg (v.pointer a) (go_cons v h t _ h.links)

end Handle

/-- Writes the readable form of what it visits behind a text. At a pointer, it writes the qualifiers
and then the address space unless private, a blank after each, and a star on the way back. -/
def renderer : Visitor String where
  builtin b text := text ++ b.name
  named name text := text ++ name
  vector length below text := below text ++ toString length.toNat
  pointer attrs below text :=
    let text := attrs.qualifiers.toList.foldl (fun text q => text ++ q.name ++ " ") text
    let text := if attrs.space.isDefault then text else text ++ attrs.space.name ++ " "
    below text ++ "*"

/-- A text with the readable form of a handle behind it, as a visitor writes it. -/
def Handle.renderInto (h : Handle) (text : String) : String := h.accept renderer text

end KernelSymbol
