import KernelSymbol.ArgType.WellFormed

/-!
# Descriptions of types

A description says in raw numbers how to build a type: a leaf, and the layers around it from the
innermost outwards. A run of nested pointers that are all alike is one layer. Building checks
each number and each contract in order and stops at the first that fails. Every type has a
normal description, in which runs are as long as they can be and slot numbers ascend.

## Main definitions

* `Description` — a leaf and layers, in raw numbers
* `Description.build` — the type that a description describes
* `ArgType.describe` — the normal description of a type

## Main results

* `Description.wellFormed_build` — what is built is well formed
* `ArgType.build_describe` — a well-formed type is built again from its normal description
-/

namespace KernelSymbol

/-- The leaf of a description. -/
inductive Description.Leaf where
  /-- The builtin with a number. -/
  | builtin (number : Nat)
  /-- A named type. -/
  | named (name : String)
  deriving DecidableEq

/-- One layer of a description. -/
inductive Description.Layer where
  /-- A vector of what is inside. -/
  | vector (length : UInt32)
  /-- So many pointers around each other, with an address space and qualifiers in numbers. -/
  | pointers (space : Nat) (slots : List Nat) (times : Nat)
  deriving DecidableEq

/-- A type in raw numbers: its leaf, and the layers around it from the innermost outwards. -/
structure Description where
  leaf : Description.Leaf
  layers : List Description.Layer
  deriving DecidableEq

namespace Description

/-! ### Building -/

/-- The type that a leaf describes. -/
def Leaf.build : Leaf → Except BuildError ArgType
  | .builtin n => (Builtin.ofNumber n).map ArgType.builtin
  | .named name => ArgType.named name

/-- The type `inside` with a layer around it. The address space of pointers is converted first
and in any case; their qualifiers are converted only if there is a pointer to carry them. -/
def Layer.build (inside : ArgType) : Layer → Except BuildError ArgType
  | .vector length => ArgType.vector length inside
  | .pointers space slots times =>
    match AddressSpace.ofNumber space with
    | .error e => .error e
    | .ok s =>
      if times = 0 then .ok inside
      else
        match QualifierSet.ofNumbers slots with
        | .error e => .error e
        | .ok qs => .ok ⟨List.replicate times (.pointer ⟨s, qs⟩) ++ inside.links, inside.leaf⟩

/-- The type `inside` with layers around it. -/
def buildLayers (inside : ArgType) : List Layer → Except BuildError ArgType
  | [] => .ok inside
  | layer :: rest =>
    match layer.build inside with
    | .ok t => buildLayers t rest
    | .error e => .error e

/-- The type that a description describes, or the first fault in it. -/
def build (d : Description) : Except BuildError ArgType :=
  match d.leaf.build with
  | .ok t => buildLayers t d.layers
  | .error e => .error e

theorem Leaf.wellFormed_build {l : Leaf} {t : ArgType} (h : l.build = .ok t) : t.WellFormed := by
  cases l with
  | builtin n =>
    cases hb : Builtin.ofNumber n with
    | error e => simp [Leaf.build, hb, Except.map] at h
    | ok b =>
      obtain rfl : ArgType.builtin b = t := by simpa [Leaf.build, hb, Except.map] using h
      exact .builtin b
  | named name => exact ArgType.wellFormed_named h

theorem Layer.wellFormed_build {l : Layer} {inside t : ArgType} (hi : inside.WellFormed)
    (h : l.build inside = .ok t) : t.WellFormed := by
  cases l with
  | vector n => exact ArgType.wellFormed_vector h
  | pointers space slots times =>
    rw [Layer.build] at h
    split at h
    next => cases h
    next s hs =>
      split at h
      next =>
        cases h
        exact hi
      next =>
        split at h
        next => cases h
        next qs hq =>
          cases h
          exact hi.replicate ⟨s, qs⟩ times

theorem wellFormed_build {d : Description} {t : ArgType} (h : d.build = .ok t) :
    t.WellFormed := by
  have layers : ∀ (ls : List Layer) {inside : ArgType}, inside.WellFormed →
      buildLayers inside ls = .ok t → t.WellFormed := by
    intro ls
    induction ls with
    | nil =>
      rintro inside hi ⟨⟩
      exact hi
    | cons l ls ih =>
      intro inside hi h
      rw [buildLayers] at h
      split at h
      next u hu => exact ih (Layer.wellFormed_build hi hu) h
      next => cases h
  rw [build] at h
  split at h
  next u hu => exact layers d.layers (Leaf.wellFormed_build hu) h
  next => cases h

end Description

/-! ### Describing -/

/-- Layers with one more link inside them, which joins the innermost layer if it can. -/
def Link.describeInside (layers : List Description.Layer) : Link → List Description.Layer
  | .vector length => .vector length :: layers
  | .pointer a =>
    let space := a.space.number
    let slots := a.qualifiers.toList.map Qualifier.number
    match layers with
    | .pointers space' slots' times :: rest =>
      if space' = space ∧ slots' = slots then .pointers space slots (times + 1) :: rest
      else .pointers space slots 1 :: layers
    | _ => .pointers space slots 1 :: layers

/-- The description of a leaf. -/
def Leaf.describe : Leaf → Description.Leaf
  | .builtin b => .builtin b.number
  | .named name => .named name

namespace ArgType

/-- The normal description of a type. -/
def describe (t : ArgType) : Description := ⟨t.leaf.describe, t.links.foldl Link.describeInside []⟩

/-! ### Describing and building again -/

private theorem ofNumbers_go (qs : List Qualifier) (s : QualifierSet) :
    QualifierSet.ofNumbers.go (qs.map Qualifier.number) s
      = .ok (qs.foldl (fun s q => s.set q true) s) := by
  induction qs generalizing s with
  | nil => rfl
  | cons q qs ih => simp [QualifierSet.ofNumbers.go, ih]

private theorem ofNumbers_toList {s : QualifierSet} (h : s.Known) :
    QualifierSet.ofNumbers (s.toList.map Qualifier.number) = .ok s := by
  rw [QualifierSet.ofNumbers, ofNumbers_go]
  exact congrArg Except.ok h.ofList_toList

/-- The type `inside` with one link around it, checked like a layer. -/
private def buildLink (inside : ArgType) : Link → Except BuildError ArgType
  | .vector length => vector length inside
  | .pointer a => .ok (pointer a inside)

private theorem build_one {a : PointerAttrs} (h : a.qualifiers.Known) (inside : ArgType) (n : Nat) :
    Description.Layer.build inside
        (.pointers a.space.number (a.qualifiers.toList.map Qualifier.number) (n + 1))
      = .ok ⟨List.replicate (n + 1) (.pointer a) ++ inside.links, inside.leaf⟩ := by
  simp [Description.Layer.build, ofNumbers_toList h]

private theorem buildLayers_describeInside (layers : List Description.Layer) {l : Link}
    (hl : l.Known) (inside : ArgType) :
    Description.buildLayers inside (l.describeInside layers)
      = (buildLink inside l).bind (Description.buildLayers · layers) := by
  cases l with
  | vector n =>
    simp only [Link.describeInside, Description.buildLayers, Description.Layer.build, buildLink]
    cases vector n inside <;> rfl
  | pointer a =>
    simp only [Link.describeInside]
    split
    next space' slots' times rest =>
      split
      next h =>
        obtain ⟨rfl, rfl⟩ := h
        simp only [buildLink, Except.bind, Description.buildLayers, build_one hl]
        cases times with
        | zero => simp [Description.Layer.build, pointer, cons]
        | succ n =>
          rw [build_one hl]
          simp [pointer, cons, List.replicate_succ', List.append_assoc]
      next => simp [buildLink, Except.bind, Description.buildLayers, build_one hl, pointer, cons]
    next => simp [buildLink, Except.bind, Description.buildLayers, build_one hl, pointer, cons]

private theorem buildLayers_foldl {t : ArgType} (h : t.WellFormed) (hk : t.Known)
    (layers : List Description.Layer) :
    Description.buildLayers ⟨[], t.leaf⟩ (t.links.foldl Link.describeInside layers)
      = Description.buildLayers t layers := by
  induction h generalizing layers with
  | builtin b => rfl
  | named h => rfl
  | @vector n b hn hb =>
    have hv : vector n ⟨[], .builtin b⟩ = .ok ⟨[.vector n], .builtin b⟩ := by
      simp [vector, checkVector, hn, isScalar, builtin?, hb, cons]
    have hl : (Link.vector n).Known := trivial
    simp [buildLayers_describeInside _ hl, buildLink, hv, Except.bind]
  | pointer a h ih =>
    obtain ⟨ha, ht⟩ := known_cons.1 hk
    simp only [pointer, links_cons, leaf_cons, List.foldl_cons]
    rw [ih ht, buildLayers_describeInside _ ha]
    rfl

private theorem build_describe_leaf {t : ArgType} (h : t.WellFormed) :
    t.leaf.describe.build = .ok ⟨[], t.leaf⟩ := by
  induction h with
  | builtin b => simp [Leaf.describe, Description.Leaf.build, Except.map, builtin]
  | named h => simp [Leaf.describe, Description.Leaf.build, named, checkName, h]
  | vector hn hb => simp [Leaf.describe, Description.Leaf.build, Except.map, builtin]
  | pointer a h ih => exact ih

/-- A well-formed type is built again from its normal description, which tells all of its
qualifiers if they are known. -/
theorem build_describe {t : ArgType} (h : t.WellFormed) (hk : t.Known) :
    t.describe.build = .ok t := by
  simp only [Description.build, describe, build_describe_leaf h]
  exact (buildLayers_foldl h hk []).trans rfl

end ArgType

end KernelSymbol
