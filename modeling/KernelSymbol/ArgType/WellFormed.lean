import KernelSymbol.ArgType.Checked

/-!
# Well-formed types

Chains that keep the contracts of the constructors: pointers only, down to a builtin, a named
type with a name, or a vector of positive length whose element is a scalar builtin.

## Main definitions

* `ArgType.WellFormed` — the chains that can come into existence

## Main results

* `ArgType.WellFormed.child` — what is below a well-formed type is well formed
* `ArgType.wellFormed_vector`, `ArgType.wellFormed_named` — what the checked constructors build
-/

namespace KernelSymbol

/-- Pointers only, then a leaf that has a name if it is a named type, or a non-empty vector of a
scalar builtin. -/
inductive ArgType.WellFormed : ArgType → Prop where
  | builtin (b : Builtin) : WellFormed ⟨[], .builtin b⟩
  | named {name : String} (h : name ≠ "") : WellFormed ⟨[], .named name⟩
  | vector {n : UInt32} {b : Builtin} (hn : n ≠ 0) (hb : b.isScalar = true) :
    WellFormed ⟨[.vector n], .builtin b⟩
  | pointer (a : PointerAttrs) {t : ArgType} (h : WellFormed t) :
    WellFormed (.pointer a t)

namespace ArgType

theorem isScalar_iff {t : ArgType} :
    t.isScalar = true ↔ ∃ b : Builtin, t = builtin b ∧ b.isScalar = true := by
  rcases t with ⟨_ | ⟨l, ls⟩, b | n⟩ <;> simp [isScalar, builtin?, builtin]

theorem WellFormed.child {s t : ArgType} (h : s.WellFormed) (hc : s.child? = some t) :
    t.WellFormed := by
  cases h with
  | builtin b => cases hc
  | named h => cases hc
  | vector hn hb =>
    cases hc
    exact .builtin _
  | pointer a h =>
    cases hc
    exact h

theorem WellFormed.name_ne_empty {t : ArgType} (h : t.WellFormed) {name : String}
    (hl : t.leaf = .named name) : name ≠ "" := by
  induction h with
  | builtin b => cases hl
  | named h =>
    cases hl
    exact h
  | vector hn hb => cases hl
  | pointer a h ih => exact ih hl

theorem WellFormed.replicate {t : ArgType} (h : t.WellFormed) (a : PointerAttrs) (n : Nat) :
    WellFormed ⟨List.replicate n (.pointer a) ++ t.links, t.leaf⟩ := by
  induction n with
  | zero => exact h
  | succ n ih => exact .pointer a ih

theorem wellFormed_cons_vector {n : UInt32} {element : ArgType} (hn : n ≠ 0)
    (hs : element.isScalar = true) : (cons (.vector n) element).WellFormed := by
  obtain ⟨b, rfl, hb⟩ := isScalar_iff.1 hs
  exact .vector hn hb

theorem wellFormed_vector {n : UInt32} {element t : ArgType} (h : vector n element = .ok t) :
    t.WellFormed := by
  rw [vector] at h
  split at h
  next hc =>
    obtain ⟨hn, hs⟩ := checkVector_eq_ok_iff.1 hc
    cases h
    exact wellFormed_cons_vector hn hs
  next => cases h

theorem wellFormed_named {name : String} {t : ArgType} (h : named name = .ok t) :
    t.WellFormed := by
  rw [named] at h
  split at h
  next hc =>
    cases h
    exact .named (checkName_eq_ok_iff.1 hc)
  next => cases h

end ArgType

end KernelSymbol
