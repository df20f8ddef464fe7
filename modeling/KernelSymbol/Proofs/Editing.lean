import KernelSymbol.Proofs.Interning
import Mathlib.Data.List.Induction

/-!
# Edited pointers

A pool edits nothing in place. To edit an attribute of a pointer is to look up the pointer that
differs from it in this attribute, and to edit several attributes in a row is to do so several
times, so that each intermediate pointer is stored as well. Which of them were stored on the way
depends on the order of the edits. The node that comes out in the end depends on nothing but the
attributes in the end, and these are, one by one, the values that were set last.

## Main definitions

* `AttrEdit` — one change to the attributes of a pointer
* `PointerAttrs.edited` — the attributes after several changes, each at its last value
* `Session.editInPool` — editing a handle in the current pool several times

## Main results

* `PointerAttrs.foldl_applyTo` — changes one after the other leave the last values
* `Session.Valid.editInPool` — what a run of edits yields
* `Session.Reachable.edits_last_win` — the node behind edits is that of the last values
-/

namespace KernelSymbol

/-- One change to the attributes of a pointer. -/
inductive AttrEdit where
  /-- Refer to another address space. -/
  | space (s : AddressSpace)
  /-- Add or remove one qualifier. -/
  | qualifier (q : Qualifier) (on : Bool)
  deriving DecidableEq

namespace AttrEdit

/-- The attributes after a change. -/
def applyTo (a : PointerAttrs) : AttrEdit → PointerAttrs
  | .space s => a.withSpace s
  | .qualifier q on => a.setQualifier q on

/-- Which attribute is changed: one of the qualifiers, or the address space. -/
def target : AttrEdit → Option Qualifier
  | .space _ => none
  | .qualifier q _ => some q

/-- The address space that is set, if it is. -/
def space? : AttrEdit → Option AddressSpace
  | .space s => some s
  | .qualifier _ _ => none

/-- Whether a qualifier is added or removed, if it is either. -/
def value? (q : Qualifier) : AttrEdit → Option Bool
  | .space _ => none
  | .qualifier r on => if q = r then some on else none

/-- The request for a change of the handle with a number. -/
def request (n : Nat) : AttrEdit → Session.Request
  | .space s => .withSpace n s.number
  | .qualifier q on => .withQualifier n q.number on

/-- The address space that is set last, if any is. -/
def lastSpace? (edits : List AttrEdit) : Option AddressSpace := (edits.filterMap space?).getLast?

/-- Whether a qualifier is added or removed last, if it is either. -/
def lastValue? (q : Qualifier) (edits : List AttrEdit) : Option Bool :=
  (edits.filterMap (value? q)).getLast?

end AttrEdit

/-! ### The last values -/

namespace PointerAttrs

open AttrEdit

variable {a : PointerAttrs}

/-- The attributes with each of them at the last value it was given, if it was given one. -/
def edited (a : PointerAttrs) (edits : List AttrEdit) : PointerAttrs where
  space := (lastSpace? edits).getD a.space
  qualifiers := Qualifier.all.foldl
    (fun s q => s.set q ((lastValue? q edits).getD (a.qualifiers.contains q))) a.qualifiers

/-- Attributes are determined by the address space, the members of the set and the bits that belong
to no qualifier. -/
theorem ext_contains {a b : PointerAttrs} (hs : a.space = b.space)
    (hspare : a.qualifiers.spare = b.qualifiers.spare)
    (hq : ∀ q, a.qualifiers.contains q = b.qualifiers.contains q) : a = b := by
  cases a
  cases b
  obtain rfl := hs
  obtain rfl := QualifierSet.ext_contains hspare hq
  rfl

theorem contains_edited (a : PointerAttrs) (edits : List AttrEdit) (q : Qualifier) :
    (a.edited edits).qualifiers.contains q =
      (lastValue? q edits).getD (a.qualifiers.contains q) := by
  cases q <;> simp [edited, Qualifier.all, QualifierSet.contains_set]

/-- No change touches the bits that belong to no qualifier. -/
@[simp] theorem spare_edited (a : PointerAttrs) (edits : List AttrEdit) :
    (a.edited edits).qualifiers.spare = a.qualifiers.spare := by
  simp [edited, Qualifier.all]

@[simp] theorem edited_nil (a : PointerAttrs) : a.edited [] = a :=
  ext_contains rfl (spare_edited a []) fun q => contains_edited a [] q

theorem edited_append_singleton (a : PointerAttrs) (edits : List AttrEdit) (e : AttrEdit) :
    a.edited (edits ++ [e]) = e.applyTo (a.edited edits) := by
  cases e with
  | space s =>
    refine ext_contains ?_ (by simp [applyTo, withSpace]) fun q => ?_
    · simp [edited, applyTo, withSpace, lastSpace?, space?]
    · rw [contains_edited, applyTo, withSpace, contains_edited]
      simp [lastValue?, value?]
  | qualifier r on =>
    refine ext_contains ?_ (by simp [applyTo, setQualifier]) fun q => ?_
    · simp [edited, applyTo, setQualifier, lastSpace?, space?]
    · rw [contains_edited, applyTo, setQualifier, QualifierSet.contains_set, contains_edited]
      by_cases hq : q = r <;> simp [lastValue?, value?, hq]

/-- Changes one after the other leave the last values. -/
theorem foldl_applyTo (a : PointerAttrs) (edits : List AttrEdit) :
    edits.foldl (fun a e => e.applyTo a) a = a.edited edits := by
  induction edits using List.reverseRecOn with
  | nil => exact (edited_nil a).symm
  | append_singleton edits e ih => rw [List.foldl_append, ih, edited_append_singleton]; rfl

theorem edited_append (a : PointerAttrs) (front back : List AttrEdit) :
    a.edited (front ++ back) = (a.edited front).edited back := by
  rw [← foldl_applyTo, ← foldl_applyTo, ← foldl_applyTo, List.foldl_append]

theorem edited_cons (a : PointerAttrs) (e : AttrEdit) (edits : List AttrEdit) :
    a.edited (e :: edits) = (e.applyTo a).edited edits := by
  rw [← foldl_applyTo, ← foldl_applyTo, List.foldl_cons]

theorem applyTo_comm {e e' : AttrEdit} (h : e.target ≠ e'.target) :
    e'.applyTo (e.applyTo a) = e.applyTo (e'.applyTo a) := by
  cases e with
  | space s =>
    cases e' with
    | space s' => exact absurd rfl h
    | qualifier q' on' => rfl
  | qualifier q on =>
    cases e' with
    | space s' => rfl
    | qualifier q' on' =>
      refine ext_contains rfl (by simp [applyTo, setQualifier]) fun r => ?_
      have hne : q ≠ q' := fun he => h (congrArg some he)
      simp only [applyTo, setQualifier, QualifierSet.contains_set]
      by_cases hr : r = q'
      · simp [hr, hne.symm]
      · simp [hr]

theorem applyTo_idem (a : PointerAttrs) (e : AttrEdit) : e.applyTo (e.applyTo a) = e.applyTo a := by
  cases e with
  | space s => rfl
  | qualifier q on =>
    refine ext_contains rfl (by simp [applyTo, setQualifier]) fun r => ?_
    simp only [applyTo, setQualifier, QualifierSet.contains_set]
    by_cases hr : r = q <;> simp [hr]

end PointerAttrs

/-! ### One edit in a pool -/

namespace Pool

variable {p : Pool}

/-- An edit of a pointer makes the pointer with edited attributes to the same node. -/
theorem withAttrs_cons (p : Pool) (f : PointerAttrs → PointerAttrs) (a : PointerAttrs) (t : Tag)
    (h : Handle) : p.withAttrs (h.cons (.pointer a) t) f =
      (.ok (p.pointer (f a) h).1, (p.pointer (f a) h).2) := rfl

theorem withAttrs_of_kind {h : Handle} (hk : h.kind ≠ .pointer) (p : Pool)
    (f : PointerAttrs → PointerAttrs) :
    p.withAttrs h f = (.error (.kindMismatch .pointer h.kind), p) := by
  induction h using Handle.ind with
  | leaf l t => rfl
  | cons l t h =>
    cases l with
    | pointer a => exact absurd rfl hk
    | vector n => rfl

end Pool

namespace Session

variable {s s' : Session} {n : Nat} {h : Handle}

theorem step_edit (hn : s.handles[n]? = some h) (e : AttrEdit) :
    s.step (e.request n) = s.tryMake fun p => p.withAttrs h fun a => e.applyTo a := by
  cases e with
  | space r =>
    simp only [AttrEdit.request, step, withHandle, hn, AddressSpace.ofNumber_number, withValue]
    rfl
  | qualifier q on =>
    simp only [AttrEdit.request, step, withHandle, hn, Qualifier.ofNumber_number, withValue]
    rfl

/-- Making what cannot fail to be made. -/
theorem tryMake_eq_make {f : Pool → Except BuildError Handle × Pool} {k : Pool → Handle × Pool}
    (h : f s.pool = (.ok (k s.pool).1, (k s.pool).2)) : s.tryMake f = s.make k := by
  simp only [tryMake, make, inPool_eq, h]

/-- An edit of a pointer returns the stored pointer with the edited attributes. -/
theorem Valid.exists_poolStep_edit (hs : s.Valid) (hn : s.handles[n]? = some h)
    {a : PointerAttrs} {t : ArgType} (ht : h.type = .pointer a t) (e : AttrEdit) :
    ∃ q g, PoolStep s q [g] (s.step (e.request n)).2 ∧ g.type = .pointer (e.applyTo a) t := by
  have hm : h ∈ s.handles := Array.mem_of_getElem? hn
  have hw := hs.wellFormed h hm
  have hk := hs.knows hs.getElem?_pool hm
  rw [ht] at hw
  obtain ⟨u, d, rfl, hd⟩ := Handle.exists_cons_of_type_cons ht
  have hY : s.pool.Yields (.pointer (e.applyTo a) d.type) (s.pool.pointer (e.applyTo a) d) :=
    (hs.pool hs.getElem?_pool).1.pointer (e.applyTo a) (hk.child rfl)
  rw [hd] at hY
  have hmake : s.step (e.request n) = s.make fun p => p.pointer (e.applyTo a) d := by
    rw [step_edit hn]
    exact tryMake_eq_make (Pool.withAttrs_cons s.pool (fun a => e.applyTo a) a u d)
  have hwe : (ArgType.pointer (e.applyTo a) t).WellFormed :=
    .pointer (e.applyTo a) (hw.child (ArgType.child?_cons _ t))
  have hstep := poolStep_make (s := s) (f := fun p => p.pointer (e.applyTo a) d) hwe hY
  rw [← hmake] at hstep
  exact ⟨_, _, hstep, hY.type_eq⟩

/-- An edit of anything else is refused, and the session stays as it is. -/
theorem Valid.step_edit_of_kind (hs : s.Valid) (hn : s.handles[n]? = some h)
    (hk : h.kind ≠ .pointer) (e : AttrEdit) :
    s.step (e.request n) = (.buildError (.kindMismatch .pointer h.kind), s) := by
  rw [step_edit hn]
  simp only [tryMake, inPool_eq, Pool.withAttrs_of_kind hk]
  exact congrArg _ hs.poolStep_self.eq.symm

/-! ### Several edits -/

/-- The state after edits in the current pool: the first one of the handle with a number, and each
further one of the handle that the one before it returned. -/
def editInPool (s : Session) (n : Nat) : List AttrEdit → Session
  | [] => s
  | e :: edits => (s.step (e.request n)).2.editInPool s.handles.size edits

@[simp] theorem current_putAll (s : Session) (gs : List Handle) :
    (s.putAll gs).current = s.current := by
  induction gs generalizing s with
  | nil => rfl
  | cons g gs ih => exact ih (s.add g).2

theorem PoolStep.current_eq {q : Pool} {gs : List Handle} (h : PoolStep s q gs s') :
    s'.current = s.current := by
  rw [h.eq, current_putAll]
  rfl

/-- After such a request, the current pool is the one that it left. -/
theorem PoolStep.pool_eq (hs : s.Valid) {q : Pool} {gs : List Handle} (h : PoolStep s q gs s') :
    s'.pool = q := by
  rw [Session.pool, h.current_eq, h.getElem?_current hs, Option.getD_some]

/-- The one handle that a request returned is the last one. -/
theorem PoolStep.back? {q : Pool} {g : Handle} (h : PoolStep s q [g] s') :
    s'.handles.back? = some g := by
  rw [h.eq, ← Array.getLast?_toList, handles_putAll, List.getLast?_concat]

/-- What a run of edits of a pointer yields: a later state that works in the same pool, where the
last handle is a node of the pool, namely the pointer with the last values. -/
theorem Valid.editInPool (hs : s.Valid) (hn : s.handles[n]? = some h) {a : PointerAttrs}
    {t : ArgType} (ht : h.type = .pointer a t) {edits : List AttrEdit} (he : edits ≠ []) :
    s.Next (s.editInPool n edits) ∧ (s.editInPool n edits).current = s.current ∧
      ∃ g, (s.editInPool n edits).handles.back? = some g ∧
        g ∈ (s.editInPool n edits).pool.nodes ∧ g.type = .pointer (a.edited edits) t := by
  induction edits generalizing s n h a with
  | nil => exact absurd rfl he
  | cons e edits ih =>
    obtain ⟨q, g, hstep, hgt⟩ := hs.exists_poolStep_edit hn ht e
    have hnext := hstep.next hs
    rw [Session.editInPool, PointerAttrs.edited_cons]
    by_cases hnil : edits = []
    · subst hnil
      rw [PointerAttrs.edited_nil]
      refine ⟨hnext, hstep.current_eq, g, hstep.back?, ?_, hgt⟩
      rw [Session.editInPool, hstep.pool_eq hs]
      exact (hstep.mem g (List.mem_singleton_self g)).1
    · obtain ⟨hrest, hcur, hlast⟩ := ih hnext.valid hstep.getElem?_size hgt hnil
      exact ⟨hnext.trans hrest, hcur.trans hstep.current_eq, hlast⟩

/-- The current pool of a later state that works in the same pool is a later state of it. -/
theorem Next.extends_pool (hs : s.Valid) (h : s.Next s') (hc : s'.current = s.current) :
    s.pool.Extends s'.pool := by
  obtain ⟨q, hq, he⟩ := h.grows.pools hs.getElem?_pool
  rw [← hc, h.valid.getElem?_pool] at hq
  cases hq
  exact he

/-- Editing depends on the last values only. Take any handle of a session, whether the current pool
owns it or not. If it is a pointer, then any edits in a row, at least one, return a node of the
pool, and the only node there of its type: a pointer to the same type, into the address space that
was set last, or that of the handle if none was, with each qualifier as it was set last, or as the
handle has it, and with the bits of the handle that belong to no qualifier. Edits of different
attributes can be swapped and a repeated edit can be dropped without changing these values. If they
are those of the handle and the pool owns the handle, then what is returned is the handle. Nothing
that was there before is altered. Whatever is asked in between, other edits of the handle in the
same pool return the same node if and only if they leave the same values. If the handle is not a
pointer, then every edit is refused because of its kind, and the session stays as it is, with its
pools, their nodes and their counters. -/
theorem Reachable.edits_last_win (hs : s.Reachable) (hn : s.handles[n]? = some h) :
    (∀ (a : PointerAttrs) (t : ArgType), h.type = .pointer a t →
      ∀ (edits : List AttrEdit) (s₁ : Session), edits ≠ [] → s₁ = s.editInPool n edits →
        ∃ g : Handle, s₁.handles.back? = some g ∧
          (g ∈ s₁.pool.nodes ∧ s₁.pool.owns g.tag = true ∧
            ∀ k ∈ s₁.pool.nodes, k.type = g.type → k = g) ∧
          (∃ b : PointerAttrs, g.type = .pointer b t ∧
            b.space = (AttrEdit.lastSpace? edits).getD a.space ∧
            b.qualifiers.spare = a.qualifiers.spare ∧
            ∀ q, b.qualifiers.contains q =
              (AttrEdit.lastValue? q edits).getD (a.qualifiers.contains q)) ∧
          (s.pool.owns h.tag = true → a.edited edits = a → g = h) ∧
          (∀ (m : Nat) (k : Handle), s.handles[m]? = some k → s₁.handles[m]? = some k) ∧
          s.pool.nodes.toList <+: s₁.pool.nodes.toList ∧
          ∀ (requests : List Request) (edits' : List AttrEdit) (s₂ s₃ : Session),
            s₂ = s₁.after requests → s₂.current = s.current → edits' ≠ [] →
            s₃ = s₂.editInPool n edits' →
            ∃ g' : Handle, s₃.handles.back? = some g' ∧
              (g'.sameNode g = true ↔ a.edited edits' = a.edited edits)) ∧
    (∀ (a : PointerAttrs) (front back : List AttrEdit) (e e' : AttrEdit),
      (e.target ≠ e'.target →
        a.edited (front ++ e :: e' :: back) = a.edited (front ++ e' :: e :: back)) ∧
      a.edited (front ++ e :: e :: back) = a.edited (front ++ e :: back)) ∧
    (h.kind ≠ .pointer → ∀ e : AttrEdit,
      s.step (e.request n) = (.buildError (.kindMismatch .pointer h.kind), s)) := by
  have hv := hs.valid
  refine ⟨fun a t ht edits s₁ he h₁ => ?_, fun a front back e e' => ⟨fun hne => ?_, ?_⟩,
    fun hk e => hv.step_edit_of_kind hn hk e⟩
  · subst h₁
    obtain ⟨hnext, hcur, g, hg, hgm, hgt⟩ := hv.editInPool hn ht he
    have hv₁ := hnext.valid
    have hp₁ := (hv₁.pool hv₁.getElem?_pool).1
    have hgrows := hnext.extends_pool hv hcur
    refine ⟨g, hg, ⟨hgm, hp₁.owns_of_mem hgm, fun k hk hkt => hp₁.eq_of_type_eq hk hgm hkt⟩,
      ⟨_, hgt, rfl, a.spare_edited edits, a.contains_edited edits⟩, fun ho hback => ?_,
      fun m k hk => hnext.grows.getElem? hk, hgrows.nodes_prefix, ?_⟩
    · have hhm : h ∈ s.pool.nodes :=
        (hv.knows hv.getElem?_pool (Array.mem_of_getElem? hn)).mem ho
      exact hp₁.eq_of_type_eq hgm (hgrows.mem hhm) (by rw [hgt, hback, ht])
    · rintro requests edits' s₂ s₃ rfl hc he' rfl
      have hnext₂ := hv₁.after requests
      have hn₂ := hnext₂.grows.getElem? (hnext.grows.getElem? hn)
      obtain ⟨hnext₃, hcur₃, g', hg', hgm', hgt'⟩ := hnext₂.valid.editInPool hn₂ ht he'
      -- the first node is still stored
      have hp₃ := (hnext₃.valid.pool hnext₃.valid.getElem?_pool).1
      have hgm₃ := ((hnext₂.trans hnext₃).extends_pool hv₁
        (hcur₃.trans (hc.trans hcur.symm))).mem hgm
      refine ⟨g', hg', ?_⟩
      calc g'.sameNode g = true
        _ ↔ g'.tag = g.tag := beq_iff_eq
        _ ↔ g'.type = g.type :=
          ⟨fun htag => congrArg Handle.type (hp₃.eq_of_tag_eq hgm' hgm₃ htag),
            fun htype => congrArg Handle.tag (hp₃.eq_of_type_eq hgm' hgm₃ htype)⟩
        _ ↔ a.edited edits' = a.edited edits := by
          rw [hgt', hgt]
          simp [ArgType.pointer, ArgType.cons]
  · rw [PointerAttrs.edited_append, PointerAttrs.edited_append, PointerAttrs.edited_cons,
      PointerAttrs.edited_cons, PointerAttrs.applyTo_comm hne, ← PointerAttrs.edited_cons,
      ← PointerAttrs.edited_cons]
  · rw [PointerAttrs.edited_append, PointerAttrs.edited_append, PointerAttrs.edited_cons,
      PointerAttrs.edited_cons, PointerAttrs.applyTo_idem, ← PointerAttrs.edited_cons]

/-- A pointer and a leaf, both built outside every pool. -/
def pointerAndLeaf : Session :=
  start.after [.outside ⟨.builtin 0, [.pointers 0 [] 1]⟩, .outside ⟨.builtin 0, []⟩]

theorem reachable_pointerAndLeaf : pointerAndLeaf.Reachable := ⟨_, rfl⟩

/-- The own node of the pointer is edited there and back, and the pointer itself to the same values
on two ways. The leaf has no attributes. -/
theorem edits_last_win_pointerAndLeaf :
    let s := (pointerAndLeaf.step (.intern 0)).2
    let s₁ := s.editInPool 0 [.space .globalSpace, .qualifier .const true]
    let s₂ := s₁.editInPool 0 [.qualifier .const true, .space .localSpace, .space .globalSpace]
    ∃ h g g' : Handle, s.handles[2]? = some h ∧
      (s.editInPool 2 [.space .localSpace, .qualifier .restrict true, .space .privateSpace,
        .qualifier .restrict false]).handles.back? = some h ∧
      s₁.handles.back? = some g ∧
      (∃ b, g.type = .pointer b (.builtin .bool) ∧ b.space = .globalSpace) ∧
      s₂.handles.back? = some g' ∧ g'.sameNode g = true ∧
      ∀ e : AttrEdit,
        s.step (e.request 1) = (.buildError (.kindMismatch .pointer .primitive), s) := by
  intro s s₁ s₂
  have hv := reachable_pointerAndLeaf.valid
  have hs : s.Reachable := reachable_pointerAndLeaf.step (.intern 0)
  obtain ⟨a, ha⟩ : ∃ a, pointerAndLeaf.interned? (.intern 0) = some a := ⟨_, rfl⟩
  obtain ⟨l, hl⟩ : ∃ l, pointerAndLeaf.handles[1]? = some l := ⟨_, rfl⟩
  obtain ⟨-, q, h, hstep, hht⟩ := hv.exists_poolStep ha
  have hn := hstep.next hv
  have hat : a.type = .pointer .plain (.builtin .bool) := by
    cases ha
    rfl
  have hlk : l.kind = .primitive := by
    cases hl
    rfl
  have ho : s.pool.owns h.tag = true := by
    rw [hstep.pool_eq hv]
    exact hstep.valid.owns_of_mem (hstep.mem h (List.mem_singleton_self h)).1
  -- the own node
  have hh : s.handles[2]? = some h := hstep.getElem?_size
  obtain ⟨hedit, -, -⟩ := hs.edits_last_win hh
  obtain ⟨k, hk, -, -, hback, -⟩ := hedit .plain _ (hht.trans hat) [.space .localSpace,
    .qualifier .restrict true, .space .privateSpace, .qualifier .restrict false] _ (by simp) rfl
  obtain rfl := hback ho (by decide)
  -- the pointer outside
  have ha : s.handles[0]? = some a := hn.grows.getElem? ha
  have hcur : s₁.current = s.current := (hn.valid.editInPool ha hat (by simp)).2.1
  obtain ⟨hedit, -, -⟩ := hs.edits_last_win ha
  obtain ⟨g, hg, -, ⟨b, hb, hbs, -⟩, -, -, -, hagain⟩ := hedit .plain _ hat
    [.space .globalSpace, .qualifier .const true] s₁ (by simp) rfl
  obtain ⟨g', hg', hiff⟩ := hagain [] [.qualifier .const true, .space .localSpace,
    .space .globalSpace] s₁ s₂ rfl hcur (by simp) rfl
  -- the leaf
  obtain ⟨-, -, hrefuse⟩ := hs.edits_last_win (hn.grows.getElem? hl)
  rw [hlk] at hrefuse
  exact ⟨k, g, g', hh, hk, hg, ⟨b, hb, hbs⟩, hg', hiff.2 (by decide), hrefuse (by decide)⟩

end Session

end KernelSymbol
