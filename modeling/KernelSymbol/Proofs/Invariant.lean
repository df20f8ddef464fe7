import KernelSymbol.Proofs.Building

/-!
# Invariants of decoders

A decoder changes in five ways only: it builds a builtin, a named type, a vector, a pointer, or a
pointer whose attributes it records first. What these five keep, the reading of a whole symbol
keeps, and it is kept whether the text turns out to be a symbol or not.

An invariant may rely on more than itself. A node that the decoder builds upon is stored in its
pool, a name is not empty, and the element of a vector is a scalar; faults are found before anything
changes.

## Main definitions

* `Decoder.Invariant` — what the five ways to change keep
* `Decoder.Leaves` — what a step leaves behind that keeps an invariant
* `Decoder.Reading` — the decoders between the parameters of a text

## Main results

* `Decoder.invariant_valid` — validity is an invariant
* `Decoder.Invariant.param`, `Decoder.Invariant.reading`, `Decoder.Invariant.decode` — one
  parameter, several, and a whole symbol
-/

namespace KernelSymbol

namespace Decoder

/-- A property of decoders in valid pools that every way to change a decoder keeps. -/
structure Invariant (I : Decoder → Prop) : Prop where
  valid : ∀ {d : Decoder}, I d → d.Valid
  builtin : ∀ {d : Decoder} (b : Builtin), I d → I (d.builtin b).2
  named : ∀ {d : Decoder} {name : String} (place : List Char), I d → name ≠ "" →
    I (d.named name place).2
  vector : ∀ {d : Decoder} {n : UInt32} (place : List Char) {h : Handle}, I d →
    h ∈ d.pool.nodes → n ≠ 0 → h.type.isScalar = true → I (d.vector n place h).2
  pointer : ∀ {d : Decoder} (a : PointerAttrs) {h : Handle}, I d → h ∈ d.pool.nodes →
    I (d.pointer a h).2
  /-- The attributes of a pointer are recorded together with the pointer. -/
  spelled : ∀ {d : Decoder} (a : PointerAttrs) {h : Handle}, I d → h ∈ d.pool.nodes →
    I ((d.record (.qualified a h)).pointer a h).2

/-- What a step leaves behind: a decoder that has the property, and if the step yields a node, then
one that is stored there. -/
def Leaves (I : Decoder → Prop) : Except Fault Handle × Decoder → Prop
  | (.ok h, d) => I d ∧ h ∈ d.pool.nodes
  | (.error _, d) => I d

/-- The decoders between the parameters of a text, each with the text that is left. -/
inductive Reading (start : Decoder) (cs : List Char) : Decoder → List Char → Prop where
  | refl : Reading start cs start cs
  | param {d d' : Decoder} {rest rest' : List Char} {h : Handle} (hr : Reading start cs d rest)
    (hp : d.param rest = (.ok (h, rest'), d')) : Reading start cs d' rest'

theorem invariant_valid : Invariant Valid where
  valid := id
  builtin b hd := (hd.builtin b).valid
  named place hd hne := by
    obtain ⟨r, hr, hB⟩ := hd.named hne
    rw [hr]
    exact hB.valid
  vector place h hd hm hn hs := by
    obtain ⟨r, hr, hB⟩ := hd.vector hm hn hs
    rw [hr]
    exact hB.valid
  pointer a _ hd hm := (hd.pointer a hm).valid
  spelled a h hd hm := ((hd.record (c := .qualified a h) hm).pointer a hm).valid

variable {I : Decoder → Prop} {d : Decoder}

/-! ### One parameter -/

theorem Invariant.resolve (hI : Invariant I) (hd : I d) (stem : Stem) :
    Leaves I (d.resolve stem) := by
  have hv := hI.valid hd
  have hr := d.resolves stem
  generalize d.resolve stem = r at hr ⊢
  cases hr with
  | builtin b => exact ⟨hI.builtin b hd, (hv.builtin b).yields.mem⟩
  | named place hc =>
    have hne := ArgType.checkName_eq_ok_iff.1 hc
    have hkeep := hI.named place hd hne
    rw [named_of_ok d place hc] at hkeep
    exact ⟨hkeep, (hv.pool.leaf _).mem⟩
  | reference place hm => exact ⟨hd, hv.mem _ hm⟩
  | pointerTo place a hm =>
    exact ⟨hI.pointer a hd (hv.mem _ hm), (hv.pointer a (hv.mem _ hm)).yields.mem⟩
  | fault => exact hd

theorem Invariant.closeOne (hI : Invariant I) (hd : I d) {h : Handle} (hm : h ∈ d.pool.nodes)
    (opening : Opening) : Leaves I (d.closeOne h opening) := by
  have hv := hI.valid hd
  have hr := d.closes h opening
  generalize d.closeOne h opening = r at hr ⊢
  cases hr with
  | plain a => exact ⟨hI.pointer a hd hm, (hv.pointer a hm).yields.mem⟩
  | spelled a =>
    have hrec := hv.record (c := .qualified a h) hm
    exact ⟨hI.spelled a hd hm, (hrec.pointer a hm).yields.mem⟩
  | vector place hc =>
    obtain ⟨hn, hs⟩ := ArgType.checkVector_eq_ok_iff.1 hc
    have hkeep := hI.vector place hd hm hn hs
    rw [vector_of_ok d place hc] at hkeep
    exact ⟨hkeep, (hv.pool.wrap _ (hv.pool.knows_of_mem hm)).mem⟩
  | fault => exact hd

theorem Invariant.close (hI : Invariant I) (hd : I d) {h : Handle} (hm : h ∈ d.pool.nodes)
    (openings : List Opening) : Leaves I (d.close h openings) := by
  induction openings generalizing d h with
  | nil => exact ⟨hd, hm⟩
  | cons opening openings ih =>
    have hone := hI.closeOne hd hm opening
    rw [Decoder.close]
    rcases hr : d.closeOne h opening with ⟨e | g, d'⟩ <;> rw [hr] at hone
    · exact hone
    · exact ih hone.1 hone.2

theorem Invariant.build (hI : Invariant I) (hd : I d) (lexeme : Lexeme) :
    Leaves I (d.build lexeme) := by
  have hstem := hI.resolve hd lexeme.stem
  rw [Decoder.build]
  rcases hr : d.resolve lexeme.stem with ⟨e | h, d'⟩ <;> rw [hr] at hstem
  · exact hstem
  · exact hI.close hstem.1 hstem.2 lexeme.openings

/-- Reading one parameter keeps the invariant, whether it succeeds or not. -/
theorem Invariant.param (hI : Invariant I) (hd : I d) (cs : List Char) : I (d.param cs).2 := by
  rw [Decoder.param]
  rcases readLexeme [] cs with e | ⟨lexeme, rest⟩
  · exact hd
  · have hbuild := hI.build hd lexeme
    dsimp only
    rcases hr : d.build lexeme with ⟨e | h, d'⟩ <;> rw [hr] at hbuild
    · exact hbuild
    · exact hbuild.1

/-! ### Several parameters -/

/-- The invariant holds between the parameters of a text. -/
theorem Invariant.reading (hI : Invariant I) {start : Decoder} (hs : I start) {cs rest : List Char}
    (h : Reading start cs d rest) : I d := by
  induction h with
  | refl => exact hs
  | @param d d' rest rest' g _ hp ih =>
    have hparam := hI.param ih rest
    rwa [hp] at hparam

/-- Reading parameters to the end keeps the invariant, whether it succeeds or not. -/
theorem Invariant.readParams (hI : Invariant I) (hd : I d) (params : List Handle)
    (cs : List Char) : I (d.readParams params cs).2 := by
  fun_induction Decoder.readParams d params cs with
  | case1 => exact hd
  | case2 d params cs he e d' hp =>
    have hparam := hI.param hd cs
    rwa [hp] at hparam
  | case3 d params cs he h rest d' hp ih =>
    have hparam := hI.param hd cs
    rw [hp] at hparam
    exact ih hparam

/-- The pool that is left when a text was decoded, or was found to be no symbol, is that of a
decoder with the invariant. -/
theorem Invariant.decode (hI : Invariant I) {p : Pool} (hp : I (start p)) (text : String) :
    ∃ d, I d ∧ (KernelSymbol.decode text p).2 = d.pool := by
  have params : ∀ cs : List Char, ∃ d, I d ∧ (decodeParams cs p).2 = d.pool := by
    intro cs
    rw [decodeParams]
    split
    · exact ⟨_, hp, rfl⟩
    · split
      · exact ⟨_, hp, rfl⟩
      · exact ⟨_, hI.readParams hp [] cs, rfl⟩
  rw [KernelSymbol.decode, decodeText]
  rcases readHead text.toList with e | ⟨name, rest⟩
  · exact ⟨_, hp, rfl⟩
  · obtain ⟨d, hd, he⟩ := params rest
    refine ⟨d, hd, ?_⟩
    dsimp only
    rcases hr : decodeParams rest p with ⟨e | hs, q⟩ <;> rw [hr] at he <;> exact he

end Decoder

end KernelSymbol
