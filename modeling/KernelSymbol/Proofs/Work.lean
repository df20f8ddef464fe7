import KernelSymbol.Proofs.Replay
import KernelSymbol.Proofs.Unambiguous
import Mathlib.Algebra.BigOperators.Group.List.Basic
import Mathlib.Algebra.GroupWithZero.Nat

/-!
# The work of reading a symbol

A decoder looks up one node for each builtin, name, pointer and vector that is spelled in a text,
and none for a reference. That one look-up is enough relies on every node that the decoder holds
being the pool's own at that time: above a node from elsewhere, the whole chain would be looked up,
and since references can double the size of a type with a few characters, the work would not be
bounded by the text any more. In a symbol the look-ups are counted by the parse tree, and so is the
depth of a type, although references put types inside each other that are spelled far apart.

A text that is no symbol has no parse tree. What was done until the fault was found is bounded by
the characters that were read.

## Main definitions

* `TypeTree.leaves`, `TypeTree.pointers`, `TypeTree.vectors` — what is spelled in a text
* `Stem.lookups`, `Opening.components` — what the parts of a parameter cost
* `Decoder.Paced` — a count that grows with the parts of a parameter

## Main results

* `Decoder.Valid.lookups_descend`, `Decoder.Valid.lookups_readParams` — the look-ups for a type, and
  for types in a row
* `Decoder.Paced.readParams` — no more than a text has characters, whether it is a symbol or not
* `TypeTree.depth_le`, `TypeTree.depth_le_of_getElem?` — depth is bounded by what was spelled so far
* `Session.Reachable.decode_work` — whole symbols, and texts that are none
-/

namespace KernelSymbol

/-! ### What is spelled -/

namespace TypeTree

/-- The builtins and names in a text. -/
def leaves : TypeTree → Nat
  | builtin _ | named _ _ => 1
  | reference _ | pointerTo _ => 0
  | vector _ element => element.leaves
  | pointer _ _ target => target.leaves

/-- The pointers in a text, each of which is a `P`. -/
def pointers : TypeTree → Nat
  | builtin _ | named _ _ | reference _ => 0
  | pointerTo _ => 1
  | vector _ element => element.pointers
  | pointer _ _ target => target.pointers + 1

/-- The vectors in a text, each of which is a `Dv`. -/
def vectors : TypeTree → Nat
  | builtin _ | named _ _ | reference _ | pointerTo _ => 0
  | vector _ element => element.vectors + 1
  | pointer _ _ target => target.vectors

/-- The nodes that a text asks for. -/
def nodes (tree : TypeTree) : Nat := tree.leaves + tree.pointers + tree.vectors

/-- The pointers and vectors in a text. -/
def links (tree : TypeTree) : Nat := tree.pointers + tree.vectors

@[simp] theorem nodes_vector (digits : List Char) (element : TypeTree) :
    (vector digits element).nodes = element.nodes + 1 := rfl

@[simp] theorem nodes_pointer (space : Option AddressSpace) (qs : QualifierSet)
    (target : TypeTree) :
    (pointer space qs target).nodes = target.nodes + 1 := by
  simp only [nodes, leaves, pointers, vectors]
  omega

@[simp] theorem links_vector (digits : List Char) (element : TypeTree) :
    (vector digits element).links = element.links + 1 := rfl

@[simp] theorem links_pointer (space : Option AddressSpace) (qs : QualifierSet)
    (target : TypeTree) :
    (pointer space qs target).links = target.links + 1 := by
  simp only [links, pointers, vectors]
  omega

theorem sum_nodes (trees : List TypeTree) : (trees.map nodes).sum =
    (trees.map leaves).sum + (trees.map pointers).sum + (trees.map vectors).sum := by
  rw [← List.sum_map_add, ← List.sum_map_add]
  rfl

theorem sum_links (trees : List TypeTree) :
    (trees.map links).sum = (trees.map pointers).sum + (trees.map vectors).sum :=
  List.sum_map_add

variable {table table' : List (Component ArgType)} {n : Nat}

/-- Behind components that are not deeper than `n`, a type and the components then are not deeper
than `n` and the pointers and vectors that are spelled. -/
theorem depth_le {tree : TypeTree} {t : ArgType} (hn : ∀ c ∈ table, c.node.depth ≤ n)
    (h : tree.meaning? table = some (t, table')) :
    t.depth ≤ n + tree.links ∧ ∀ c ∈ table', c.node.depth ≤ n + tree.links := by
  induction tree generalizing t table' with
  | builtin b =>
    cases h
    exact ⟨Nat.zero_le _, hn⟩
  | named digits name =>
    simp only [meaning?] at h
    split at h
    next b hb =>
      cases h
      exact ⟨Nat.zero_le _, hn⟩
    next hb =>
      cases h
      refine ⟨Nat.zero_le _, List.forall_mem_append.2 ⟨hn, ?_⟩⟩
      exact List.forall_mem_singleton.2 (Nat.zero_le _)
  | reference digits =>
    simp only [meaning?] at h
    split at h
    next u hi =>
      cases h
      exact ⟨hn _ (List.mem_of_getElem? hi), hn⟩
    next => cases h
  | vector digits element ih =>
    simp only [meaning?] at h
    split at h
    next u table₁ hu =>
      split at h
      next =>
        cases h
        obtain ⟨hu, htable⟩ := ih hu
        rw [links_vector]
        refine ⟨Nat.succ_le_succ hu, List.forall_mem_append.2 ⟨fun c hc => ?_, ?_⟩⟩
        · exact Nat.le_succ_of_le (htable c hc)
        · exact List.forall_mem_singleton.2 (Nat.succ_le_succ hu)
      next => cases h
    next => cases h
  | pointerTo digits =>
    have hlinks : (pointerTo digits).links = 1 := rfl
    rw [hlinks]
    -- the pointer is one deeper than what the reference is about
    have key : ∀ {c : Component ArgType} (a : PointerAttrs), c ∈ table →
        (ArgType.pointer a c.node).depth ≤ n + 1 ∧
          ∀ k ∈ table ++ [.whole (.pointer a c.node)], k.node.depth ≤ n + 1 := by
      intro c a hc
      have hp : (ArgType.pointer a c.node).depth ≤ n + 1 := Nat.succ_le_succ (hn c hc)
      refine ⟨hp, List.forall_mem_append.2 ⟨fun k hk => Nat.le_succ_of_le (hn k hk), ?_⟩⟩
      exact List.forall_mem_singleton.2 hp
    simp only [meaning?] at h
    split at h
    next u hi =>
      cases h
      exact key .plain (List.mem_of_getElem? hi)
    next a u hi =>
      cases h
      exact key a (List.mem_of_getElem? hi)
    next => cases h
  | pointer space qs target ih =>
    simp only [meaning?] at h
    split at h
    next u table₁ hu =>
      cases h
      obtain ⟨hu, htable⟩ := ih hu
      rw [links_pointer]
      refine ⟨Nat.succ_le_succ hu, List.forall_mem_append.2 ⟨List.forall_mem_append.2
        ⟨fun c hc => Nat.le_succ_of_le (htable c hc), fun c hc => ?_⟩, ?_⟩⟩
      · split at hc
        next =>
          obtain rfl := List.mem_singleton.1 hc
          exact Nat.le_succ_of_le hu
        next => cases hc
      · exact List.forall_mem_singleton.2 (Nat.succ_le_succ hu)
    next => cases h

/-- The types of trees in a row are not deeper than the pointers and vectors up to the end of
each. -/
theorem depth_le_of_getElem? {trees : List TypeTree} {ts : List ArgType}
    (hn : ∀ c ∈ table, c.node.depth ≤ n) (h : meanings? table trees = some (ts, table')) {i : Nat}
    {t : ArgType} (hi : ts[i]? = some t) :
    t.depth ≤ n + ((trees.take (i + 1)).map links).sum := by
  induction trees generalizing table ts n i with
  | nil =>
    cases h
    cases hi
  | cons tree trees ih =>
    simp only [meanings?] at h
    split at h
    next u table₁ hm =>
      split at h
      next us table₂ hms =>
        cases h
        obtain ⟨hu, htable⟩ := depth_le hn hm
        rw [List.take_succ_cons, List.map_cons, List.sum_cons]
        cases i with
        | zero =>
          cases hi
          omega
        | succ i =>
          have hrest := ih htable hms hi
          omega
      next => cases h
    next => cases h

end TypeTree

/-! ### The look-ups of a symbol -/

/-- The look-ups for a stem. A reference is in the table. -/
def Stem.lookups : Stem → Nat
  | .reference .. => 0
  | _ => 1

namespace Decoder

variable {d d' : Decoder} {g h : Handle} {table : List (Component ArgType)}

/-- A stem that stands for a type costs its look-ups. -/
theorem Valid.lookups_resolve (hd : d.Valid) {stem : Stem} (h : d.resolve stem = (.ok g, d')) :
    d'.pool.lookups = d.pool.lookups + stem.lookups := by
  have hr := d.resolves stem
  rw [h] at hr
  cases hr with
  | builtin b => exact (hd.pool.replays_leaf (.builtin b)).lookups_eq
  | named place hc => exact (hd.pool.replays_leaf _).lookups_eq
  | reference place hm => rfl
  | pointerTo place a hm => exact (hd.pool.replays_wrap (.pointer a) (hd.mem _ hm)).lookups_eq

/-- Closing an opening around a stored node costs one look-up. -/
theorem Valid.lookups_closeOne (hd : d.Valid) (hm : h ∈ d.pool.nodes) {opening : Opening}
    (hc : d.closeOne h opening = (.ok g, d')) : d'.pool.lookups = d.pool.lookups + 1 := by
  have hr := d.closes h opening
  rw [hc] at hr
  cases hr with
  | plain a => exact (hd.pool.replays_wrap (.pointer a) hm).lookups_eq
  | spelled a => exact (hd.pool.replays_wrap (.pointer a) hm).lookups_eq
  | vector place hc => exact (hd.pool.replays_wrap _ hm).lookups_eq

theorem Valid.lookups_stem (hd : d.Valid) {stem : Stem} {front rest : List Char}
    (hs : StemText stem front rest) (hr : d.descend (front ++ rest) = (.ok (g, rest), d')) :
    d'.pool.lookups = d.pool.lookups + stem.lookups := by
  rw [descend_stem hs] at hr
  rcases hg : d.resolve stem with ⟨e | k, d₁⟩ <;> rw [hg] at hr <;> cases hr
  exact hd.lookups_resolve hg

/-- What is built inside an opening costs one look-up more with it. -/
theorem Builds.lookups_inside {t : ArgType} {r : Handle × Decoder} (hB : Builds d t table r)
    {rest : List Char} {opening : Opening}
    (hr : inside (.ok (r.1, rest), r.2) (fun d h => d.closeOne h opening) = (.ok (g, rest), d')) :
    d'.pool.lookups = r.2.pool.lookups + 1 := by
  rw [inside] at hr
  rcases hc : r.2.closeOne r.1 opening with ⟨e | k, d₁⟩ <;> rw [hc] at hr <;> cases hr
  exact hB.valid.lookups_closeOne hB.yields.mem hc

/-- A type that has a parse tree costs a look-up for each node in it. -/
theorem Valid.lookups_descend (hd : d.Valid) {tree : TypeTree} (hs : tree.Spelled)
    (hf : tree.Fits .lenient) {t : ArgType} (hm : tree.meaning? d.types = some (t, table))
    {rest : List Char} (hr : d.descend (tree.text ++ rest) = (.ok (g, rest), d')) :
    d'.pool.lookups = d.pool.lookups + tree.nodes := by
  induction tree generalizing t table g d' with
  | builtin b =>
    have hstem : StemText (.builtin b) (TypeTree.builtin b).text rest := by
      rcases TypeTree.text_builtin hs with ⟨c, hc, -, htext⟩ | ⟨c, hc, htext⟩ <;> rw [htext]
      · exact .letter hc
      · exact .extended hc
    exact hd.lookups_stem hstem hr
  | named digits name =>
    have hn : NameText .lenient name (digits ++ name.toList) :=
      nameText_iff.2 ⟨digits, rfl, hs, hf.numerals _ (List.mem_singleton_self _)⟩
    cases hb : Builtin.ofSpelling? (.source name) with
    | some b => exact hd.lookups_stem (.source (Builtin.ofSpelling?_eq_some_iff.1 hb) hn) hr
    | none => exact hd.lookups_stem (.named (Builtin.ofSpelling?_eq_none_iff.1 hb) hn) hr
  | reference digits =>
    have hi : ReferenceText .lenient (referencePlace digits) (referenceText digits) :=
      referenceText_iff.2 ⟨digits, rfl, hs, rfl, hf.numerals _ (List.mem_singleton_self _),
        hf.counted _ (List.mem_singleton_self _)⟩
    exact hd.lookups_stem (.reference hi) hr
  | pointerTo digits =>
    have hi : ReferenceText .lenient (referencePlace digits) (referenceText digits) :=
      referenceText_iff.2 ⟨digits, rfl, hs, rfl, hf.numerals _ (List.mem_singleton_self _),
        hf.counted _ (List.mem_singleton_self _)⟩
    rw [TypeTree.text, descend_pointerTo hi] at hr
    rcases hg : d.resolve (.pointerTo (referencePlace digits) (referenceText digits ++ rest))
      with ⟨e | k, d₁⟩ <;> rw [hg] at hr <;> cases hr
    exact hd.lookups_resolve hg
  | vector digits element ih =>
    obtain ⟨hne, hdigits, hs⟩ := hs
    obtain ⟨hfd, hnumerals⟩ := List.forall_mem_cons.1 hf.numerals
    have hfe : element.Fits .lenient :=
      ⟨hnumerals, (List.forall_mem_cons.1 hf.counted).2, hf.spaces⟩
    simp only [TypeTree.meaning?] at hm
    split at hm
    next u table₁ hu =>
      split at hm
      next hn =>
        have hv : (UInt32.ofNat (Radix.ten.value digits)).toNat = Radix.ten.value digits :=
          UInt32.toNat_ofNat_of_lt' hn.2.1
        have hnum : NumberText .lenient .ten (UInt32.ofNat (Radix.ten.value digits)).toNat digits :=
          numberText_iff.2 ⟨hne, hdigits, hv.symm, hfd⟩
        obtain ⟨r, hr₁, hB⟩ := (TypeTree.typeText hs hfe hu).descend hd
        have hinner := ih hs hfe hu (hr₁ rest)
        rw [TypeTree.text, descend_vector hnum, hr₁] at hr
        have houter := hB.lookups_inside hr
        rw [TypeTree.nodes_vector]
        omega
      next => cases hm
    next => cases hm
  | pointer space qs target ih =>
    obtain ⟨hk, hS, hs⟩ := hs
    simp only [TypeTree.meaning?] at hm
    split at hm
    next u table₁ hu =>
      have hft : target.Fits .lenient := ⟨hf.numerals, hf.counted, fun h => by cases h⟩
      have ht := TypeTree.typeText hs hft hu
      have ha : AttrsText .lenient ⟨space.getD default, qs⟩ (space.isSome || !qs.isEmpty)
          (spaceText space ++ qs.toList.map Qualifier.letter) :=
        attrsText_iff.2 ⟨space, qs, hk, rfl, rfl, rfl, fun h => by cases h⟩
      have htext : (TypeTree.pointer space qs target).text
          = 'P' :: (spaceText space ++ qs.toList.map Qualifier.letter) ++ target.text := rfl
      obtain ⟨r, hr₁, hB⟩ := ht.descend hd
      have hinner := ih hs hft hu (hr₁ rest)
      rw [htext, descend_pointer ha hS ht, hr₁] at hr
      have houter := hB.lookups_inside hr
      rw [TypeTree.nodes_pointer]
      omega
    next => cases hm

/-- Types in a row that have parse trees cost a look-up for each node in them. -/
theorem Valid.lookups_readParams (hd : d.Valid) {trees : List TypeTree}
    (htrees : ∀ tree ∈ trees, tree.Spelled ∧ tree.Fits .lenient) {ts : List ArgType}
    (hm : TypeTree.meanings? d.types trees = some (ts, table)) (params : List Handle) :
    (d.readParams params (trees.flatMap TypeTree.text)).2.pool.lookups
      = d.pool.lookups + (trees.map TypeTree.nodes).sum := by
  induction trees generalizing d ts params with
  | nil =>
    rw [List.flatMap_nil, readParams_nil]
    rfl
  | cons tree trees ih =>
    obtain ⟨⟨hs, hf⟩, htrees⟩ := List.forall_mem_cons.1 htrees
    simp only [TypeTree.meanings?] at hm
    split at hm
    next u table₁ hu =>
      split at hm
      next us table₂ hus =>
        cases hm
        obtain ⟨r, hr, hB⟩ := (TypeTree.typeText hs hf hu).descend hd
        have hone := hd.lookups_descend hs hf hu (hr (trees.flatMap TypeTree.text))
        have hrest := ih hB.valid htrees (hB.types_eq ▸ hus) (r.1 :: params)
        have hne : ¬(tree.text ++ trees.flatMap TypeTree.text).isEmpty = true := by
          simp [TypeTree.text_ne_nil hs]
        rw [List.flatMap_cons, readParams_of_not_isEmpty hne, param_eq_descend, hr, List.map_cons,
          List.sum_cons]
        dsimp only
        omega
      next => cases hm
    next => cases hm

end Decoder

/-! ### The pace of a decoder -/

/-- The components that closing an opening can record. -/
def Opening.components : Opening → Nat
  | .pointer _ true => 2
  | _ => 1

theorem Opening.components_pos (opening : Opening) : 0 < opening.components := by
  rcases opening with ⟨_, _ | _⟩ | _ <;> exact Nat.succ_pos _

/-- The text of a parameter has a character for each component of its openings, and one for its
stem. The attributes that a pointer records take up characters of their own. -/
theorem readLexeme_components {openings : List Opening} {cs rest : List Char} {lexeme : Lexeme}
    (h : readLexeme openings cs = .ok (lexeme, rest)) :
    (lexeme.openings.map Opening.components).sum + 1 + rest.length
      ≤ (openings.map Opening.components).sum + cs.length := by
  fun_induction readLexeme openings cs with
  | case1 => cases h
  | case2 openings cs tail hv n tail' hn ih =>
    have hlen := (readVectorLength_suffix hn).length_le
    have hrest := ih h
    rw [after?_eq_some_iff.1 hv]
    simp only [List.map_cons, List.sum_cons, Opening.components, List.cons_append,
      List.nil_append, List.length_cons] at hrest ⊢
    omega
  | case3 => cases h
  | case4 openings cs hv tail hp tail' hs i tail'' hr =>
    cases h
    have hlen := (readReference_suffix hr).length_le
    rw [after?_eq_some_iff.1 hp, after?_eq_some_iff.1 hs]
    simp only [List.cons_append, List.nil_append, List.length_cons]
    omega
  | case5 => cases h
  | case6 openings cs hv tail hp hs attrs spelled tail' ha ih =>
    obtain ⟨front, rfl, hattrs⟩ := attrsText_of_readAttrs ha
    have hcomponents : (Opening.pointer attrs spelled).components ≤ front.length + 1 := by
      cases spelled with
      | false => exact Nat.le_add_left ..
      | true => exact Nat.succ_le_succ hattrs.length_pos
    have hrest := ih h
    rw [after?_eq_some_iff.1 hp]
    simp only [List.map_cons, List.sum_cons, List.cons_append, List.nil_append,
      List.length_cons, List.length_append] at hrest ⊢
    omega
  | case7 => cases h
  | case8 openings cs hv hp stem tail hs =>
    cases h
    have hlen := readStem_length hs
    dsimp only
    omega

namespace Decoder

/-- A count goes up by one at most with a stem, and with an opening by its components at most. -/
structure Paced (m : Decoder → Nat) : Prop where
  resolve : ∀ {d : Decoder}, d.Valid → ∀ stem : Stem, m (d.resolve stem).2 ≤ m d + 1
  closeOne : ∀ {d : Decoder} {h : Handle}, d.Valid → h ∈ d.pool.nodes → ∀ opening : Opening,
    m (d.closeOne h opening).2 ≤ m d + opening.components

/-- Each part of a parameter costs one look-up at most. -/
theorem paced_lookups : Paced fun d => d.pool.lookups where
  resolve {d} hd stem := by
    rcases hr : d.resolve stem with ⟨e | g, d'⟩
    · rw [eq_of_resolve_error hr]
      exact Nat.le_succ _
    · have hlookups := hd.lookups_resolve hr
      have hstem : stem.lookups ≤ 1 := by cases stem <;> exact Nat.le_of_ble_eq_true rfl
      dsimp only
      omega
  closeOne {d h} hd hm opening := by
    have hpos := opening.components_pos
    rcases hr : d.closeOne h opening with ⟨e | g, d'⟩
    · rw [eq_of_closeOne_error hr]
      exact Nat.le_add_right ..
    · have hlookups := hd.lookups_closeOne hm hr
      dsimp only
      omega

/-- The table grows by the components. -/
theorem paced_size : Paced fun d => d.table.size where
  resolve {d} _ stem := by
    have hr := d.resolves stem
    generalize d.resolve stem = r at hr ⊢
    cases hr with
    | builtin | reference | fault => exact Nat.le_succ _
    | named | pointerTo => exact (Array.size_push _).le
  closeOne {d h} _ _ opening := by
    have hr := d.closes h opening
    generalize d.closeOne h opening = r at hr ⊢
    cases hr with
    | plain a => exact (Array.size_push _).le
    | spelled a => exact ((Array.size_push _).trans (congrArg (· + 1) (Array.size_push _))).le
    | vector place hc => exact (Array.size_push _).le
    | fault place he => exact Nat.le_add_right ..

/-- The characters that are left behind what was read. Behind a fault nothing is. -/
def charsLeft {α : Type} : Read α → Nat
  | .ok (_, rest) => rest.length
  | .error _ => 0

variable {m : Decoder → Nat}

theorem Paced.close (hP : Paced m) (hd : d.Valid) (hm : h ∈ d.pool.nodes)
    (openings : List Opening) :
    m (d.close h openings).2 ≤ m d + (openings.map Opening.components).sum := by
  induction openings generalizing d h with
  | nil => exact Nat.le_refl _
  | cons opening openings ih =>
    have hone := hP.closeOne hd hm opening
    have hleaves := invariant_valid.closeOne hd hm opening
    rw [Decoder.close, List.map_cons, List.sum_cons]
    rcases hr : d.closeOne h opening with ⟨e | g, d'⟩ <;> rw [hr] at hone hleaves <;>
      dsimp only at hone ⊢
    · omega
    · have hrest := ih hleaves.1 hleaves.2
      omega

theorem Paced.build (hP : Paced m) (hd : d.Valid) (lexeme : Lexeme) :
    m (d.build lexeme).2 ≤ m d + (lexeme.openings.map Opening.components).sum + 1 := by
  have hstem := hP.resolve hd lexeme.stem
  have hleaves := invariant_valid.resolve hd lexeme.stem
  rw [Decoder.build]
  rcases hr : d.resolve lexeme.stem with ⟨e | g, d'⟩ <;> rw [hr] at hstem hleaves <;>
    dsimp only at hstem ⊢
  · omega
  · have hrest := hP.close hleaves.1 hleaves.2 lexeme.openings
    omega

/-- A parameter adds no more than the characters that were read, and a text that is no parameter no
more than its own. -/
theorem Paced.param (hP : Paced m) (hd : d.Valid) (cs : List Char) :
    m (d.param cs).2 + charsLeft (d.param cs).1 ≤ m d + cs.length := by
  rw [Decoder.param]
  rcases hl : readLexeme [] cs with e | ⟨lexeme, rest⟩
  · exact Nat.le_add_right ..
  · have hbuild := hP.build hd lexeme
    have htext := readLexeme_components hl
    rw [List.map_nil, List.sum_nil] at htext
    dsimp only
    rcases hr : d.build lexeme with ⟨e | g, d'⟩ <;> rw [hr] at hbuild <;>
      dsimp only [charsLeft] at hbuild ⊢ <;> omega

/-- Parameters add no more than the characters of the text, whether it is read to the end or not. -/
theorem Paced.readParams (hP : Paced m) (hd : d.Valid) (params : List Handle) (cs : List Char) :
    m (d.readParams params cs).2 ≤ m d + cs.length := by
  fun_induction Decoder.readParams d params cs with
  | case1 => exact Nat.le_add_right ..
  | case2 d params cs he e d' hp =>
    have hone := hP.param hd cs
    rw [hp] at hone
    exact hone
  | case3 d params cs he g rest d' hp ih =>
    have hone := hP.param hd cs
    have hvalid := invariant_valid.param hd cs
    rw [hp] at hone hvalid
    have hrest := ih hvalid
    dsimp only [charsLeft] at hone
    omega

end Decoder

/-! ### Whole symbols -/

section

variable {p : Pool} {tree : SymbolTree} {f : Signature ArgType} {ts : List ArgType}
  {table : List (Component ArgType)}

/-- A parameter list costs no more look-ups than its text has characters. -/
theorem Pool.Valid.lookups_decodeParams_le (hp : p.Valid) (cs : List Char) :
    (decodeParams cs p).2.lookups ≤ p.lookups + cs.length := by
  rw [decodeParams]
  split
  · exact Nat.le_add_right ..
  · split
    · exact Nat.le_add_right ..
    · exact Decoder.paced_lookups.readParams (Decoder.valid_start hp) [] cs

theorem Pool.Valid.length_paramComponents_le (hp : p.Valid) (cs : List Char) :
    (paramComponents cs p).length ≤ cs.length := by
  rw [paramComponents]
  split
  · exact Nat.zero_le _
  · have h := Decoder.paced_size.readParams (Decoder.valid_start hp) [] cs
    simpa [Decoder.types, Decoder.start] using h

/-- Each type in a row takes up a character. -/
theorem TypeTree.length_le_length_flatMap {trees : List TypeTree} (h : ∀ t ∈ trees, t.Spelled) :
    trees.length ≤ (trees.flatMap text).length := by
  induction trees with
  | nil => exact Nat.le_refl 0
  | cons t trees ih =>
    obtain ⟨ht, htrees⟩ := List.forall_mem_cons.1 h
    have hpos := List.length_pos_iff.2 (text_ne_nil ht)
    have hrest := ih htrees
    rw [List.flatMap_cons, List.length_append, List.length_cons]
    omega

namespace SymbolTree

theorem Spelled.length_params_le (hs : tree.Spelled) : tree.params.length ≤ tree.body.length := by
  by_cases he : tree.params = []
  · rw [he]
    exact Nat.zero_le _
  · rw [tree.body_of_ne_nil he]
    exact TypeTree.length_le_length_flatMap hs.params

/-- A parameter list that has parse trees costs a look-up for each node in them. -/
theorem Spelled.lookups_decodeParams (hs : tree.Spelled) (hf : tree.Fits .lenient) (hp : p.Valid)
    (hm : TypeTree.meanings? [] tree.params = some (ts, table)) :
    (decodeParams tree.body p).2.lookups = p.lookups + (tree.params.map TypeTree.nodes).sum := by
  by_cases he : tree.params = []
  · have hv : tree.body = ['v'] := by
      rw [body, he]
      rfl
    rw [hv, he]
    rfl
  · have hne : tree.body ≠ [] := by
      rintro hnil
      have hlen := hs.length_params_le
      rw [hnil] at hlen
      exact he (List.length_eq_zero_iff.1 (Nat.le_zero.1 hlen))
    rw [decodeParams_of_ne p (hs.body_ne he) hne, tree.body_of_ne_nil he]
    have htrees : ∀ t ∈ tree.params, t.Spelled ∧ t.Fits .lenient := fun t ht =>
      ⟨hs.params t ht, (fits_iff.1 hf).2 t ht⟩
    exact (Decoder.valid_start hp).lookups_readParams htrees hm []

theorem Derives.readHead_eq {text : String} (h : tree.Derives text f table)
    (hf : tree.Fits .lenient) : readHead text.toList = .ok (tree.name, tree.body) := by
  refine readHead_eq_ok_iff.2 ⟨tree.digits ++ tree.name.toList, ?_, ?_⟩
  · rw [← h.text_eq, SymbolTree.text, List.append_assoc _ tree.digits]
  · exact nameText_iff.2 ⟨tree.digits, rfl, h.spelled.name, (fits_iff.1 hf).1⟩

end SymbolTree

end

namespace Session

variable {s : Session}

/-- A symbol that is decoded makes as many look-ups as there are builtins, names, pointers and
vectors in its only parse tree, references not counted, and so none for a `v` on its own. These
look-ups are no more than the bytes of the parameters, and neither are the components that were
recorded, nor the parameters. A parameter is not deeper than the pointers and vectors that are
spelled up to its end. A text that is no symbol makes no more look-ups, and records no more
components, than there are bytes behind the name of the function, and none at all without such a
name. -/
theorem Reachable.decode_work (hs : s.Reachable) {i : Nat} {p : Pool} (hp : s.pools[i]? = some p)
    (text : String) :
    (∀ (f : Signature Handle) (q : Pool), KernelSymbol.decode text p = (.ok f, q) →
      ∃ tree : SymbolTree, tree.Derives text (f.map Handle.type) (symbolComponents text p) ∧
        (∀ (tree' : SymbolTree) (f' : Signature ArgType) (table : List (Component ArgType)),
          tree'.Derives text f' table → tree' = tree) ∧
        ∃ n : Nat, n = (tree.params.map TypeTree.leaves).sum
            + (tree.params.map TypeTree.pointers).sum + (tree.params.map TypeTree.vectors).sum ∧
          q.hits + q.misses = p.hits + p.misses + n ∧
          (tree.body = ['v'] → n = 0) ∧
          n ≤ byteCount tree.body ∧
          (symbolComponents text p).length ≤ byteCount tree.body ∧
          f.params.length ≤ byteCount tree.body ∧
          ∀ (j : Nat) (h : Handle), f.params[j]? = some h → h.type.depth ≤
            ((tree.params.take (j + 1)).map TypeTree.pointers).sum
              + ((tree.params.take (j + 1)).map TypeTree.vectors).sum) ∧
    (∀ (e : DecodeError Nat) (q : Pool), KernelSymbol.decode text p = (.error e, q) →
      (∀ (name : String) (front rest : List Char), text.toList = ['_', 'Z'] ++ front ++ rest →
        NameText .lenient name front → q.hits + q.misses ≤ p.hits + p.misses + byteCount rest ∧
          (symbolComponents text p).length ≤ byteCount rest) ∧
      ((∀ (name : String) (front rest : List Char), text.toList = ['_', 'Z'] ++ front ++ rest →
        ¬NameText .lenient name front) → q = p ∧ symbolComponents text p = [])) := by
  have hv := (hs.valid.pool hp).1
  refine ⟨fun f q hd => ?_, fun e q hd => ⟨fun name front rest htext hn => ?_, fun hno => ?_⟩⟩
  · obtain ⟨ht, -⟩ := symbolText_components hv hd
    obtain ⟨tree, htree, hf⟩ := (symbolText_iff (f := f.map Handle.type)).1 ht
    have hspelled := htree.spelled
    have hhead := htree.readHead_eq hf
    have hcomponents : symbolComponents text p = paramComponents tree.body p := by
      rw [symbolComponents, hhead]
    obtain rfl : (decodeParams tree.body p).2 = q := by
      rw [decode_of_readHead hhead] at hd
      exact congrArg Prod.snd hd
    have hbytes := length_le_byteCount tree.body
    have hlookups := hspelled.lookups_decodeParams hf hv htree.meaning_eq
    have hle := hv.lookups_decodeParams_le tree.body
    have hlength : f.params.length = tree.params.length := by
      rw [← TypeTree.length_eq_of_meanings? htree.meaning_eq]
      exact (List.length_map _).symm
    refine ⟨tree, htree, fun tree' f' table h => (h.unique htree).1, _,
      TypeTree.sum_nodes tree.params, hlookups, fun hv => ?_, ?_, ?_, ?_, fun j h hj => ?_⟩
    · have hnil : tree.params = [] := Classical.not_not.1 fun hne => hspelled.body_ne hne hv
      rw [hnil]
      rfl
    · omega
    · rw [hcomponents]
      exact (hv.length_paramComponents_le _).trans hbytes
    · rw [hlength]
      exact hspelled.length_params_le.trans hbytes
    · have hj' : (f.map Handle.type).params[j]? = some h.type := by
        rw [Signature.map, List.getElem?_map, hj, Option.map_some]
      have hdepth := TypeTree.depth_le_of_getElem? (n := 0) (List.forall_mem_nil _)
        htree.meaning_eq hj'
      rwa [Nat.zero_add, TypeTree.sum_links] at hdepth
  · have hhead := readHead_eq_ok_iff.2 ⟨front, htext, hn⟩
    have hbytes := length_le_byteCount rest
    rw [symbolComponents, hhead]
    rw [decode_of_readHead hhead] at hd
    obtain rfl := congrArg Prod.snd hd
    exact ⟨(hv.lookups_decodeParams_le rest).trans (Nat.add_le_add_left hbytes _),
      (hv.length_paramComponents_le rest).trans hbytes⟩
  · rcases hhead : readHead text.toList with e' | ⟨name, rest⟩
    · rw [symbolComponents, hhead]
      rw [KernelSymbol.decode, decodeText, hhead] at hd
      cases hd
      exact ⟨rfl, rfl⟩
    · obtain ⟨front, htext, hn⟩ := readHead_eq_ok_iff.1 hhead
      exact absurd hn (hno name front rest htext)

/-- Three builtins and names, three pointers and a vector are seven look-ups. Of the text that is no
symbol, three bytes are behind the name. -/
theorem decode_work_mixedTree : ∃ (p : Pool) (f : Signature Handle) (q q' : Pool),
    start.pools[0]? = some p ∧
      KernelSymbol.decode "_Z3mixDv04_f01aPS_PU3AS1KiPS2_" p = (.ok f, q) ∧
      q.hits + q.misses = p.hits + p.misses + 7 ∧
      KernelSymbol.decode "_Z1fPi?" p = (.error (.unknownCode '?' 6), q') ∧
      q'.hits + q'.misses ≤ p.hits + p.misses + 3 := by
  obtain ⟨p, hp⟩ : ∃ p, start.pools[0]? = some p := ⟨_, rfl⟩
  have hv := (reachable_start.valid.pool hp).1
  obtain ⟨r, hr, -⟩ := (derives_mixedTree.symbolText counted_mixedTree).decode hv
  obtain ⟨q', hq'⟩ := exists_decode_unknownCode hv
  obtain ⟨haccepts, -⟩ := reachable_start.decode_work hp "_Z3mixDv04_f01aPS_PU3AS1KiPS2_"
  obtain ⟨-, hrejects⟩ := reachable_start.decode_work hp "_Z1fPi?"
  obtain ⟨tree, -, hunique, n, hn, hlookups, -⟩ := haccepts _ _ hr
  obtain rfl := hunique _ _ _ derives_mixedTree
  obtain rfl : n = 7 := hn
  have hname : NameText .lenient "f" ['1', 'f'] :=
    nameText_iff.2 ⟨['1'], rfl, by decide, by decide, nofun⟩
  obtain ⟨hle, -⟩ := (hrejects _ _ hq').1 "f" ['1', 'f'] ['P', 'i', '?'] rfl hname
  exact ⟨p, _, r.2, q', hp, hr, hlookups, hq', hle⟩

end Session

end KernelSymbol
