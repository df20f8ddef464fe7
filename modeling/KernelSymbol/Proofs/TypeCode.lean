import KernelSymbol.Proofs.Cursor
import KernelSymbol.Proofs.Equality
import KernelSymbol.Proofs.Overload

/-!
# The code of a type on its own

A type on its own is written behind an empty table. Components enter the table when their text is
complete, and every component of a type is deeper than what is written before it is complete. So
nothing is found in the table while one type is written, and its code is flat: all pointers, from
the outermost inwards, and then the end of the chain.

Different types have different codes but for two reasons: a builtin may be spelled like a name, and
of the qualifiers of a pointer only the bits with a letter are spelled. A name that starts with a
digit does no harm here. It may be taken for the rest of a longer length, but only if something
follows it.

## Main definitions

* `Ending.code`, `rowCode` — the text of the end of a chain, and of pointers that lead to it
* `Ending.Homonym` — a builtin and the named type that it is spelled like

## Main results

* `Transcript.text_type_pointers` — what is written for a type without components in the table
* `rowCode_eq_iff` — the types that have one code
* `Session.encodeType_flat` — the codes of all nodes
-/

namespace KernelSymbol

/-! ### Flat texts -/

/-- The text of the end of a chain. -/
def Ending.code : Ending → String
  | builtin b => b.code
  | vector length element => vectorCode length ++ element.code
  | named name => sourceName name

/-- The text of a row of pointers, from the outermost inwards, and of what it leads to. -/
def rowCode (as : List PointerAttrs) (e : Ending) : String :=
  String.join (as.map fun a => "P" ++ a.code) ++ e.code

/-- The letters of the qualifiers come in a fixed order. -/
theorem QualifierSet.code_eq (qs : QualifierSet) :
    qs.code = (if qs.restrict then "r" else "") ++ (if qs.volatile then "V" else "")
      ++ if qs.const then "K" else "" := by
  rw [← String.toList_inj, code, String.toList_ofList, map_letter_toList]
  simp only [Qualifier.flagText, String.toList_append]
  cases qs.restrict <;> cases qs.volatile <;> cases qs.const <;> decide +kernel

namespace Transcript

theorem refer_of_not_mem {s : Transcript} {t : ArgType} (h : .whole t ∉ s.table)
    (spell : Transcript → Transcript) : s.refer t spell = (spell s).record (.whole t) :=
  refer_of_none (List.idxOf?_eq_none_iff.2 h) spell

/-- The end of a chain is spelled. -/
theorem text_type_ending {s : Transcript} {e : Ending} (h : ∀ c ∈ e.type.components, c ∉ s.table) :
    (s.type e.type).text = s.text ++ e.code := by
  cases e with
  | builtin b => rfl
  | vector n b =>
    rw [Ending.type, ArgType.components_vector] at h
    rw [Ending.type, type_vector, refer_of_not_mem (h _ (by simp)), text_record, type_builtin,
      text_write, text_write, Ending.code, String.append_assoc]
  | named name =>
    rw [Ending.type, type_named, refer_of_not_mem (h _ (by simp [Ending.type])), text_record]
    rfl

/-- What is written for a type is flat if none of its components is in the table. -/
theorem text_type_pointers {s : Transcript} {as : List PointerAttrs} {e : Ending}
    (h : ∀ c ∈ (ArgType.pointers as e.type).components, c ∉ s.table) :
    (s.type (.pointers as e.type)).text = s.text ++ rowCode as e := by
  induction as generalizing s with
  | nil => simpa [ArgType.pointers, rowCode] using text_type_ending h
  | cons a as ih =>
    have hp : ArgType.pointers (a :: as) e.type = .pointer a (.pointers as e.type) := rfl
    rw [hp, ArgType.components_pointer] at h
    -- the table stays as it is on the way in
    have hin := ih (s := s.write ("P" ++ a.code)) fun c hc => h c (by simp [hc])
    rw [hp, type_pointer, refer_of_not_mem (h _ (by simp)), text_record]
    dsimp only
    have hrow : rowCode (a :: as) e = "P" ++ a.code ++ rowCode as e := by
      rw [rowCode, List.map_cons, String.join_cons, String.append_assoc]
      rfl
    rw [hrow, ← String.append_assoc, ← text_write, ← hin]
    split <;> rfl

end Transcript

/-! ### Types with one code -/

/-- A builtin that is spelled like a name, which only the opaque objects and the samplers are, and
the named type that has this name. -/
inductive Ending.Homonym : Ending → Ending → Prop where
  | mk {b : Builtin} {name : String} (hb : b.isOpaque = true ∨ b = .sampler)
    (hc : b.code = sourceName name) : Homonym (.builtin b) (.named name)

theorem Ending.Homonym.code_eq {e f : Ending} (h : e.Homonym f) : e.code = f.code := by
  obtain ⟨-, hc⟩ := h
  exact hc

theorem Builtin.opaque_of_source {b : Builtin} {name : String} (h : b.spelling = .source name) :
    b.isOpaque = true ∨ b = .sampler := by
  cases b <;> first | exact .inl rfl | exact .inr rfl | cases h

/-- Endings are equal or homonyms if their links and leaves are: no vector consists of a builtin
that is spelled like a name. -/
theorem Ending.eq_or_homonym {e f : Ending} (hlinks : e.type.links = f.type.links)
    (hleaf : e.type.leaf = f.type.leaf ∨ e.type.leaf.Homonym f.type.leaf ∨
      f.type.leaf.Homonym e.type.leaf) : e = f ∨ e.Homonym f ∨ f.Homonym e := by
  have source : ∀ {b : Builtin} {name : String}, Leaf.Homonym (.builtin b) (.named name) →
      Homonym (.builtin b) (.named name) := by
    rintro b name ⟨hs⟩
    exact .mk (Builtin.opaque_of_source hs) (b.code_eq.trans (congrArg Spelling.text hs))
  cases e <;> cases f <;> simp only [type, ArgType.builtin, ArgType.links_cons, ArgType.leaf_cons,
    reduceCtorEq, List.cons.injEq, Link.vector.injEq, and_true] at hlinks hleaf
  case builtin.builtin =>
    rcases hleaf with h | h | h
    · exact .inl (congrArg _ (Leaf.builtin.inj h))
    all_goals cases h
  case builtin.named =>
    rcases hleaf with h | h | h
    · cases h
    · exact .inr (.inl (source h))
    · cases h
  case vector.vector =>
    rcases hleaf with h | h | h
    · rw [hlinks, Leaf.builtin.inj h]
      exact .inl rfl
    all_goals cases h
  case named.builtin =>
    rcases hleaf with h | h | h
    · cases h
    · cases h
    · exact .inr (.inr (source h))
  case named.named =>
    rcases hleaf with h | h | h
    · exact .inl (congrArg _ (Leaf.named.inj h))
    all_goals cases h

theorem PointerAttrs.code_trim (a : PointerAttrs) : a.trim.code = a.code :=
  (String.append_right_inj "P").1 (Link.code_trim (.pointer a))

/-- Pointers are written alike if and only if they have the same address spaces and the same
qualifiers. -/
theorem PointerAttrs.map_trim_eq_iff {as bs : List PointerAttrs} :
    as.map trim = bs.map trim ↔ (as.map fun a => (a.space, a.qualifiers.toList))
      = bs.map fun b => (b.space, b.qualifiers.toList) := by
  constructor <;> intro h
  · have h := congrArg (List.map fun a : PointerAttrs => (a.space, a.qualifiers.toList)) h
    simpa [Function.comp_def, trim] using h
  · have h := congrArg
      (List.map fun p : AddressSpace × List Qualifier => PointerAttrs.mk p.1 (.ofList p.2)) h
    rw [List.map_map, List.map_map] at h
    exact h

section

open ArgType (pointers)

variable {as bs : List PointerAttrs} {e f : Ending}

/-- Rows of pointers that have the same links consist of the same pointers, and lead to ends that
have the same links. -/
theorem eq_of_map_append_eq (h : as.map Link.pointer ++ e.type.links
      = bs.map Link.pointer ++ f.type.links) : as = bs ∧ e.type.links = f.type.links := by
  have end_ne : ∀ {e : Ending} {a : PointerAttrs} {ls : List Link},
      e.type.links ≠ .pointer a :: ls := by
    intro e a ls h
    cases e <;> cases h
  induction as generalizing bs with
  | nil =>
    cases bs with
    | nil => exact ⟨rfl, h⟩
    | cons b bs => exact absurd h end_ne
  | cons a as ih =>
    cases bs with
    | nil => exact absurd h.symm end_ne
    | cons b bs =>
      obtain ⟨hab, h⟩ := List.cons.inj h
      obtain ⟨rfl, he⟩ := ih h
      rw [Link.pointer.inj hab]
      exact ⟨rfl, he⟩

/-- The links of a row of pointers, as far as they are written. -/
theorem map_trim_links_pointers : (pointers as e.type).links.map Link.trim
    = (as.map PointerAttrs.trim).map Link.pointer ++ e.type.links := by
  rw [ArgType.links_pointers, List.map_append, List.map_map, List.map_map]
  congr 1
  cases e <;> rfl

/-- Pointers without other bits than those of qualifiers are written as they are. -/
theorem ArgType.Known.map_trim_eq (h : (pointers as e.type).Known) :
    as.map PointerAttrs.trim = as := by
  have hk : ∀ a ∈ as, a.trim = a := fun a ha => by
    have hl : Link.pointer a ∈ (pointers as e.type).links := by
      rw [ArgType.links_pointers]
      exact List.mem_append_left _ (List.mem_map_of_mem ha)
    have hq : a.qualifiers.Known := h _ hl
    rw [PointerAttrs.trim, QualifierSet.trim, hq.ofList_toList]
  rw [List.map_congr_left hk, List.map_id']

/-- The types that have one code have pointers that are written alike in front of ends that are
equal or homonyms. -/
theorem rowCode_eq_iff (ht : (pointers as e.type).WellFormed)
    (hu : (pointers bs f.type).WellFormed) :
    rowCode as e = rowCode bs f ↔
      as.map PointerAttrs.trim = bs.map PointerAttrs.trim ∧
        (e = f ∨ e.Homonym f ∨ f.Homonym e) := by
  constructor
  · intro h
    have flat : ∀ as e, ((Transcript.start "").type (pointers as e.type)).text = rowCode as e :=
      fun as e => by
        rw [Transcript.text_type_pointers fun c _ => List.not_mem_nil]
        exact String.empty_append
    have hb : NoBuiltin (Transcript.start "").table := fun _ => List.not_mem_nil
    obtain ⟨_, cs, hcs, hwt⟩ := Transcript.exists_written hb ht
    obtain ⟨_, ds, hds, hwu⟩ := Transcript.exists_written hb hu
    rw [flat, h, ← flat, hds, String.append_right_inj, String.ofList_inj] at hcs
    have hend : ([] : List Char).head? ≠ some 'o' := nofun
    -- nothing follows, so no name runs into the length of another one
    obtain ⟨hlinks, ⟨⟨hleaf, -⟩, -⟩ | ⟨_, _, -, -, hr, -⟩ | ⟨_, _, -, -, hr, -⟩⟩ :=
      (hwt.append_eq_iff hb hwu hend hend).1 (by rw [hcs])
    · rw [map_trim_links_pointers, map_trim_links_pointers] at hlinks
      rw [ArgType.leaf_pointers, ArgType.leaf_pointers] at hleaf
      obtain ⟨hrow, he⟩ := eq_of_map_append_eq hlinks
      exact ⟨hrow, Ending.eq_or_homonym he hleaf⟩
    · exact absurd hr not_runsInto_nil
    · exact absurd hr not_runsInto_nil
  · rintro ⟨hrow, hend⟩
    have hcode : e.code = f.code := by
      rcases hend with rfl | h | h
      · rfl
      · exact h.code_eq
      · exact h.code_eq.symm
    have trim : ∀ as : List PointerAttrs, (as.map fun a => "P" ++ a.code)
        = (as.map PointerAttrs.trim).map fun a => "P" ++ a.code := fun as => by
      simp [Function.comp_def, PointerAttrs.code_trim]
    rw [rowCode, rowCode, trim, hrow, ← trim, hcode]

end

/-! ### Every node -/

namespace Session

variable {moves : List Move}

/-- The code of a node is that of its pointers and of what they lead to. -/
theorem Held.encodeType_eq (h : Held moves) {as : List PointerAttrs} {e : Ending}
    (ht : h.node.type = .pointers as e.type) : encodeType h.node = rowCode as e := by
  have hs : (start.afterMoves moves).Valid := (sound_start.afterMoves moves).valid
  rw [encodeType_eq_transcript (hs.foreign_of_holds h.holds), ht,
    Transcript.text_type_pointers fun c _ => List.not_mem_nil]
  exact String.empty_append

/-- The code of every node on its own is flat: each pointer writes a `P`, its address space unless
private, and the letters of its qualifiers in order, and behind the innermost pointer stands the end
of the chain. Two nodes have one code if and only if they have pointers with the same address spaces
and the same qualifiers, one by one, in front of ends that are equal or homonyms. Where all bits of
their sets belong to qualifiers, this is so if and only if they are equal, or have the same pointers
in front of homonyms. Names may start with any characters, digits too. -/
theorem encodeType_flat (moves : List Move) :
    (∀ h : Held moves, ∃ (as : List PointerAttrs) (e : Ending), h.node.type = .pointers as e.type ∧
      encodeType h.node = String.join (as.map fun a => "P" ++ (a.space.code
          ++ ((if a.qualifiers.restrict then "r" else "")
            ++ (if a.qualifiers.volatile then "V" else "")
            ++ if a.qualifiers.const then "K" else ""))) ++ e.code) ∧
    (∀ g h : Held moves, encodeType g.node = encodeType h.node ↔
      ∃ (as bs : List PointerAttrs) (e f : Ending),
        g.node.type = .pointers as e.type ∧ h.node.type = .pointers bs f.type ∧
          (as.map fun a => (a.space, a.qualifiers.toList))
            = (bs.map fun b => (b.space, b.qualifiers.toList)) ∧
          (e = f ∨ e.Homonym f ∨ f.Homonym e)) ∧
    ∀ g h : Held moves, g.node.type.Known → h.node.type.Known →
      (encodeType g.node = encodeType h.node ↔
        g.node.equals h.node = true ∨ ∃ (as : List PointerAttrs) (e f : Ending),
          g.node.type = .pointers as e.type ∧ h.node.type = .pointers as f.type ∧
            (e.Homonym f ∨ f.Homonym e)) := by
  have wellFormed : ∀ h : Held moves, h.node.type.WellFormed := fun h =>
    (sound_start.afterMoves moves).wellFormed_of_holds h.holds
  have rows : ∀ (g h : Held moves) {as bs : List PointerAttrs} {e f : Ending},
      g.node.type = .pointers as e.type → h.node.type = .pointers bs f.type →
        (encodeType g.node = encodeType h.node ↔
          as.map PointerAttrs.trim = bs.map PointerAttrs.trim ∧
            (e = f ∨ e.Homonym f ∨ f.Homonym e)) := fun g h as bs e f hg hh => by
    rw [g.encodeType_eq hg, h.encodeType_eq hh]
    exact rowCode_eq_iff (hg ▸ wellFormed g) (hh ▸ wellFormed h)
  refine ⟨fun h => ?_, fun g h => ?_, fun g h hgk hhk => ?_⟩
  · obtain ⟨as, e, ht⟩ := (wellFormed h).exists_ending
    simp only [← QualifierSet.code_eq]
    exact ⟨as, e, ht, h.encodeType_eq ht⟩
  · obtain ⟨as, e, hg⟩ := (wellFormed g).exists_ending
    obtain ⟨bs, f, hh⟩ := (wellFormed h).exists_ending
    simp only [← PointerAttrs.map_trim_eq_iff]
    constructor
    · intro heq
      exact ⟨as, bs, e, f, hg, hh, (rows g h hg hh).1 heq⟩
    · rintro ⟨as, bs, e, f, hg, hh, hrow⟩
      exact (rows g h hg hh).2 hrow
  · obtain ⟨as, e, hg⟩ := (wellFormed g).exists_ending
    obtain ⟨bs, f, hh⟩ := (wellFormed h).exists_ending
    rw [g.equals_iff h]
    constructor
    · intro hcode
      obtain ⟨hrow, hend⟩ := (rows g h hg hh).1 hcode
      rw [hg] at hgk
      rw [hh] at hhk
      rw [hgk.map_trim_eq, hhk.map_trim_eq] at hrow
      subst hrow
      rcases hend with rfl | hn
      · exact .inl (hg.trans hh.symm)
      · exact .inr ⟨as, e, f, hg, hh, hn⟩
    · rintro (heq | ⟨as, e, f, hg, hh, hn⟩)
      · exact (rows g h hg (heq ▸ hg)).2 ⟨rfl, .inl rfl⟩
      · exact (rows g h hg hh).2 ⟨rfl, .inr hn⟩

/-- Pointers to an event, to a type with its name, and to a type whose name starts with a digit. -/
def namesakes : List Move :=
  [.ask (.outside ⟨.builtin 20, [.pointers 1 [2, 0] 1]⟩),
    .ask (.outside ⟨.named "ocl_event", [.pointers 1 [0, 2] 1]⟩),
    .ask (.outside ⟨.named "9ocl_event", [.pointers 1 [0, 2] 1]⟩)]

/-- The first two have one code, though they are not equal. -/
theorem encodeType_flat_namesakes : ∃ g h k : Held namesakes,
    g.node.equals h.node = false ∧ encodeType g.node = encodeType h.node ∧
      encodeType h.node = "PU3AS1rK9ocl_event" ∧ encodeType k.node = "PU3AS1rK109ocl_event" := by
  obtain ⟨g, hg⟩ : ∃ g, (start.afterMoves namesakes).handles[0]? = some g := ⟨_, rfl⟩
  obtain ⟨h, hh⟩ : ∃ h, (start.afterMoves namesakes).handles[1]? = some h := ⟨_, rfl⟩
  obtain ⟨k, hk⟩ : ∃ k, (start.afterMoves namesakes).handles[2]? = some k := ⟨_, rfl⟩
  let as : List PointerAttrs := [⟨.globalSpace, .ofList [.restrict, .const]⟩]
  have hgt : g.type = .pointers as (Ending.builtin .event).type := by cases hg; rfl
  have hht : h.type = .pointers as (Ending.named "ocl_event").type := by cases hh; rfl
  have hkt : k.type = .pointers as (Ending.named "9ocl_event").type := by cases hk; rfl
  have hn : (Ending.builtin .event).Homonym (.named "ocl_event") :=
    .mk (.inl rfl) (by decide +kernel)
  refine ⟨⟨g, holds_of_getElem? hg⟩, ⟨h, holds_of_getElem? hh⟩, ⟨k, holds_of_getElem? hk⟩,
    ?_, ?_, ?_, ?_⟩
  · cases hg; cases hh; rfl
  · exact ((encodeType_flat namesakes).2.1 _ _).2 ⟨_, _, _, _, hgt, hht, rfl, .inr (.inl hn)⟩
  · exact (Held.encodeType_eq ⟨h, holds_of_getElem? hh⟩ hht).trans (by decide +kernel)
  · exact (Held.encodeType_eq ⟨k, holds_of_getElem? hk⟩ hkt).trans (by decide +kernel)

/-- A named type, and two pointers to it, one of which has a bit that belongs to no qualifier. -/
def spareMoves : List Move :=
  [.ask (.outside ⟨.named "point", []⟩), .ask (.outsideRetaining 0 0 8),
    .ask (.outsidePointer 0 0 [])]

/-- Such a bit is not written, and so the two have one code, though they are not equal and no
homonyms are involved. -/
theorem encodeType_eq_spareMoves : ∃ g h : Held spareMoves,
    g.node.type.leaf = .named "point" ∧ h.node.type.leaf = .named "point" ∧
      g.node.equals h.node = false ∧ encodeType g.node = "P5point" ∧
      encodeType h.node = "P5point" := by
  obtain ⟨g, hg⟩ : ∃ g, (start.afterMoves spareMoves).handles[1]? = some g := ⟨_, rfl⟩
  obtain ⟨h, hh⟩ : ∃ h, (start.afterMoves spareMoves).handles[2]? = some h := ⟨_, rfl⟩
  have hgt : g.type = .pointers [⟨.privateSpace, ⟨8⟩⟩] (Ending.named "point").type := by
    cases hg; rfl
  have hht : h.type = .pointers [.plain] (Ending.named "point").type := by cases hh; rfl
  refine ⟨⟨g, holds_of_getElem? hg⟩, ⟨h, holds_of_getElem? hh⟩, by rw [hgt]; rfl, by rw [hht]; rfl,
    ?_, ?_, ?_⟩
  · cases hg; cases hh; rfl
  · exact (Held.encodeType_eq ⟨g, holds_of_getElem? hg⟩ hgt).trans (by decide +kernel)
  · exact (Held.encodeType_eq ⟨h, holds_of_getElem? hh⟩ hht).trans (by decide +kernel)

end Session

end KernelSymbol
