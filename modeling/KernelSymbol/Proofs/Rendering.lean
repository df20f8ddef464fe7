import KernelSymbol.Proofs.Equality
import KernelSymbol.Visitor

/-!
# The readable form is flat

The renderer is a visitor: at a pointer it writes something, visits what is below, and writes
something more. What it writes before is written from the outermost pointer inwards, and what it
writes after from the innermost one outwards, so around the end of the chain stand the words of all
pointers in front and their stars behind. A loop over the links and back writes the same without
nesting visits.

A visitor sees no identities. So equal nodes have one readable form, wherever they come from, and a
pool does not change it.

## Main results

* `Handle.renderInto_eq` — the visits and the loop write the same
* `ArgType.renderOnto_pointers` — what they write for a row of pointers
* `Session.rendering_flat` — the readable form of every node
-/

namespace KernelSymbol

/-- Words that are written behind a text one by one are joined behind it. -/
theorem foldl_words {α : Type} (f : α → String) (text : String) (as : List α) :
    as.foldl (fun text a => text ++ f a ++ " ") text
      = text ++ String.join (as.map fun a => f a ++ " ") := by
  induction as generalizing text with
  | nil => simp
  | cons a as ih =>
    rw [List.foldl_cons, ih, List.map_cons, String.join_cons]
    simp only [String.append_assoc]

/-- What a pointer says is its qualifiers, and its address space unless private. -/
theorem PointerAttrs.words_eq (a : PointerAttrs) :
    a.words = String.join (a.qualifiers.toList.map fun q => q.name ++ " ")
      ++ if a.space = .privateSpace then "" else a.space.name ++ " " := by
  have hq := foldl_words Qualifier.name "" a.qualifiers.toList
  rw [String.empty_append] at hq
  simp only [words, hq, AddressSpace.isDefault_iff]
  split <;> simp [String.append_assoc]

/-! ### Visits and the loop -/

/-- A renderer writes the words of a pointer, then what is below, then a star. -/
theorem renderer_pointer (a : PointerAttrs) (below : String → String) (text : String) :
    renderer.pointer a below text = below (text ++ a.words) ++ "*" := by
  have hq := foldl_words Qualifier.name text a.qualifiers.toList
  simp only [renderer, hq, PointerAttrs.words_eq, AddressSpace.isDefault_iff]
  split <;> simp [String.append_assoc]

/-- The visits and the loop write the same. -/
theorem Handle.renderInto_eq (h : Handle) (text : String) :
    h.renderInto text = h.type.renderOnto text := by
  induction h using ind generalizing text with
  | leaf l t => cases l <;> rfl
  | cons l t h ih =>
    rw [type_cons, ArgType.renderOnto_cons]
    cases l with
    | vector n =>
      rw [renderInto, accept_vector]
      change h.renderInto text ++ toString n.toNat = _
      rw [ih, Link.opening, String.append_empty]
      rfl
    | pointer a =>
      rw [renderInto, accept_pointer, renderer_pointer]
      change h.renderInto (text ++ a.words) ++ "*" = _
      rw [ih]
      rfl

/-! ### A row of pointers -/

/-- The words of all pointers, from the outermost inwards, then the end of the chain, and then a
star for each pointer. -/
theorem ArgType.renderOnto_pointers (text : String) (as : List PointerAttrs) (e : Ending) :
    (pointers as e.type).renderOnto text = text ++ String.join (as.map PointerAttrs.words)
      ++ e.render ++ String.ofList (List.replicate as.length '*') := by
  induction as generalizing text with
  | nil => simpa [pointers] using e.renderOnto_type text
  | cons a as ih =>
    have hstep : (pointers (a :: as) e.type).renderOnto text
        = (pointers as e.type).renderOnto (text ++ a.words) ++ "*" := renderOnto_cons ..
    -- the star of the outermost pointer comes last
    have hstars : List.replicate (as.length + 1) '*' = List.replicate as.length '*' ++ ['*'] :=
      List.replicate_succ'
    rw [hstep, ih, List.map_cons, String.join_cons, List.length_cons, hstars, String.ofList_append]
    simp only [String.append_assoc]

/-! ### Every node -/

namespace Session

/-- The readable form of every node is flat. The renderer leaves the text before as it is, and
writes behind it what each pointer says, from the outermost inwards: its qualifiers in order, and
its address space unless private, a blank after each. Then it writes the end of the chain, and then
a star for each pointer. The loop over the links writes the same. So equal nodes have one readable
form, and the nodes that a pool has for a node have that of the node. -/
theorem rendering_flat (moves : List Move) {h : Handle} (hh : (start.afterMoves moves).Holds h) :
    (∃ (as : List PointerAttrs) (e : Ending), h.type = .pointers as e.type ∧
      ∀ text, h.renderInto text = text
        ++ String.join (as.map fun a =>
            String.join (a.qualifiers.toList.map fun q => q.name ++ " ")
              ++ if a.space = .privateSpace then "" else a.space.name ++ " ")
        ++ e.render ++ String.ofList (List.replicate as.length '*')) ∧
    (∀ text, h.renderInto text = h.type.renderOnto text) ∧
    (∀ g, (start.afterMoves moves).Holds g → g.equals h = true →
      ∀ text, g.renderInto text = h.renderInto text) ∧
    ∀ (i : Nat) (p : Pool), (start.afterMoves moves).pools[i]? = some p →
      ∀ text, (p.intern h).1.renderInto text = h.renderInto text ∧
        (p.canon h).1.renderInto text = h.renderInto text := by
  have hs : (start.afterMoves moves).Sound := sound_start.afterMoves moves
  have same : ∀ {g : Handle}, g.type = h.type → ∀ text, g.renderInto text = h.renderInto text :=
    fun ht text => by rw [Handle.renderInto_eq, Handle.renderInto_eq, ht]
  refine ⟨?_, h.renderInto_eq, fun g hg he => ?_, fun i p hp text => ?_⟩
  · obtain ⟨as, e, ht⟩ := (hs.wellFormed_of_holds hh).exists_ending
    refine ⟨as, e, ht, fun text => ?_⟩
    simp only [← PointerAttrs.words_eq]
    rw [h.renderInto_eq, ht, ArgType.renderOnto_pointers]
  · exact same ((hs.valid.equals_iff_of_holds hg hh).1 he)
  · have hk := hs.valid.knows_of_holds hp hh
    have hv := (hs.valid.pool hp).1
    exact ⟨same (hv.intern hk).type_eq text, same (hv.canon hk).type_eq text⟩

/-- Two chains of three pointers each to a vector, all built outside every pool. -/
def pointedVectors : List Move :=
  List.replicate 2 (.ask (.outside ⟨.builtin 10,
    [.vector 4, .pointers 1 [2, 0] 2, .pointers 0 [1] 1]⟩))

/-- Both chains, and what a pool has for one of them, are written alike. -/
theorem rendering_flat_pointedVectors : ∃ (p : Pool) (g h : Handle),
    (start.afterMoves pointedVectors).pools[0]? = some p ∧
      (start.afterMoves pointedVectors).Holds g ∧ (start.afterMoves pointedVectors).Holds h ∧
      g.sameNode h = false ∧ g.equals h = true ∧
      h.renderInto "f: "
        = "f: volatile restrict const __global restrict const __global float4***" ∧
      g.renderInto "f: " = h.renderInto "f: " ∧
      (p.intern h).1.renderInto "f: " = h.renderInto "f: " := by
  obtain ⟨p, hp⟩ : ∃ p, (start.afterMoves pointedVectors).pools[0]? = some p := ⟨_, rfl⟩
  obtain ⟨g, hg⟩ : ∃ g, (start.afterMoves pointedVectors).handles[0]? = some g := ⟨_, rfl⟩
  obtain ⟨h, hh⟩ : ∃ h, (start.afterMoves pointedVectors).handles[1]? = some h := ⟨_, rfl⟩
  have hgs := holds_of_getElem? hg
  have hhs := holds_of_getElem? hh
  have he : g.equals h = true := by cases hg; cases hh; rfl
  obtain ⟨-, hloop, hequal, hpool⟩ := rendering_flat pointedVectors hhs
  refine ⟨p, g, h, hp, hgs, hhs, ?_, he, (hloop _).trans ?_, hequal g hgs he _, (hpool 0 p hp _).1⟩
  · cases hg; cases hh; rfl
  · cases hh; rfl

end Session

end KernelSymbol
