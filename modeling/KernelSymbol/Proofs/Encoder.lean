import KernelSymbol.Pool.Valid
import KernelSymbol.Proofs.Transcript
import KernelSymbol.Symbol.Encoder

/-!
# The encoder writes the transcript

An encoder finds components by the identities of nodes in its own pool, a transcript by comparing
types. Both find the same places: equal types are one node of the encoder's pool, and different
types are different nodes. The encoder may be asked to refer to the attributes of a pointer, but
never does, since the pointer they come with would have been found first.

The encoder keeps the components that are still open on a list and records them at the end of the
chain. That is recording each of them where its text ends.

## Main definitions

* `Encoder.Tells` — an encoder and a transcript that say the same
* `Handle.Foreign` — a handle without nodes of a certain maker

## Main results

* `Encoder.Tells.node`, `Encoder.Tells.param` — one more type on both sides
* `encode_eq_transcript`, `encodeType_eq_transcript` — symbols and codes of types are transcripts
-/

namespace KernelSymbol

/-- No node of the handle was made by a certain maker. -/
def Handle.Foreign (m : Maker) (h : Handle) : Prop := ∀ g ∈ h.subchains, g.tag.maker ≠ m

theorem Pool.Valid.foreign {p : Pool} (hp : p.Valid) {m : Maker} (hm : p.maker ≠ m) {h : Handle}
    (hh : h ∈ p.nodes) : h.Foreign m := by
  intro g hg
  rw [hp.maker_of_mem (hp.mem_subchains hh hg)]
  exact hm

/-- Components are told apart by what tells their nodes apart. -/
theorem Component.eq_of_map_eq {α β : Type} {f : α → β} {c d : Component α}
    (hf : f c.node = f d.node → c.node = d.node) (h : c.map f = d.map f) : c = d := by
  cases c <;> cases d <;> simp_all [Component.node, Component.map]

namespace Encoder

/-! ### Open components -/

/-- The components that are open in front of a chain are recorded when the chain is written. -/
theorem emit_pending (leaf : Leaf) (leafTag : Tag) (e : Encoder) (pending : List (Component Tag))
    (links : List (Link × Tag)) :
    emit leaf leafTag e pending links = (emit leaf leafTag e [] links).recordAll pending := by
  induction links generalizing e pending with
  | nil =>
    cases leaf with
    | builtin b => rfl
    | named name =>
      simp only [emit]
      split <;> rfl
  | cons l links ih =>
    obtain ⟨link, tag⟩ := l
    simp only [emit]
    split
    next => rfl
    next =>
      cases link with
      | vector n =>
        dsimp only
        rw [ih _ (.whole tag :: pending), ih _ [.whole tag]]
        rfl
      | pointer a =>
        dsimp only
        split
        next =>
          rw [ih _ (.whole tag :: pending), ih _ [.whole tag]]
          rfl
        next =>
          split
          next => rfl
          next =>
            rw [ih _ (_ :: .whole tag :: pending), ih _ [_, .whole tag]]
            rfl

theorem pool_recordAll (e : Encoder) (cs : List (Component Tag)) :
    (e.recordAll cs).pool = e.pool := by
  induction cs generalizing e with
  | nil => rfl
  | cons c cs ih => exact ih (e.record c)

theorem pool_node (e : Encoder) (h : Handle) : (e.node h).pool = e.pool := by
  have key : ∀ (links : List (Link × Tag)) (e : Encoder) (pending : List (Component Tag)),
      (emit h.leaf h.leafTag e pending links).pool = e.pool := by
    intro links
    induction links with
    | nil =>
      intro e pending
      rw [emit.eq_def]
      dsimp only
      split
      next => exact pool_recordAll ..
      next => split <;> exact pool_recordAll ..
    | cons l links ih =>
      intro e pending
      obtain ⟨link, tag⟩ := l
      rw [emit.eq_def]
      dsimp only
      split
      next => exact pool_recordAll ..
      next =>
        split
        next => exact ih ..
        next =>
          split
          next => exact ih ..
          next =>
            split
            next => exact pool_recordAll ..
            next => exact ih ..
  exact key h.links e []

section

variable {e : Encoder} {h : Handle} {t : Tag}

theorem node_named {name : String} (ht : e.table[Component.whole t]? = none) :
    e.node ⟨[], .named name, t⟩ = (e.write (sourceName name)).record (.whole t) := by
  simp only [node, emit, ht]
  rfl

theorem node_named_of_some {name : String} {i : Nat} (ht : e.table[Component.whole t]? = some i) :
    e.node ⟨[], .named name, t⟩ = e.write (backReference i) := by
  simp only [node, emit, ht]
  rfl

theorem node_cons_of_some {l : Link} {i : Nat} (ht : e.table[Component.whole t]? = some i) :
    e.node (h.cons l t) = e.write (backReference i) := by
  simp only [node, Handle.cons, emit, ht]
  rfl

theorem node_vector {n : UInt32} (ht : e.table[Component.whole t]? = none) :
    e.node (h.cons (.vector n) t) = ((e.write (vectorCode n)).node h).record (.whole t) := by
  simp only [node, Handle.cons, emit, ht]
  exact emit_pending ..

theorem node_pointer_plain (ht : e.table[Component.whole t]? = none) :
    e.node (h.cons (.pointer .plain) t) = ((e.write "P").node h).record (.whole t) := by
  simp only [node, Handle.cons, emit, ht, if_pos (show PointerAttrs.plain.isPlain = true from rfl)]
  exact emit_pending ..

theorem node_pointer {a : PointerAttrs} (ht : e.table[Component.whole t]? = none)
    (ha : ¬a.isPlain = true) (hq : e.table[Component.qualified a h.tag]? = none) :
    e.node (h.cons (.pointer a) t) =
      (((e.write ("P" ++ a.code)).node h).record (.qualified a h.tag)).record (.whole t) := by
  simp only [node, Handle.cons, emit, ht, if_neg ha, hq]
  exact emit_pending ..

end

/-! ### The same places -/

/-- The encoder and the transcript say the same: the texts are equal, and what the encoder finds
by the identities of its own nodes is what the transcript finds by their types. -/
structure Tells (e : Encoder) (s : Transcript) : Prop where
  text_eq : e.text = s.text
  valid : e.pool.Valid
  maker_eq : e.pool.maker = .encoder
  size_eq : e.table.size = s.table.length
  find_eq : ∀ {c : Component Handle}, c.node ∈ e.pool.nodes →
    e.table[c.map Handle.tag]? = s.table.idxOf? (c.map Handle.type)
  /-- The encoder has places for components of its own nodes only. -/
  key : ∀ {k : Component Tag}, k ∈ e.table →
    ∃ c : Component Handle, c.node ∈ e.pool.nodes ∧ c.map Handle.tag = k
  /-- Every component of the transcript is about an own node of the encoder. -/
  entry : ∀ {k : Component ArgType}, k ∈ s.table →
    ∃ c : Component Handle, c.node ∈ e.pool.nodes ∧ c.map Handle.type = k

variable {e : Encoder} {s : Transcript}

theorem Tells.write (h : Tells e s) (text : String) : Tells (e.write text) (s.write text) :=
  ⟨by rw [Transcript.text_write, ← h.text_eq]; rfl, h.valid, h.maker_eq, h.size_eq, h.find_eq,
    h.key, h.entry⟩

theorem Tells.mem_iff (h : Tells e s) {c : Component Handle} (hc : c.node ∈ e.pool.nodes) :
    c.map Handle.tag ∈ e.table ↔ c.map Handle.type ∈ s.table := by
  rw [← List.isSome_idxOf?, ← h.find_eq hc, Std.HashMap.isSome_getElem?_iff_mem]

private theorem idxOf?_concat (table : List (Component ArgType)) (c k : Component ArgType) :
    (table ++ [c]).idxOf? k
      = (table.idxOf? k).or (if c == k then some table.length else none) := by
  rw [List.idxOf?, List.findIdx?_append]
  simp [List.findIdx?_cons]

/-- A component that is new to the transcript gets the same place on both sides. -/
theorem Tells.record (h : Tells e s) {c : Component Handle} (hc : c.node ∈ e.pool.nodes)
    (hn : c.map Handle.type ∉ s.table) :
    Tells (e.record (c.map Handle.tag)) (s.record (c.map Handle.type)) := by
  have hnew : c.map Handle.tag ∉ e.table := mt (h.mem_iff hc).1 hn
  refine ⟨h.text_eq, h.valid, h.maker_eq, ?_, ?_, ?_, ?_⟩
  · simp [Encoder.record, Std.HashMap.size_insertIfNew, hnew, h.size_eq]
  · intro d hd
    rw [Transcript.table_record, idxOf?_concat, Encoder.record, Std.HashMap.getElem?_insertIfNew]
    by_cases hdc : c = d
    · subst hdc
      rw [List.idxOf?_eq_none_iff.2 hn]
      simp [hnew, h.size_eq]
    · have htag : c.map Handle.tag ≠ d.map Handle.tag :=
        mt (Component.eq_of_map_eq (h.valid.eq_of_tag_eq hc hd)) hdc
      have htype : c.map Handle.type ≠ d.map Handle.type :=
        mt (Component.eq_of_map_eq (h.valid.eq_of_type_eq hc hd)) hdc
      rw [if_neg (by simp [htag]), if_neg (by simpa using htype), Option.or_none]
      exact h.find_eq hd
  · intro k hk
    rw [Encoder.record, Std.HashMap.mem_insertIfNew] at hk
    rcases hk with hk | hk
    · exact ⟨c, hc, eq_of_beq hk⟩
    · exact h.key hk
  · intro k hk
    rcases List.mem_append.1 hk with hk | hk
    · exact h.entry hk
    · exact ⟨c, hc, (List.mem_singleton.1 hk).symm⟩

/-- The encoder may store more nodes in its pool. -/
theorem Tells.grow (h : Tells e s) {q : Pool} (hq : q.Valid) (hg : e.pool.Extends q) :
    Tells ⟨e.text, q, e.table⟩ s := by
  refine ⟨h.text_eq, hq, hg.maker_eq.trans h.maker_eq, h.size_eq, ?_, ?_, ?_⟩
  · intro c hc
    by_cases hm : c.node ∈ e.pool.nodes
    · exact h.find_eq hm
    · -- a node that was not stored before is in neither table
      have hkey : c.map Handle.tag ∉ e.table := by
        intro hk
        obtain ⟨d, hd, he⟩ := h.key hk
        have hdc : d = c := Component.eq_of_map_eq (hq.eq_of_tag_eq (hg.mem hd) hc) he
        exact hm (hdc ▸ hd)
      have hentry : c.map Handle.type ∉ s.table := by
        intro hk
        obtain ⟨d, hd, he⟩ := h.entry hk
        have hdc : d = c := Component.eq_of_map_eq (hq.eq_of_type_eq (hg.mem hd) hc) he
        exact hm (hdc ▸ hd)
      rw [Std.HashMap.getElem?_eq_none hkey, List.idxOf?_eq_none_iff.2 hentry]
  · intro k hk
    obtain ⟨c, hc, he⟩ := h.key hk
    exact ⟨c, hg.mem hc, he⟩
  · intro k hk
    obtain ⟨c, hc, he⟩ := h.entry hk
    exact ⟨c, hg.mem hc, he⟩

/-! ### One type -/

/-- Writing an own node of the encoder is writing its type. -/
theorem Tells.node (h : Tells e s) (hp : PairedTable s.table) {g : Handle}
    (hg : g ∈ e.pool.nodes) : Tells (e.node g) (s.type g.type) := by
  induction g using Handle.ind generalizing e s with
  | leaf l t =>
    cases l with
    | builtin b => exact h.write b.code
    | named name =>
      have hf : e.table[Component.whole t]? = s.table.idxOf? (.whole ⟨[], .named name⟩) :=
        h.find_eq (c := .whole ⟨[], .named name, t⟩) hg
      rw [Handle.type_leaf, Transcript.type_named]
      cases hi : s.table.idxOf? (.whole ⟨[], .named name⟩) with
      | some i =>
        rw [node_named_of_some (hf.trans hi), Transcript.refer_of_some hi]
        exact h.write (backReference i)
      | none =>
        rw [node_named (hf.trans hi), Transcript.refer_of_none hi]
        exact (h.write (sourceName name)).record (c := .whole ⟨[], .named name, t⟩) hg
          (List.idxOf?_eq_none_iff.1 hi)
  | cons l t g ih =>
    have hf : e.table[Component.whole t]? = s.table.idxOf? (.whole (.cons l g.type)) :=
      h.find_eq (c := .whole (g.cons l t)) hg
    have hc : g ∈ e.pool.nodes := h.valid.mem_child hg (Handle.child?_cons l t g)
    rw [Handle.type_cons]
    cases hi : s.table.idxOf? (.whole (.cons l g.type)) with
    | some i =>
      rw [node_cons_of_some (hf.trans hi), Transcript.type_cons_of_some hi]
      exact h.write (backReference i)
    | none =>
      have hn : .whole (.cons l g.type) ∉ s.table := List.idxOf?_eq_none_iff.1 hi
      -- what is below adds nothing that is as deep as the node itself
      have hw : ∀ {s' : Transcript}, s'.table = s.table →
          .whole (.cons l g.type) ∉ (s'.type g.type).table := fun hs =>
        Transcript.not_mem_table_type (hs ▸ hn) (ArgType.whole_cons_not_mem_components l g.type)
      cases l with
      | vector n =>
        rw [node_vector (hf.trans hi), Transcript.type_vector, Transcript.refer_of_none hi]
        have hin := ih (h.write (vectorCode n)) hp hc
        refine hin.record (c := .whole (g.cons (.vector n) t)) ?_ (hw rfl)
        rwa [pool_node]
      | pointer a =>
        rw [show ArgType.cons (.pointer a) g.type = .pointer a g.type from rfl] at hi
        have hq : .qualified a g.type ∉ s.table := fun hm => hn (hp a g.type hm)
        change Tells _ (s.type (.pointer a g.type))
        rw [Transcript.type_pointer, Transcript.refer_of_none hi]
        dsimp only
        by_cases ha : a.isPlain = true
        · obtain rfl := PointerAttrs.isPlain_iff.1 ha
          rw [if_pos ha, node_pointer_plain (hf.trans hi)]
          have hin := ih (h.write ("P" ++ PointerAttrs.plain.code)) hp hc
          refine hin.record (c := .whole (g.cons (.pointer .plain) t)) ?_ (hw rfl)
          rwa [pool_node]
        · have hqe : e.table[Component.qualified a g.tag]? = none :=
            (h.find_eq (c := .qualified a g) hc).trans (List.idxOf?_eq_none_iff.2 hq)
          rw [if_neg ha, node_pointer (hf.trans hi) ha hqe]
          have hin := ih (h.write ("P" ++ a.code)) hp hc
          have hq' : .qualified a g.type ∉ ((s.write ("P" ++ a.code)).type g.type).table :=
            Transcript.not_mem_table_type hq (ArgType.qualified_not_mem_components a g.type)
          have hrec := hin.record (c := .qualified a g) (by rwa [pool_node]) hq'
          refine hrec.record (c := .whole (g.cons (.pointer a) t)) ?_ ?_
          · change _ ∈ (Encoder.node _ g).pool.nodes
            rwa [pool_node]
          · rw [Transcript.table_record, List.mem_append, List.mem_singleton]
            exact not_or.2 ⟨hw rfl, by simp⟩

theorem Tells.param (h : Tells e s) (hp : PairedTable s.table) {g : Handle}
    (hk : e.pool.Knows g) : Tells (e.param g) (s.type g.type) := by
  have hc := h.valid.canon hk
  have hin := (h.grow hc.valid hc.grows).node hp hc.mem
  rw [hc.type_eq] at hin
  exact hin

theorem tells_start (text : String) : Tells (start text) (.start text) where
  text_eq := rfl
  valid := Pool.valid_emptyOf .encoder
  maker_eq := rfl
  size_eq := rfl
  find_eq _ := by simp [start, Transcript.start]
  key h := by simp [start] at h
  entry h := by simp [Transcript.start] at h

/-- A handle none of whose nodes were made by the encoder is known to its pool. -/
theorem Tells.knows (h : Tells e s) {g : Handle} (hg : g.Foreign .encoder) : e.pool.Knows g := by
  intro c hc ho
  obtain ⟨d, hd, ht⟩ := h.valid.owns_iff.1 ho
  have hm := h.valid.maker_of_mem hd
  rw [ht, h.maker_eq] at hm
  exact absurd hm (hg c hc)

theorem Tells.foldl (h : Tells e s) (hp : PairedTable s.table) {gs : List Handle}
    (hg : ∀ g ∈ gs, g.Foreign .encoder) :
    Tells (gs.foldl Encoder.param e) ((gs.map Handle.type).foldl Transcript.type s) := by
  induction gs generalizing e s with
  | nil => exact h
  | cons g gs ih =>
    obtain ⟨hg, hgs⟩ := List.forall_mem_cons.1 hg
    exact ih (h.param hp (h.knows hg)) (Transcript.paired_type hp g.type) hgs

end Encoder

theorem encode_eq_transcript {f : Signature Handle} (hne : f.name ≠ "")
    (hf : ∀ h ∈ f.params, h.Foreign .encoder) :
    encode f = .ok (Transcript.signature (f.map Handle.type)).text := by
  rw [encode, if_neg hne, Transcript.signature]
  by_cases he : f.isEmpty = true
  · have hm : (f.map Handle.type).isEmpty = true := by
      simpa [Signature.isEmpty, Signature.map] using he
    rw [if_pos hm]
    simp only [he, if_true]
    rfl
  · have hm : ¬(f.map Handle.type).isEmpty = true := by
      simpa [Signature.isEmpty, Signature.map] using he
    have ht := (Encoder.tells_start ("_Z" ++ sourceName f.name)).foldl pairedTable_nil hf
    rw [if_neg hm]
    simp only [he]
    exact congrArg Except.ok ht.text_eq

theorem encodeType_eq_transcript {h : Handle} (hf : h.Foreign .encoder) :
    encodeType h = ((Transcript.start "").type h.type).text := by
  have hs := Encoder.tells_start ""
  have hi := hs.valid.intern (hs.knows hf)
  have ht := ((hs.grow hi.valid hi.grows).node pairedTable_nil hi.mem).text_eq
  rw [hi.type_eq] at ht
  exact ht

end KernelSymbol
