import KernelSymbol.Proofs.Refinement

/-!
# The components that an encoder knows

An encoder finds components by the identities of its own nodes, and keeps with each one its place.
Read the other way round, place by place and with types for identities, its table is a list of
components like that of a transcript, and the very one: every place is taken once.

## Main definitions

* `Encoder.component?`, `Encoder.components` — what is at a place of the table, and the table as a
  list

## Main results

* `Encoder.Tells.exists_place_iff`, `Encoder.Tells.eq_of_place_eq` — every place is taken once
* `Encoder.Tells.components_eq` — the table of the transcript that an encoder writes
* `Session.Valid.tells_run`, `Session.Valid.components_run` — encoders that are given the handles of
  a session
-/

namespace KernelSymbol

/-- Values that are found at the places of a list are the list. -/
theorem filterMap_range_eq {α : Type} {l : List α} {f : Nat → Option α}
    (hf : ∀ i < l.length, f i = l[i]?) : (List.range l.length).filterMap f = l := by
  have key : ∀ n ≤ l.length, (List.range n).filterMap f = l.take n := by
    intro n hn
    induction n with
    | zero => rfl
    | succ n ih =>
      rw [List.range_succ, List.filterMap_append, ih (Nat.le_of_succ_le hn), List.take_add_one,
        ← hf n hn]
      cases hn : f n <;> simp [hn]
  rw [key _ (Nat.le_refl _), List.take_length]

namespace Encoder

/-! ### The table of an encoder -/

/-- The component at a place of the table, with the type of its node. -/
def component? (e : Encoder) (i : Nat) : Option (Component ArgType) := do
  let (k, _) ← e.table.toList.find? fun entry => entry.2 = i
  let h ← e.pool.nodes.find? fun h => h.tag = k.node
  some (k.map fun _ => h.type)

/-- The components in the table, in the order of their places. -/
def components (e : Encoder) : List (Component ArgType) :=
  (List.range e.table.size).filterMap e.component?

variable {e : Encoder} {s : Transcript}

/-- What the encoder knows by the identity of a node is at a place of the transcript if and only if
the encoder has that place for it. -/
theorem Tells.getElem?_eq_some_iff (h : Tells e s) (hd : s.table.Nodup) {c : Component Handle}
    (hc : c.node ∈ e.pool.nodes) {i : Nat} :
    e.table[c.map Handle.tag]? = some i ↔ s.table[i]? = some (c.map Handle.type) := by
  rw [h.find_eq hc, idxOf?_eq_some_iff_of_nodup hd]

/-- What has a place is an own node, and the transcript has its type there. -/
theorem Tells.exists_of_place (h : Tells e s) (hd : s.table.Nodup) {k : Component Tag} {i : Nat}
    (hk : e.table[k]? = some i) :
    ∃ c : Component Handle, c.node ∈ e.pool.nodes ∧ c.map Handle.tag = k ∧
      s.table[i]? = some (c.map Handle.type) := by
  obtain ⟨c, hc, rfl⟩ := h.key (Std.HashMap.mem_iff_isSome_getElem?.2 (by rw [hk]; rfl))
  exact ⟨c, hc, rfl, (h.getElem?_eq_some_iff hd hc).1 hk⟩

/-- Some own node has each place of the transcript. -/
theorem Tells.exists_place (h : Tells e s) (hd : s.table.Nodup) {i : Nat}
    (hi : i < s.table.length) :
    ∃ c : Component Handle, c.node ∈ e.pool.nodes ∧ e.table[c.map Handle.tag]? = some i := by
  obtain ⟨c, hc, hct⟩ := h.entry (List.getElem_mem hi)
  refine ⟨c, hc, ?_⟩
  rw [h.getElem?_eq_some_iff hd hc, List.getElem?_eq_getElem hi, hct]

/-- A place is taken if and only if it is one of the transcript. -/
theorem Tells.exists_place_iff (h : Tells e s) (hd : s.table.Nodup) (i : Nat) :
    (∃ k : Component Tag, e.table[k]? = some i) ↔ i < e.candidates := by
  rw [candidates, h.size_eq]
  constructor
  · rintro ⟨k, hk⟩
    obtain ⟨c, -, -, hi⟩ := h.exists_of_place hd hk
    exact (List.getElem?_eq_some_iff.1 hi).1
  · intro hi
    obtain ⟨c, -, hplace⟩ := h.exists_place hd hi
    exact ⟨c.map Handle.tag, hplace⟩

/-- No two components have one place. -/
theorem Tells.eq_of_place_eq (h : Tells e s) (hd : s.table.Nodup) {k k' : Component Tag} {i : Nat}
    (hk : e.table[k]? = some i) (hk' : e.table[k']? = some i) : k = k' := by
  obtain ⟨c, hc, rfl, hi⟩ := h.exists_of_place hd hk
  obtain ⟨c', hc', rfl, hi'⟩ := h.exists_of_place hd hk'
  rw [hi, Option.some.injEq] at hi'
  rw [Component.eq_of_map_eq (h.valid.eq_of_type_eq hc hc') hi']

/-- At each place, the encoder knows what the transcript has there. -/
theorem Tells.component?_eq (h : Tells e s) (hd : s.table.Nodup) {i : Nat}
    (hi : i < s.table.length) : e.component? i = s.table[i]? := by
  obtain ⟨c, hc, hplace⟩ := h.exists_place hd hi
  -- the entry that is found for the place is about that node
  have hentry : (e.table.toList.find? fun entry => entry.2 = i) = some (c.map Handle.tag, i) := by
    obtain ⟨⟨k, j⟩, hk⟩ :
        ∃ entry, (e.table.toList.find? fun entry => entry.2 = i) = some entry := by
      rw [← Option.isSome_iff_exists, List.find?_isSome]
      exact ⟨_, Std.HashMap.mem_toList_iff_getElem?_eq_some.2 hplace, by simp⟩
    obtain rfl : j = i := by simpa using List.find?_some hk
    have hkj := Std.HashMap.mem_toList_iff_getElem?_eq_some.1 (List.mem_of_find?_eq_some hk)
    rw [hk, h.eq_of_place_eq hd hkj hplace]
  have hnode : (e.pool.nodes.find? fun g => g.tag = c.node.tag) = some c.node := by
    obtain ⟨g, hg⟩ : ∃ g, (e.pool.nodes.find? fun g => g.tag = c.node.tag) = some g := by
      rw [← Option.isSome_iff_exists, Array.find?_isSome]
      exact ⟨_, hc, by simp⟩
    have ht : g.tag = c.node.tag := by simpa using Array.find?_some hg
    rw [hg, h.valid.eq_of_tag_eq (Array.mem_of_find?_eq_some hg) hc ht]
  rw [h.getElem?_eq_some_iff hd hc] at hplace
  rw [component?, hentry, hplace]
  simp only [Option.bind_eq_bind, Option.bind_some, Component.node_map, hnode]
  cases c <;> rfl

theorem Tells.components_eq (h : Tells e s) (hd : s.table.Nodup) : e.components = s.table := by
  rw [components, h.size_eq]
  exact filterMap_range_eq fun i hi => h.component?_eq hd hi

theorem Tells.length_components (h : Tells e s) (hd : s.table.Nodup) :
    e.components.length = e.candidates := by
  rw [h.components_eq hd, ← h.size_eq, candidates]

end Encoder

/-! ### Runs -/

namespace Transcript

variable (text : String) (ts : List ArgType)

/-- What holds of a text without types, and is kept by every type, holds of every transcript. -/
theorem run_ind {I : Transcript → Prop} (hstart : I (start text))
    (htype : ∀ {s : Transcript}, I s → ∀ t, I (s.type t)) : I (run text ts) :=
  List.foldlRecOn ts type hstart fun _ h t _ => htype h t

theorem paired_run : PairedTable (run text ts).table :=
  run_ind (I := fun s => PairedTable s.table) text ts pairedTable_nil paired_type

theorem nodup_run : (run text ts).table.Nodup := nodup_foldl pairedTable_nil List.nodup_nil

theorem length_table_run : (run text ts).table.length ≤ 2 * (run text ts).text.length := by
  have h := @length_table_foldl ts (start text)
  simp only [start, List.length_nil] at h
  rw [run, start]
  omega

theorem run_append (ts us : List ArgType) : run text (ts ++ us) = us.foldl type (run text ts) :=
  List.foldl_append

end Transcript

namespace Session

variable {s : Session}

/-- An encoder that was given handles of a session writes the transcript of their types. -/
theorem Valid.tells_run (hs : s.Valid) (text : String) {steps : List Encoder.Step}
    (hm : ∀ st ∈ steps, st.handle ∈ s.handles) :
    Encoder.Tells (.run text steps) (.run text (steps.map fun st => st.handle.type)) :=
  Encoder.tells_run text fun st hst => hs.foreign (hm st hst)

/-- And it knows the components of the transcript. -/
theorem Valid.components_run (hs : s.Valid) (text : String) {steps : List Encoder.Step}
    (hm : ∀ st ∈ steps, st.handle ∈ s.handles) :
    (Encoder.run text steps).components =
        (Transcript.run text (steps.map fun st => st.handle.type)).table ∧
      (Encoder.run text steps).components.length = (Encoder.run text steps).candidates := by
  have ht := hs.tells_run text hm
  have hd := Transcript.nodup_run text (steps.map fun st => st.handle.type)
  exact ⟨ht.components_eq hd, ht.length_components hd⟩

end Session

end KernelSymbol
