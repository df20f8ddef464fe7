import KernelSymbol.Proofs.Session

/-!
# Encoders refine transcripts

An encoder may be given its types in two ways, as parameters and as types to visit, in any order
and from any makers, with or without nodes in common. Whatever it is given, after every step its
text is that of the transcript of the types, and it has as many components. So nothing that it
writes depends on where a node comes from, and the two ways to give it a type are interchangeable.

## Main definitions

* `Encoder.Step.handle` — what a step writes, in either way
* `Encoder.run`, `Transcript.run` — several steps behind a text, on both sides

## Main results

* `Encoder.Tells.step`, `Encoder.Tells.run` — one step, and a whole run, on both sides
* `Session.Reachable.encoder_refines` — encoders write transcripts
-/

namespace KernelSymbol

/-- What a step writes. -/
def Encoder.Step.handle : Encoder.Step → Handle
  | .param h => h
  | .visit h => h

/-- An encoder that took some steps behind a text. -/
def Encoder.run (text : String) (steps : List Encoder.Step) : Encoder :=
  steps.foldl Encoder.step (.start text)

/-- The transcript of some types behind a text. -/
def Transcript.run (text : String) (ts : List ArgType) : Transcript :=
  ts.foldl Transcript.type (.start text)

namespace Encoder

variable {e : Encoder} {s : Transcript}

/-- Visiting a type is writing it. -/
theorem Tells.visit (h : Tells e s) (hp : PairedTable s.table) {g : Handle}
    (hk : e.pool.Knows g) : Tells (e.visit g) (s.type g.type) := by
  have hi := h.valid.intern hk
  have hin := (h.grow hi.valid hi.grows).node hp hi.mem
  rw [hi.type_eq] at hin
  obtain ⟨_ | ⟨l, ls⟩, b | name, t⟩ := g
  · exact h.write b.code
  all_goals exact hin

theorem Tells.step (h : Tells e s) (hp : PairedTable s.table) {st : Step}
    (hf : st.handle.Foreign .encoder) : Tells (e.step st) (s.type st.handle.type) := by
  cases st with
  | param g => exact h.param hp (h.knows hf)
  | visit g => exact h.visit hp (h.knows hf)

/-- A step leaves the pool of the encoder as it is, or interns there what it writes. -/
theorem pool_step (e : Encoder) (st : Step) :
    (e.step st).pool = e.pool ∨ (e.step st).pool = (e.pool.canon st.handle).2 ∨
      (e.step st).pool = (e.pool.intern st.handle).2 := by
  cases st with
  | param g => exact .inr (.inl (pool_node _ _))
  | visit g =>
    obtain ⟨_ | ⟨l, ls⟩, b | name, t⟩ := g
    · exact .inl rfl
    all_goals exact .inr (.inr (pool_node _ _))

theorem Tells.run (h : Tells e s) (hp : PairedTable s.table) {steps : List Step}
    (hf : ∀ st ∈ steps, st.handle.Foreign .encoder) :
    Tells (steps.foldl Encoder.step e)
      ((steps.map fun st => st.handle.type).foldl Transcript.type s) := by
  induction steps generalizing e s with
  | nil => exact h
  | cons st steps ih =>
    obtain ⟨hst, hsteps⟩ := List.forall_mem_cons.1 hf
    exact ih (h.step hp hst) (Transcript.paired_type hp st.handle.type) hsteps

/-- A run of an encoder is the run of a transcript. -/
theorem tells_run (text : String) {steps : List Step}
    (hf : ∀ st ∈ steps, st.handle.Foreign .encoder) :
    Tells (run text steps) (.run text (steps.map fun st => st.handle.type)) :=
  (tells_start text).run pairedTable_nil hf

end Encoder

namespace Transcript

/-! ### The text in front -/

/-- The transcript behind some more text. -/
def behind (front : String) (s : Transcript) : Transcript := { s with text := front ++ s.text }

variable (front : String) (s : Transcript)

theorem write_behind (text : String) :
    (s.behind front).write text = (s.write text).behind front := by
  simp [behind, write, String.append_assoc]

theorem refer_behind (t : ArgType) {spell : Transcript → Transcript}
    (h : spell (s.behind front) = (spell s).behind front) :
    (s.behind front).refer t spell = (s.refer t spell).behind front := by
  cases hi : s.table.idxOf? (.whole t) with
  | some i =>
    rw [refer_of_some hi, refer_of_some (s := s.behind front) hi]
    exact write_behind ..
  | none =>
    rw [refer_of_none hi, refer_of_none (s := s.behind front) hi, h]
    rfl

/-- What stands in front of a text does not change what is written behind it. -/
theorem type_behind (t : ArgType) : (s.behind front).type t = (s.type t).behind front := by
  induction t using ArgType.ind generalizing s with
  | leaf l =>
    cases l with
    | builtin b => exact write_behind front s b.code
    | named name =>
      rw [type_named, type_named]
      exact refer_behind _ _ _ (write_behind ..)
  | cons l t ih =>
    cases l with
    | vector n =>
      rw [type_vector, type_vector]
      refine refer_behind _ _ _ ?_
      rw [write_behind, ih]
    | pointer a =>
      rw [show ArgType.cons (.pointer a) t = .pointer a t from rfl, type_pointer, type_pointer]
      refine refer_behind _ _ _ ?_
      dsimp only
      rw [write_behind, ih]
      split <;> rfl

end Transcript

namespace Session

variable {s : Session}

theorem Valid.isEqv_iff (hs : s.Valid) {gs hs' : List Handle} (hg : ∀ g ∈ gs, g ∈ s.handles)
    (hh : ∀ h ∈ hs', h ∈ s.handles) :
    gs.isEqv hs' Handle.equals = true ↔ gs.map Handle.type = hs'.map Handle.type := by
  induction gs generalizing hs' with
  | nil => cases hs' <;> simp [List.isEqv]
  | cons g gs ih =>
    cases hs' with
    | nil => simp [List.isEqv]
    | cons h hs' =>
      obtain ⟨hg, hgs⟩ := List.forall_mem_cons.1 hg
      obtain ⟨hh, hhs⟩ := List.forall_mem_cons.1 hh
      simp [List.isEqv, hs.equals_iff hg hh, ih hgs hhs]

/-- An encoder writes transcripts. Whatever handles it is given, as parameters or to visit, after
every step its text is the text of the transcript of their types, and it has as many components.
The symbol of a function with a name is the transcript of its types. So equal parameters have equal
symbols, equal steps write equal texts in either way, and the symbol of a function with one
parameter ends with the code of its type on its own. -/
theorem Reachable.encoder_refines (hs : s.Reachable) :
    (∀ (text : String) (steps : List Encoder.Step), (∀ st ∈ steps, st.handle ∈ s.handles) →
      ∀ n, (Encoder.run text (steps.take n)).text
          = (Transcript.run text ((steps.take n).map fun st => st.handle.type)).text ∧
        (Encoder.run text (steps.take n)).candidates
          = (Transcript.run text ((steps.take n).map fun st => st.handle.type)).table.length) ∧
    (∀ f : Signature Handle, f.name ≠ "" → (∀ h ∈ f.params, h ∈ s.handles) →
      encode f = .ok (Transcript.signature (f.map Handle.type)).text) ∧
    (∀ f g : Signature Handle, (∀ h ∈ f.params, h ∈ s.handles) → (∀ h ∈ g.params, h ∈ s.handles) →
      f.name ≠ "" → f.name = g.name → f.params.isEqv g.params Handle.equals = true →
        encode f = encode g) ∧
    (∀ (text : String) (steps steps' : List Encoder.Step),
      (∀ st ∈ steps, st.handle ∈ s.handles) → (∀ st ∈ steps', st.handle ∈ s.handles) →
      (steps.map Encoder.Step.handle).isEqv (steps'.map Encoder.Step.handle) Handle.equals = true →
        (Encoder.run text steps).text = (Encoder.run text steps').text ∧
          (Encoder.run text steps).candidates = (Encoder.run text steps').candidates) ∧
    (∀ (f : Signature Handle) (h : Handle), f.name ≠ "" → h ∈ s.handles → f.params = [h] →
      encode f = .ok ("_Z" ++ sourceName f.name ++ encodeType h)) := by
  have hv := hs.valid
  have tells : ∀ (text : String) (steps : List Encoder.Step),
      (∀ st ∈ steps, st.handle ∈ s.handles) → Encoder.Tells (Encoder.run text steps)
        (.run text (steps.map fun st => st.handle.type)) := fun text _ hm =>
    Encoder.tells_run text fun st hst => hv.foreign (hm st hst)
  have symbol : ∀ {f : Signature Handle}, f.name ≠ "" → (∀ h ∈ f.params, h ∈ s.handles) →
      encode f = .ok (Transcript.signature (f.map Handle.type)).text := fun hne hm =>
    encode_eq_transcript hne fun h hh => hv.foreign (hm h hh)
  refine ⟨fun text steps hm n => ?_, fun f => symbol, fun f g hf hg hne hname he => ?_,
    fun text steps steps' hm hm' he => ?_, fun f h hne hh hp => ?_⟩
  · have ht := tells text (steps.take n) fun st hst => hm st (List.mem_of_mem_take hst)
    exact ⟨ht.text_eq, ht.size_eq⟩
  · have htypes := (hv.isEqv_iff hf hg).1 he
    rw [symbol hne hf, symbol (hname ▸ hne) hg]
    simp only [Signature.map, hname, htypes]
  · have ht := tells text steps hm
    have ht' := tells text steps' hm'
    have htypes := (hv.isEqv_iff (List.forall_mem_map.2 hm) (List.forall_mem_map.2 hm')).1 he
    simp only [List.map_map] at htypes
    rw [show (steps.map fun st => st.handle.type) = steps'.map fun st => st.handle.type from htypes]
      at ht
    exact ⟨ht.text_eq.trans ht'.text_eq.symm, ht.size_eq.trans ht'.size_eq.symm⟩
  · have hm : ∀ k ∈ f.params, k ∈ s.handles := by simpa [hp] using hh
    have hmap : f.map Handle.type = ⟨f.name, [h.type]⟩ := by simp [Signature.map, hp]
    have hback := Transcript.type_behind ("_Z" ++ sourceName f.name) (.start "") h.type
    rw [symbol hne hm, hmap, encodeType_eq_transcript (hv.foreign hh)]
    refine congrArg Except.ok (Eq.trans ?_ (congrArg Transcript.text hback))
    simp [Transcript.signature, Signature.isEmpty, Transcript.behind, Transcript.start]

/-- Two pointers to one named node, all built outside every pool. -/
def forkedPointers : Session :=
  start.after [.outside ⟨.named "point", []⟩, .outsidePointer 0 1 [2], .outsidePointer 0 1 [2]]

/-- Different nodes with equal types are written as one, whichever way they are given. -/
theorem encoder_refines_forkedPointers : ∃ g h : Handle,
    forkedPointers.handles[1]? = some g ∧ forkedPointers.handles[2]? = some h ∧
      g.sameNode h = false ∧
      (Encoder.run "out: " [.param g, .visit h]).text = "out: PU3AS1K5pointS1_" ∧
      (Encoder.run "out: " [.param g, .visit h]).candidates = 3 := by
  have hs : forkedPointers.Reachable := ⟨_, rfl⟩
  obtain ⟨g, hg⟩ : ∃ g, forkedPointers.handles[1]? = some g := ⟨_, rfl⟩
  obtain ⟨h, hh⟩ : ∃ h, forkedPointers.handles[2]? = some h := ⟨_, rfl⟩
  have hn : g.sameNode h = false := by
    cases hg
    cases hh
    rfl
  have htypes : [g.type, h.type] = List.replicate 2
      ⟨[.pointer ⟨.globalSpace, .ofList [.const]⟩], .named "point"⟩ := by
    cases hg
    cases hh
    rfl
  have hm : ∀ st ∈ [Encoder.Step.param g, .visit h], st.handle ∈ forkedPointers.handles := by
    simp [Encoder.Step.handle, Array.mem_of_getElem? hg, Array.mem_of_getElem? hh]
  obtain ⟨htext, hsize⟩ := hs.encoder_refines.1 "out: " _ hm 2
  have hmap : ([Encoder.Step.param g, .visit h].take 2).map (fun st => st.handle.type)
      = [g.type, h.type] := rfl
  rw [hmap, htypes] at htext hsize
  refine ⟨g, h, hg, hh, hn, htext.trans ?_, hsize.trans ?_⟩ <;> decide +kernel

end Session

end KernelSymbol
