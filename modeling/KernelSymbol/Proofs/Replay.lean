import KernelSymbol.Proofs.Accounting
import KernelSymbol.Proofs.Agreement
import KernelSymbol.Proofs.Invariant

/-!
# Reading a symbol a second time

A symbol that was read leaves nodes behind in its pool, and so does a text that turns out to be no
symbol: whatever was built before the fault was found stays. The pool is none the worse for it.
What was there before stays where it was, and what was left behind is exactly what reading the same
text needs again. So in any later state of the pool a second reading finds each node that it looks
up, holds the same nodes as the first reading at every point, and ends in the same way.

The two readings are compared step by step. A step replays if, in every later state of the pool
that it left, it yields the same again and counts as many hits as it counted look-ups before. Steps
in a row replay because the pool after the last of them is a later state of the pool after each of
them.

## Main definitions

* `Pool.lookups`, `Pool.addHits` — the number of counted look-ups; further look-ups that all hit
* `Pool.Replays`, `Decoder.Replays` — what is found when it is asked for again
* `Decoder.andThen` — one step and then another one

## Main results

* `Pool.Valid.replays_lookup`, `Pool.Valid.replays_wrap` — one look-up
* `Decoder.Replays.seq` — steps in a row
* `Decoder.Valid.replays_param`, `Decoder.Valid.replays_readParams` — parameters
* `Session.Reachable.decode_replays` — symbols, and texts that are none
-/

namespace KernelSymbol

namespace Pool

variable {α β : Type} {p q : Pool}

/-- The number of counted look-ups so far. -/
def lookups (p : Pool) : Nat := p.hits + p.misses

/-- The pool after further look-ups that all were hits. -/
def addHits (p : Pool) (n : Nat) : Pool := { p with hits := p.hits + n }

@[simp] theorem addHits_zero (p : Pool) : p.addHits 0 = p := rfl

@[simp] theorem addHits_addHits (p : Pool) (m n : Nat) :
    (p.addHits m).addHits n = p.addHits (m + n) := by
  simp [addHits, Nat.add_assoc]

theorem Valid.addHits (hp : p.Valid) (n : Nat) : (p.addHits n).Valid :=
  ⟨hp.tag_eq, hp.child, hp.index_iff, hp.owns_iff, hp.misses_eq⟩

theorem Extends.addHits (h : p.Extends q) (n : Nat) : p.Extends (q.addHits n) :=
  ⟨h.maker_eq, h.nodes_prefix⟩

/-- Working in the pool makes `n` counted look-ups, and in every later state of the pool that is
left, the same work yields the same by `n` hits. -/
structure Replays (p : Pool) (f : Pool → α × Pool) (n : Nat) : Prop where
  grows : p.Extends (f p).2
  lookups_eq : (f p).2.lookups = p.lookups + n
  again : ∀ {q : Pool}, q.Valid → (f p).2.Extends q → f q = ((f p).1, q.addHits n)

/-! ### One look-up -/

theorem Valid.replays_lookup (hp : p.Valid) (key : Key) (make : Tag → Handle)
    (htag : (make p.nextTag).tag = p.nextTag) (hkey : (make p.nextTag).key = key)
    (hchild : ∀ c, (make p.nextTag).child? = some c → c ∈ p.nodes) :
    p.Replays (fun p => p.lookup key make) 1 := by
  obtain ⟨-, he, hm, hk⟩ := hp.lookup key make htag hkey hchild
  refine ⟨he, ?_, fun hq hge => lookup_of_some (hq.index_iff.2 ⟨hge.mem hm, hk⟩) make⟩
  rw [Pool.lookup]
  split <;> simp only [lookups] <;> omega

theorem Valid.replays_leaf (hp : p.Valid) (l : Leaf) : p.Replays (fun p => p.leaf l) 1 :=
  hp.replays_lookup (.leaf l) (fun t => ⟨[], l, t⟩) rfl rfl (by simp)

theorem Valid.replays_link (hp : p.Valid) (l : Link) {c : Handle} (hc : c ∈ p.nodes) :
    p.Replays (fun p => p.link l c) 1 :=
  hp.replays_lookup (.link l c.tag) (fun t => c.cons l t) rfl rfl (by simpa using hc)

/-- A link above a stored node is one look-up. -/
theorem Valid.wrap_of_mem (hp : p.Valid) (l : Link) {c : Handle} (hc : c ∈ p.nodes) :
    p.wrap l c = p.link l c := by
  rw [Pool.wrap, settle_of_owns (hp.owns_of_mem hc)]

theorem Valid.replays_wrap (hp : p.Valid) (l : Link) {c : Handle} (hc : c ∈ p.nodes) :
    p.Replays (fun p => p.wrap l c) 1 := by
  have h := hp.replays_link l hc
  have hw := hp.wrap_of_mem l hc
  refine ⟨?_, ?_, fun {q} hq he => ?_⟩
  · rw [hw]
    exact h.grows
  · rw [hw]
    exact h.lookups_eq
  · rw [hw] at he ⊢
    rw [hq.wrap_of_mem l (he.mem (h.grows.mem hc))]
    exact h.again hq he

end Pool

namespace Decoder

variable {α β : Type} {d : Decoder} {n m : Nat}

/-- A step makes `n` counted look-ups, and in every later state of the pool that is left, with the
table as it was before, the same step yields the same and leaves the same table, by `n` hits. -/
structure Replays (d : Decoder) (f : Decoder → α × Decoder) (n : Nat) : Prop where
  grows : d.pool.Extends (f d).2.pool
  lookups_eq : (f d).2.pool.lookups = d.pool.lookups + n
  again : ∀ {q : Pool}, q.Valid → (f d).2.pool.Extends q →
    f ⟨q, d.table⟩ = ((f d).1, ⟨q.addHits n, (f d).2.table⟩)

/-- Goes on with what a step yields, unless it fails. -/
def andThen (f : Decoder → Except Fault α × Decoder) (g : α → Decoder → Except Fault β × Decoder)
    (d : Decoder) : Except Fault β × Decoder :=
  match f d with
  | (.ok a, d) => g a d
  | (.error e, d) => (.error e, d)

/-! ### Steps in general -/

/-- What a step does may be said in the pools that matter only. -/
theorem Replays.congr {f g : Decoder → α × Decoder} (h : Replays d f n)
    (hg : ∀ q : Pool, g ⟨q, d.table⟩ = f ⟨q, d.table⟩) : Replays d g n := by
  have hd : g d = f d := hg d.pool
  refine ⟨?_, ?_, fun {q} hq he => ?_⟩ <;> rw [hd] at *
  · exact h.grows
  · exact h.lookups_eq
  · rw [hg, h.again hq he]

/-- A step that does not touch the decoder. -/
theorem replays_pure (d : Decoder) (a : α) : Replays d (fun d => (a, d)) 0 :=
  ⟨.refl _, rfl, fun _ _ => rfl⟩

/-- A step that works in the pool and changes the table by what is yielded there. -/
theorem replays_of_pool {k : Pool → α × Pool} (h : d.pool.Replays k n) (out : α → β)
    (table : Array (Component Handle) → α → Array (Component Handle)) :
    Replays d (fun d => (out (k d.pool).1, ⟨(k d.pool).2, table d.table (k d.pool).1⟩)) n :=
  ⟨h.grows, h.lookups_eq, fun hq he => by simp only [h.again hq he]⟩

theorem Replays.seq {f : Decoder → Except Fault α × Decoder}
    {g : α → Decoder → Except Fault β × Decoder} (hf : Replays d f n)
    (hg : ∀ a d', f d = (.ok a, d') → ∃ m, Replays d' (g a) m) :
    ∃ m, Replays d (andThen f g) m := by
  obtain ⟨hgrows, hlook, hagain⟩ := hf
  rcases hr : f d with ⟨e | a, d'⟩ <;> rw [hr] at hgrows hlook hagain
  · have he : andThen f g d = (.error e, d') := by simp only [andThen, hr]
    refine ⟨n, ?_, ?_, fun hq hext => ?_⟩
    · rw [he]
      exact hgrows
    · rw [he]
      exact hlook
    · rw [he] at hext ⊢
      simp only [andThen, hagain hq hext]
  · have he : andThen f g d = g a d' := by simp only [andThen, hr]
    obtain ⟨m, hgrows', hlook', hagain'⟩ := hg a d' hr
    refine ⟨n + m, ?_, ?_, fun {q} hq hext => ?_⟩
    · rw [he]
      exact hgrows.trans hgrows'
    · rw [he, hlook', hlook, Nat.add_assoc]
    · rw [he] at hext ⊢
      -- a later state of the pool after both steps is one of the pool after the first
      have hfirst := hagain hq (hgrows'.trans hext)
      simp only [andThen, hfirst, hagain' (hq.addHits n) (hext.addHits n), Pool.addHits_addHits]

theorem close_cons_eq (h : Handle) (opening : Opening) (openings : List Opening) :
    (fun d : Decoder => d.close h (opening :: openings)) =
      andThen (fun d => d.closeOne h opening) fun h d => d.close h openings := by
  funext d
  rw [Decoder.close, andThen]
  rcases d.closeOne h opening with ⟨e | g, d'⟩ <;> rfl

theorem build_eq (lexeme : Lexeme) :
    (fun d : Decoder => d.build lexeme) =
      andThen (fun d => d.resolve lexeme.stem) fun h d => d.close h lexeme.openings := by
  funext d
  rw [Decoder.build, andThen]
  rcases d.resolve lexeme.stem with ⟨e | g, d'⟩ <;> rfl

theorem param_eq {cs rest : List Char} {lexeme : Lexeme}
    (hl : readLexeme [] cs = .ok (lexeme, rest)) :
    (fun d : Decoder => d.param cs) =
      andThen (fun d => d.build lexeme) fun h d => (.ok (h, rest), d) := by
  funext d
  simp only [Decoder.param, hl, andThen]
  rcases d.build lexeme with ⟨e | g, d'⟩ <;> rfl

theorem readParams_eq {cs : List Char} (he : ¬cs.isEmpty = true) (params : List Handle) :
    (fun d : Decoder => d.readParams params cs) =
      andThen (fun d => d.param cs) fun r d => d.readParams (r.1 :: params) r.2 := by
  funext d
  rw [readParams_of_not_isEmpty he, andThen]
  rcases d.param cs with ⟨e | r, d'⟩ <;> rfl

/-! ### The steps of a decoder -/

/-- A pointer to a stored node, with components that are recorded before it. -/
theorem Valid.replays_pointer (hd : d.Valid) (a : PointerAttrs) {h : Handle}
    (hm : h ∈ d.pool.nodes) (before : Array (Component Handle) → Array (Component Handle)) :
    Replays (α := Except Fault Handle) d (fun d =>
      (.ok (Decoder.pointer ⟨d.pool, before d.table⟩ a h).1,
        (Decoder.pointer ⟨d.pool, before d.table⟩ a h).2)) 1 :=
  replays_of_pool (hd.pool.replays_wrap (.pointer a) hm) Except.ok fun t h =>
    (before t).push (.whole h)

theorem Valid.replays_vector (hd : d.Valid) (n : UInt32) (place : List Char) {h : Handle}
    (hm : h ∈ d.pool.nodes) : ∃ m, Replays d (fun d => d.vector n place h) m := by
  cases hc : ArgType.checkVector n h.type with
  | error e =>
    exact ⟨0, (replays_pure d (.error (.invalidType place e))).congr fun q =>
      vector_of_error place hc⟩
  | ok =>
    have hw := replays_of_pool (β := Except Fault Handle) (hd.pool.replays_wrap (.vector n) hm)
      Except.ok fun t h => t.push (.whole h)
    exact ⟨1, hw.congr fun q => vector_of_ok _ place hc⟩

theorem Valid.replays_named (hd : d.Valid) (name : String) (place : List Char) :
    ∃ m, Replays d (fun d => d.named name place) m := by
  cases hc : ArgType.checkName name with
  | error e =>
    exact ⟨0, (replays_pure d (.error (.invalidType place e))).congr fun q =>
      named_of_error place hc⟩
  | ok =>
    have hl := replays_of_pool (β := Except Fault Handle) (hd.pool.replays_leaf (.named name))
      Except.ok fun t h => t.push (.whole h)
    exact ⟨1, hl.congr fun q => named_of_ok _ place hc⟩

/-- A reference replays, because it is looked up in the table. What the table is about is stored. -/
theorem Valid.replays_resolve (hd : d.Valid) (stem : Stem) :
    ∃ m, Replays d (fun d => d.resolve stem) m := by
  cases stem with
  | builtin b =>
    exact ⟨1, replays_of_pool (hd.pool.replays_leaf (.builtin b)) Except.ok fun t _ => t⟩
  | named name place => exact hd.replays_named name place
  | reference i place =>
    refine ⟨0, (replays_pure d (d.resolve (.reference i place)).1).congr fun q => ?_⟩
    simp only [Decoder.resolve, component]
    cases d.table[i]? with
    | none => rfl
    | some c => cases c <;> rfl
  | pointerTo i place =>
    cases hi : d.table[i]? with
    | none =>
      refine ⟨0, (replays_pure d (.error (.invalidReference place))).congr fun q => ?_⟩
      simp only [Decoder.resolve, component, hi]
    | some c =>
      have hc : c.node ∈ d.pool.nodes := hd.mem c (Array.mem_of_getElem? hi)
      cases c with
      | whole h =>
        refine ⟨1, (hd.replays_pointer .plain hc id).congr fun q => ?_⟩
        simp only [Decoder.resolve, component, hi]
        rfl
      | qualified a h =>
        refine ⟨1, (hd.replays_pointer a hc id).congr fun q => ?_⟩
        simp only [Decoder.resolve, component, hi]
        rfl

theorem Valid.replays_closeOne (hd : d.Valid) {h : Handle} (hm : h ∈ d.pool.nodes)
    (opening : Opening) : ∃ m, Replays d (fun d => d.closeOne h opening) m := by
  cases opening with
  | vector n place => exact hd.replays_vector n place hm
  | pointer a spelled =>
    cases spelled with
    | false => exact ⟨1, hd.replays_pointer a hm id⟩
    | true => exact ⟨1, hd.replays_pointer a hm fun t => t.push (.qualified a h)⟩

theorem Valid.replays_close (hd : d.Valid) {h : Handle} (hm : h ∈ d.pool.nodes)
    (openings : List Opening) : ∃ m, Replays d (fun d => d.close h openings) m := by
  induction openings generalizing d h with
  | nil => exact ⟨0, replays_pure d _⟩
  | cons opening openings ih =>
    obtain ⟨m, hone⟩ := hd.replays_closeOne hm opening
    rw [close_cons_eq]
    refine hone.seq fun g d' hg => ?_
    have hleaves := invariant_valid.closeOne hd hm opening
    rw [hg] at hleaves
    exact ih hleaves.1 hleaves.2

theorem Valid.replays_build (hd : d.Valid) (lexeme : Lexeme) :
    ∃ m, Replays d (fun d => d.build lexeme) m := by
  obtain ⟨m, hstem⟩ := hd.replays_resolve lexeme.stem
  rw [build_eq]
  refine hstem.seq fun g d' hg => ?_
  have hleaves := invariant_valid.resolve hd lexeme.stem
  rw [hg] at hleaves
  exact hleaves.1.replays_close hleaves.2 lexeme.openings

/-- Reading a parameter replays: its text is read before anything is built. -/
theorem Valid.replays_param (hd : d.Valid) (cs : List Char) :
    ∃ m, Replays d (fun d => d.param cs) m := by
  rcases hl : readLexeme [] cs with e | ⟨lexeme, rest⟩
  · refine ⟨0, (replays_pure d (.error e)).congr fun q => ?_⟩
    simp only [Decoder.param, hl]
  · obtain ⟨m, hbuild⟩ := hd.replays_build lexeme
    rw [param_eq hl]
    exact hbuild.seq fun g d' _ => ⟨0, replays_pure d' _⟩

/-- Reading parameters replays, up to the end of the text or to a fault. -/
theorem Valid.replays_readParams (hd : d.Valid) (params : List Handle) (cs : List Char) :
    ∃ m, Replays d (fun d => d.readParams params cs) m := by
  fun_induction Decoder.readParams d params cs with
  | case1 d params cs he =>
    refine ⟨0, (replays_pure d (.ok params.reverse)).congr fun q => ?_⟩
    obtain rfl := List.isEmpty_iff.1 he
    exact readParams_nil _ params
  | case2 d params cs he e d' hp =>
    obtain ⟨m, hparam⟩ := hd.replays_param cs
    rw [readParams_eq he]
    refine hparam.seq fun r d'' hr => ?_
    rw [hp] at hr
    cases hr
  | case3 d params cs he h rest d' hp ih =>
    obtain ⟨m, hparam⟩ := hd.replays_param cs
    have hkeep := invariant_valid.param hd cs
    rw [hp] at hkeep
    rw [readParams_eq he]
    refine hparam.seq fun r d'' hr => ?_
    rw [hp] at hr
    cases hr
    exact ih hkeep

end Decoder

/-! ### Whole symbols -/

namespace Pool

variable {α β : Type} {p : Pool} {n : Nat}

/-- Work that does not touch the pool. -/
theorem replays_pure (p : Pool) (a : α) : p.Replays (fun p => (a, p)) 0 :=
  ⟨.refl p, rfl, fun _ _ => rfl⟩

/-- What work yields may be put in other words. -/
theorem Replays.map {f : Pool → α × Pool} (h : p.Replays f n) (out : α → β) :
    p.Replays (fun p => (out (f p).1, (f p).2)) n :=
  ⟨h.grows, h.lookups_eq, fun hq he => by simp only [h.again hq he]⟩

theorem Valid.replays_decodeParams (hp : p.Valid) (cs : List Char) :
    ∃ n, p.Replays (decodeParams cs) n := by
  by_cases hv : cs = ['v']
  · have he : decodeParams cs = fun p => (.ok [], p) := funext fun p => by
      rw [decodeParams, if_pos hv]
    exact ⟨0, he ▸ replays_pure p _⟩
  by_cases hne : cs = []
  · have he : decodeParams cs = fun p => (.error (.unexpectedEnd []), p) := funext fun p => by
      rw [decodeParams, if_neg hv, if_pos (List.isEmpty_iff.2 hne)]
    exact ⟨0, he ▸ replays_pure p _⟩
  obtain ⟨n, hgrows, hlook, hagain⟩ := (Decoder.valid_start hp).replays_readParams [] cs
  refine ⟨n, ?_⟩
  rw [show decodeParams cs = _ from funext fun p => decodeParams_of_ne p hv hne]
  refine ⟨hgrows, hlook, fun {q} hq hext => ?_⟩
  have hfinal : (Decoder.start q).readParams [] cs = _ := hagain hq hext
  rw [hfinal]

theorem Valid.replays_decode (hp : p.Valid) (text : String) :
    ∃ n, p.Replays (KernelSymbol.decode text) n := by
  rcases hh : readHead text.toList with e | ⟨name, rest⟩
  · have he : KernelSymbol.decode text = fun p =>
        (.error (e.map fun rest => text.utf8ByteSize - byteCount rest), p) := funext fun p => by
      rw [KernelSymbol.decode, decodeText, hh]
    exact ⟨0, he ▸ replays_pure p _⟩
  · obtain ⟨n, h⟩ := hp.replays_decodeParams rest
    refine ⟨n, ?_⟩
    rw [show KernelSymbol.decode text = _ from funext fun p => decode_of_readHead hh p]
    exact h.map fun r => (r.map (Signature.mk name)).mapError
      (DecodeError.map fun rest => text.utf8ByteSize - byteCount rest)

end Pool

namespace Session

variable {s : Session}

/-- A pool only gains by a text that is decoded in it, whether the text is a symbol or not. The
nodes that the pool stored stay where they were, what it owned it owns, and new nodes come behind
the old ones. Decoding the text again, at once or in any later state of the pool, yields the very
same handles or the very same error, and leaves the pool as it is, with its nodes, index, identities
and misses, but for more hits, namely as many as there were hits and misses together the first
time. -/
theorem Reachable.decode_replays (hs : s.Reachable) {i : Nat} {p q : Pool}
    (hp : s.pools[i]? = some p) (text : String)
    {r : Except (DecodeError Nat) (Signature Handle)} (hd : KernelSymbol.decode text p = (r, q)) :
    p.nodes.toList <+: q.nodes.toList ∧
    (∀ t : Tag, p.owns t = true → q.owns t = true) ∧
    ∃ n : Nat, q.hits + q.misses = p.hits + p.misses + n ∧
      KernelSymbol.decode text q = (r, { q with hits := q.hits + n }) ∧
      ∀ q' : Pool, q'.Valid → q.Extends q' →
        KernelSymbol.decode text q' = (r, { q' with hits := q'.hits + n }) := by
  have hv := (hs.valid.pool hp).1
  obtain ⟨n, hgrows, hlook, hagain⟩ := hv.replays_decode text
  rw [hd] at hgrows hlook hagain
  have hq : q.Valid := by
    obtain ⟨d, hdv, he⟩ := Decoder.invariant_valid.decode (Decoder.valid_start hv) text
    rw [hd] at he
    rw [show q = d.pool from he]
    exact hdv.pool
  exact ⟨hgrows.nodes_prefix, fun t => hgrows.owns hv hq, n, hlook, hagain hq (.refl q),
    fun q' hq' he => hagain hq' he⟩

/-- A text that is found to be no symbol after a pointer was built. -/
theorem exists_decode_unknownCode {p : Pool} (hp : p.Valid) :
    ∃ q, KernelSymbol.decode "_Z1fPi?" p = (.error (.unknownCode '?' 6), q) := by
  have hhead : readHead "_Z1fPi?".toList = .ok ("f", ['P', 'i', '?']) := by rfl
  have hpointer : TypeText .lenient [] ['P', 'i'] (.pointer .plain (.builtin .int))
      [.whole (.pointer .plain (.builtin .int))] :=
    .pointer (.mk .silent QualifierSet.known_empty) (by simp) (.letter rfl)
  have hcode : readLexeme [] ['?'] = .error (.unknownCode '?' ['?']) := by
    rw [readLexeme.eq_def]
    rfl
  obtain ⟨⟨hs, d⟩, hr, -⟩ := (TypesText.cons hpointer .nil).readParams_append
    (d := .start p) (Decoder.valid_start hp) []
  have hparams : (Decoder.start p).readParams [] ['P', 'i', '?'] =
      (.error (.unknownCode '?' ['?']), d) := by
    have hparam : d.param ['?'] = (.error (.unknownCode '?' ['?']), d) := by
      simp only [Decoder.param, hcode]
    refine (hr ['?']).trans ?_
    rw [Decoder.readParams_of_not_isEmpty (by decide), hparam]
  refine ⟨d.pool, ?_⟩
  rw [decode_of_readHead hhead, decodeParams_of_ne p (by decide) (by decide), hparams]
  rfl

/-- A pool that owns a node already, in which the same fault is found twice. -/
theorem decode_replays_twoPointers : ∃ (p q : Pool) (h : Handle) (n : Nat),
    (twoPointers.step (.intern 0)).2.pools[0]? = some p ∧ p.owns h.tag = true ∧
      KernelSymbol.decode "_Z1fPi?" p = (.error (.unknownCode '?' 6), q) ∧ q.owns h.tag = true ∧
      q.hits + q.misses = p.hits + p.misses + n ∧
      KernelSymbol.decode "_Z1fPi?" q =
        (.error (.unknownCode '?' 6), { q with hits := q.hits + n }) := by
  obtain ⟨a, ha⟩ : ∃ a, twoPointers.interned? (.intern 0) = some a := ⟨_, rfl⟩
  obtain ⟨-, p, h, hstep, -⟩ := reachable_twoPointers.valid.exists_poolStep ha
  have hp := hstep.getElem?_current reachable_twoPointers.valid
  have ho : p.owns h.tag = true :=
    hstep.valid.owns_of_mem (hstep.mem h (List.mem_singleton_self h)).1
  obtain ⟨q, hd⟩ := exists_decode_unknownCode hstep.valid
  obtain ⟨-, howns, n, hcount, hagain, -⟩ :=
    (reachable_twoPointers.step (.intern 0)).decode_replays hp "_Z1fPi?" hd
  exact ⟨p, q, h, n, hp, ho, hd, howns _ ho, hcount, hagain⟩

end Session

end KernelSymbol
