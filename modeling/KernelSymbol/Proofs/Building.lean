import KernelSymbol.Pool.Valid
import KernelSymbol.Symbol.Decoder

/-!
# What the steps of a decoder build

Every step of a decoder keeps its pool valid, only adds to it, and yields a stored node. What
the table then holds can be said with types alone, in the way of the grammar. A step whose result
is stored already stores nothing, so decoding a symbol of stored types leaves the pool as it is.

## Main definitions

* `Decoder.types` — the table, with types in the place of nodes
* `Decoder.Valid` — the pool is valid and stores what the table is about
* `Decoder.Builds` — what building a type owes
* `Decoder.Resolves`, `Decoder.Closes` — all that can become of a stem and of an opening

## Main results

* `Decoder.Valid.builtin`, `Decoder.Valid.named`, `Decoder.Valid.pointer`,
  `Decoder.Valid.vector` — what the steps build
* `Decoder.Builds.around` — building one node around what was built
* `Decoder.eq_of_resolve_error`, `Decoder.eq_of_closeOne_error` — a fault builds nothing
-/

namespace KernelSymbol

namespace Decoder

/-- The components read so far, with types in the place of nodes. -/
def types (d : Decoder) : List (Component ArgType) :=
  d.table.toList.map (Component.map Handle.type)

/-- What holds of a decoder in a valid pool: whatever can be referred to is stored. -/
structure Valid (d : Decoder) : Prop where
  pool : d.pool.Valid
  mem : ∀ c ∈ d.table, c.node ∈ d.pool.nodes

/-- What building a type from a decoder owes: the type is yielded by the pool, and the table holds
certain components, all of them about stored nodes. -/
structure Builds (d : Decoder) (t : ArgType) (table : List (Component ArgType))
    (r : Handle × Decoder) : Prop where
  yields : d.pool.Yields t (r.1, r.2.pool)
  mem : ∀ c ∈ r.2.table, c.node ∈ r.2.pool.nodes
  types_eq : r.2.types = table

variable {d : Decoder} {t : ArgType} {table : List (Component ArgType)} {r : Handle × Decoder}

theorem valid_start {p : Pool} (hp : p.Valid) : (start p).Valid := ⟨hp, by simp [start]⟩

@[simp] theorem types_start (p : Pool) : (start p).types = [] := rfl

@[simp] theorem types_record (d : Decoder) (c : Component Handle) :
    (d.record c).types = d.types ++ [c.map Handle.type] := by simp [types, record]

theorem types_getElem? (d : Decoder) (i : Nat) :
    d.types[i]? = d.table[i]?.map (Component.map Handle.type) := by simp [types]

theorem Builds.valid (h : Builds d t table r) : r.2.Valid := ⟨h.yields.valid, h.mem⟩

/-- Recording a component about a stored node keeps the decoder valid. -/
theorem Valid.record (hd : d.Valid) {c : Component Handle} (hc : c.node ∈ d.pool.nodes) :
    (d.record c).Valid := by
  refine ⟨hd.pool, fun k hk => ?_⟩
  rcases Array.mem_push.1 hk with hk | rfl
  · exact hd.mem k hk
  · exact hc

/-- A look-up that records nothing. -/
theorem Valid.builds (hd : d.Valid) {r : Handle × Pool} (h : d.pool.Yields t r) :
    Builds d t d.types (r.1, ⟨r.2, d.table⟩) :=
  ⟨h, fun c hc => h.grows.mem (hd.mem c hc), rfl⟩

/-- Building a type and recording it as a whole. -/
theorem Builds.record (h : Builds d t table r) :
    Builds d t (table ++ [.whole t]) (r.1, r.2.record (.whole r.1)) := by
  refine ⟨h.yields, (h.valid.record (c := .whole r.1) h.yields.mem).mem, ?_⟩
  rw [types_record, h.types_eq, Component.map_whole, h.yields.type_eq]

/-- Building one more node around what was built. -/
theorem Builds.around (hd : d.Valid) {l : Link} {table' : List (Component ArgType)}
    {r' : Handle × Decoder} (h : Builds d t table r) (k : Builds r.2 (.cons l t) table' r') :
    Builds d (.cons l t) table' r' :=
  ⟨h.yields.cons hd.pool k.yields, k.mem, k.types_eq⟩

/-- A stored node is there without building. -/
theorem Valid.builds_self (hd : d.Valid) {h : Handle} (hm : h ∈ d.pool.nodes) :
    Builds d h.type d.types (h, d) :=
  ⟨⟨hd.pool, .refl _, hm, rfl, fun _ => rfl⟩, hd.mem, rfl⟩

/-! ### The steps -/

theorem Valid.builtin (hd : d.Valid) (b : Builtin) :
    Builds d (.builtin b) d.types (d.builtin b) := hd.builds (hd.pool.leaf (.builtin b))

theorem named_of_ok (d : Decoder) {name : String} (place : List Char)
    (h : ArgType.checkName name = .ok ()) :
    d.named name place = (.ok (d.pool.leaf (.named name)).1,
      ⟨(d.pool.leaf (.named name)).2, d.table.push (.whole (d.pool.leaf (.named name)).1)⟩) := by
  simp only [Decoder.named, Pool.named, h]

theorem vector_of_ok (d : Decoder) {n : UInt32} {h : Handle} (place : List Char)
    (hc : ArgType.checkVector n h.type = .ok ()) :
    d.vector n place h = (.ok (d.pool.wrap (.vector n) h).1,
      ⟨(d.pool.wrap (.vector n) h).2, d.table.push (.whole (d.pool.wrap (.vector n) h).1)⟩) := by
  simp only [Decoder.vector, Pool.vector, hc]

theorem Valid.named (hd : d.Valid) {name : String} (hne : name ≠ "") :
    ∃ r, (∀ place, d.named name place = (.ok r.1, r.2)) ∧
      Builds d ⟨[], .named name⟩ (d.types ++ [.whole ⟨[], .named name⟩]) r := by
  have hc : ArgType.checkName name = .ok () := ArgType.checkName_eq_ok_iff.2 hne
  exact ⟨_, fun place => named_of_ok d place hc, (hd.builds (hd.pool.leaf (.named name))).record⟩

theorem Valid.pointer (hd : d.Valid) (a : PointerAttrs) {h : Handle} (hm : h ∈ d.pool.nodes) :
    Builds d (.pointer a h.type) (d.types ++ [.whole (.pointer a h.type)]) (d.pointer a h) :=
  (hd.builds (hd.pool.wrap (.pointer a) (hd.pool.knows_of_mem hm))).record

theorem Valid.vector (hd : d.Valid) {n : UInt32} {h : Handle} (hm : h ∈ d.pool.nodes) (hn : n ≠ 0)
    (hs : h.type.isScalar = true) :
    ∃ r, (∀ place, d.vector n place h = (.ok r.1, r.2)) ∧
      Builds d (.cons (.vector n) h.type) (d.types ++ [.whole (.cons (.vector n) h.type)]) r := by
  have hc : ArgType.checkVector n h.type = .ok () := ArgType.checkVector_eq_ok_iff.2 ⟨hn, hs⟩
  have hw := hd.pool.wrap (.vector n) (hd.pool.knows_of_mem hm)
  exact ⟨_, fun place => vector_of_ok d place hc, (hd.builds hw).record⟩

theorem named_of_error {name : String} {e : BuildError} (place : List Char)
    (h : ArgType.checkName name = .error e) :
    d.named name place = (.error (.invalidType place e), d) := by
  simp only [Decoder.named, Pool.named_of_error h]

theorem vector_of_error {n : UInt32} {h : Handle} {e : BuildError} (place : List Char)
    (he : ArgType.checkVector n h.type = .error e) :
    d.vector n place h = (.error (.invalidType place e), d) := by
  simp only [Decoder.vector, Pool.vector_of_error he]

/-! ### Stems and openings -/

/-- How a stem turns out. A builtin or a name is looked up, a reference is in the table, and a
pointer is built around what the table is about. Otherwise there is a fault with a place, and
nothing is built. -/
inductive Resolves (d : Decoder) : Stem → Except Fault Handle × Decoder → Prop where
  | builtin (b : Builtin) : Resolves d (.builtin b) (.ok (d.builtin b).1, (d.builtin b).2)
  | named {name : String} (place : List Char) (hc : ArgType.checkName name = .ok ()) :
    Resolves d (.named name place) (.ok (d.pool.leaf (.named name)).1,
      ⟨(d.pool.leaf (.named name)).2, d.table.push (.whole (d.pool.leaf (.named name)).1)⟩)
  | reference {i : Nat} {h : Handle} (place : List Char) (hm : .whole h ∈ d.table) :
    Resolves d (.reference i place) (.ok h, d)
  | pointerTo {i : Nat} {c : Component Handle} (place : List Char) (a : PointerAttrs)
    (hm : c ∈ d.table) :
    Resolves d (.pointerTo i place) (.ok (d.pointer a c.node).1, (d.pointer a c.node).2)
  | fault {stem : Stem} {e : Fault} {place : List Char} (he : e.place? = some place) :
    Resolves d stem (.error e, d)

/-- How an opening is closed. A pointer is built, behind its attributes if these were spelled out.
So is a vector, unless it breaks its contract. -/
inductive Closes (d : Decoder) (h : Handle) : Opening → Except Fault Handle × Decoder → Prop where
  | plain (a : PointerAttrs) :
    Closes d h (.pointer a false) (.ok (d.pointer a h).1, (d.pointer a h).2)
  | spelled (a : PointerAttrs) :
    Closes d h (.pointer a true) (.ok ((d.record (.qualified a h)).pointer a h).1,
      ((d.record (.qualified a h)).pointer a h).2)
  | vector {n : UInt32} (place : List Char) (hc : ArgType.checkVector n h.type = .ok ()) :
    Closes d h (.vector n place) (.ok (d.pool.wrap (.vector n) h).1,
      ⟨(d.pool.wrap (.vector n) h).2, d.table.push (.whole (d.pool.wrap (.vector n) h).1)⟩)
  | fault {n : UInt32} {e : BuildError} (place : List Char)
    (he : ArgType.checkVector n h.type = .error e) :
    Closes d h (.vector n place) (.error (.invalidType place e), d)

theorem resolves (d : Decoder) (stem : Stem) : Resolves d stem (d.resolve stem) := by
  cases stem with
  | builtin b => exact .builtin b
  | named name place =>
    rw [resolve]
    cases hc : ArgType.checkName name with
    | error e =>
      rw [named_of_error place hc]
      exact .fault rfl
    | ok =>
      rw [named_of_ok d place hc]
      exact .named place hc
  | reference i place =>
    simp only [resolve, component]
    cases hi : d.table[i]? with
    | none => exact .fault rfl
    | some c =>
      cases c with
      | whole h => exact .reference place (Array.mem_of_getElem? hi)
      | qualified a h => exact .fault rfl
  | pointerTo i place =>
    simp only [resolve, component]
    cases hi : d.table[i]? with
    | none => exact .fault rfl
    | some c =>
      have hc := Array.mem_of_getElem? hi
      cases c with
      | whole h => exact .pointerTo (c := .whole h) place .plain hc
      | qualified a h => exact .pointerTo (c := .qualified a h) place a hc

theorem closes (d : Decoder) (h : Handle) (opening : Opening) :
    Closes d h opening (d.closeOne h opening) := by
  cases opening with
  | pointer a spelled =>
    cases spelled with
    | false => exact .plain a
    | true => exact .spelled a
  | vector n place =>
    rw [closeOne]
    cases hc : ArgType.checkVector n h.type with
    | error e =>
      rw [vector_of_error place hc]
      exact .fault place hc
    | ok =>
      rw [vector_of_ok d place hc]
      exact .vector place hc

theorem eq_of_resolve_error {stem : Stem} {e : Fault} {d' : Decoder}
    (h : d.resolve stem = (.error e, d')) : d' = d := by
  have hr := d.resolves stem
  rw [h] at hr
  cases hr
  rfl

theorem eq_of_closeOne_error {h : Handle} {opening : Opening} {e : Fault} {d' : Decoder}
    (hc : d.closeOne h opening = (.error e, d')) : d' = d := by
  have hr := d.closes h opening
  rw [hc] at hr
  cases hr
  rfl

end Decoder

end KernelSymbol
