import KernelSymbol.Session.Request

/-!
# Sessions

A session starts with one empty pool and no handles. Each request is answered, and each answer
that yields a node puts a handle on the list. A request that fails changes nothing but what a
decoder left in the current pool before it failed.

## Main definitions

* `Session`, `Session.start` — the state of a session
* `Session.step` — the answer to one request
* `Session.run` — the answers to several requests, each with the counters of the pool that is
  current then
* `Session.Reachable` — the states that a session can get into
-/

namespace KernelSymbol

/-- The pools, the number of the current one, the handles so far, the least number of each node,
and the number of the next node built outside. -/
structure Session where
  pools : Array Pool
  current : Nat
  handles : Array Handle
  numbers : Std.HashMap Tag Nat
  fresh : Nat

namespace Session

/-- One empty pool, which is current, and no handles. -/
def start : Session := ⟨#[.empty 0], 0, #[], ∅, 0⟩

/-! ### State -/

/-- The current pool. -/
def pool (s : Session) : Pool := s.pools[s.current]?.getD (.empty s.current)

/-- Puts a handle on the list. -/
def add (s : Session) (h : Handle) : Node × Session :=
  let number := s.handles.size
  let node := ⟨number, s.numbers[h.tag]?.getD number, s.pool.owns h.tag, h.type⟩
  (node, { s with
    handles := s.handles.push h
    numbers := s.numbers.insertIfNew h.tag number })

/-- Puts a handle on the list and reports it. -/
def addNode (s : Session) (h : Handle) : Reply × Session :=
  let (node, s) := s.add h
  (.node node, s)

/-- Puts handles on the list, from left to right. -/
def addAll (s : Session) (hs : List Handle) : List Node × Session := go s [] hs
where
  /-- Puts the rest on the list; `done` holds, in reverse, the reports so far. -/
  go (s : Session) (done : List Node) : List Handle → List Node × Session
    | [] => (done.reverse, s)
    | h :: hs =>
      let (node, s) := s.add h
      go s (node :: done) hs

/-- Works in the current pool. -/
def inPool {α : Type} (s : Session) (f : Pool → α × Pool) : α × Session :=
  let ⟨pools, current, handles, numbers, fresh⟩ := s
  let pool := pools[current]?.getD (.empty current)
  let pools := pools.setIfInBounds current default
  let (a, pool) := f pool
  (a, ⟨pools.setIfInBounds current pool, current, handles, numbers, fresh⟩)

/-- Makes a node in the current pool. -/
def make (s : Session) (f : Pool → Handle × Pool) : Reply × Session :=
  let (h, s) := s.inPool f
  s.addNode h

/-- Makes a node in the current pool, unless it cannot be made. -/
def tryMake (s : Session) (f : Pool → Except BuildError Handle × Pool) : Reply × Session :=
  match s.inPool f with
  | (.ok h, s) => s.addNode h
  | (.error e, s) => (.buildError e, s)

/-- Puts one fresh node outside every pool above a node. -/
def makeOutside (s : Session) (l : Link) (h : Handle) : Reply × Session :=
  let tag := ⟨.outside, s.fresh⟩
  { s with fresh := s.fresh + 1 }.addNode (h.cons l tag)

/-- The session with another current pool. Missing pools are created empty. -/
def usePool (s : Session) (number : Nat) : Session :=
  let missing := (List.range' s.pools.size (number + 1 - s.pools.size)).map Pool.empty
  { s with pools := s.pools ++ missing.toArray, current := number }

/-- Goes on with a handle, if there is one with this number. -/
def withHandle (s : Session) (number : Nat) (f : Session → Handle → Reply × Session) :
    Reply × Session :=
  match s.handles[number]? with
  | some h => f s h
  | none => (.unknownHandle, s)

/-- Goes on with a value, if there is one. -/
def withValue {α : Type} (s : Session) (value : Except BuildError α)
    (f : Session → α → Reply × Session) : Reply × Session :=
  match value with
  | .ok a => f s a
  | .error e => (.buildError e, s)

/-! ### Requests -/

/-- The answer to a request. -/
def step (s : Session) : Request → Reply × Session
  | .outside d =>
    s.withValue d.build fun s t =>
      { s with fresh := s.fresh + t.depth + 1 }.addNode (.outside s.fresh t)
  | .outsidePointer n space slots =>
    s.withHandle n fun s h =>
      s.withValue (PointerAttrs.ofNumbers space slots) fun s a => s.makeOutside (.pointer a) h
  | .outsideRetaining n space byte =>
    s.withHandle n fun s h =>
      s.withValue (PointerAttrs.retain space byte) fun s a => s.makeOutside (.pointer a) h
  | .outsideVector n length =>
    s.withHandle n fun s h =>
      s.withValue (ArgType.checkVector length h.type) fun s _ => s.makeOutside (.vector length) h
  | .child n =>
    s.withHandle n fun s h =>
      match h.child? with
      | some h => s.addNode h
      | none => (.nothing, s)
  | .internType d => s.withValue d.build fun s t => s.make (·.internType t)
  | .intern n => s.withHandle n fun s h => s.make (·.intern h)
  | .canon n => s.withHandle n fun s h => s.make (·.canon h)
  | .builtin n => s.withValue (Builtin.ofNumber n) fun s b => s.make (·.builtin b)
  | .builtinNamed name =>
    match Builtin.all.find? fun b => b.name = name with
    | some b => s.make (·.builtin b)
    | none => (.nothing, s)
  | .pointer n => s.withHandle n fun s h => s.make (·.pointer .plain h)
  | .pointerWith n space slots =>
    s.withHandle n fun s h =>
      s.withValue (PointerAttrs.ofNumbers space slots) fun s a => s.make (·.pointer a h)
  | .pointerRetaining n space byte =>
    s.withHandle n fun s h =>
      s.withValue (PointerAttrs.retain space byte) fun s a => s.make (·.pointer a h)
  | .vector n length => s.withHandle n fun s h => s.tryMake (·.vector length h)
  | .named name => s.tryMake (·.named name)
  | .withSpace n space =>
    s.withHandle n fun s h =>
      s.withValue (AddressSpace.ofNumber space) fun s a => s.tryMake (·.withSpace h a)
  | .withQualifier n slot on =>
    s.withHandle n fun s h =>
      s.withValue (Qualifier.ofNumber slot) fun s q => s.tryMake (·.withQualifier h q on)
  | .find n =>
    s.withHandle n fun s h =>
      match s.pool.find? h with
      | some h => s.addNode h
      | none => (.nothing, s)
  | .contains n => s.withHandle n fun s h => (.flag (s.pool.contains h), s)
  | .owns n => s.withHandle n fun s h => (.flag (s.pool.owns h.tag), s)
  | .isEmpty => (.flag s.pool.isEmpty, s)
  | .same m n =>
    s.withHandle m fun s g => s.withHandle n fun s h => (.sameness (g.sameNode h) (g.equals h), s)
  | .types => (.types s.pool.types, s)
  | .debug => (.text s.pool.debug, s)
  | .usePool n => (.nothing, s.usePool n)
  | .encode name ns =>
    match ns.mapM fun n => s.handles[n]? with
    | none => (.unknownHandle, s)
    | some hs =>
      match KernelSymbol.encode ⟨name, hs⟩ with
      | .ok text => (.text text, s)
      | .error e => (.encodeError e, s)
  | .decode text =>
    match s.inPool (KernelSymbol.decode text) with
    | (.ok sig, s) =>
      let (nodes, s) := s.addAll sig.params
      (.signature ⟨sig.name, nodes⟩, s)
    | (.error e, s) => (.decodeError e, s)

/-- The answers to requests, each with the counters of the pool that is current then. -/
def run (s : Session) (requests : List Request) : List (Reply × Pool.Counts) := go s [] requests
where
  /-- Answers the rest; `done` holds, in reverse, the answers so far. -/
  go (s : Session) (done : List (Reply × Pool.Counts)) : List Request → List (Reply × Pool.Counts)
    | [] => done.reverse
    | request :: rest =>
      let (reply, s) := s.step request
      go s ((reply, s.pool.counts) :: done) rest

/-- The state after requests. -/
def after (s : Session) (requests : List Request) : Session :=
  requests.foldl (fun s request => (s.step request).2) s

/-- The states that a session can get into. -/
def Reachable (s : Session) : Prop := ∃ requests, s = start.after requests

theorem reachable_start : start.Reachable := ⟨[], rfl⟩

theorem Reachable.step {s : Session} (h : s.Reachable) (request : Request) :
    (s.step request).2.Reachable := by
  obtain ⟨requests, rfl⟩ := h
  exact ⟨requests ++ [request], by simp [after]⟩

end Session

end KernelSymbol
