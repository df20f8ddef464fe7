import KernelSymbol.Proofs.Faults
import KernelSymbol.Proofs.Unambiguous

/-!
# Symbols with more text behind them

When a symbol with parameters is followed by more text, nothing that was read of it is read in
another way. Several readers look ahead: a number goes on as long as there are digits, a `D` may
start a vector, a `P` may be followed by a reference or by attributes, and a `v` on its own stands
for no parameters. But each of them has made up its mind within the symbol, or else the symbol would
not have been accepted. So the decoder comes to the end of the symbol with the very parameters that
the symbol stands for, and what follows can only add parameters or turn out to be faulty.

A symbol without parameters is another matter: a `v` with more text behind it is no parameter list
any more.

## Main definitions

* `GoesOn`, `Prolongs` — what reading on owes to what was read, for parameters and for symbols

## Main results

* `Decoder.Valid.goesOn` — reading on from any point
* `TypesText.decodeParams_append`, `SymbolText.decode_append` — parameter lists and symbols with
  more text behind them
* `Session.Reachable.decode_extends` — what becomes of an accepted symbol
-/

namespace KernelSymbol

/-! ### Parameters -/

/-- Reading `more` behind certain parameters keeps them and adds others behind them, at least one if
there is something to read, or finds a fault in `more`. -/
def GoesOn (params : List Handle) (more : List Char) : Except Fault (List Handle) → Prop
  | .ok hs => params <+: hs ∧ (more ≠ [] → params.length < hs.length)
  | .error e => ∃ place, e.place? = some place ∧ place <:+ more

theorem TypesText.text_eq_nil {style : Style} {table table' : List (Component ArgType)}
    {cs : List Char} (h : TypesText style table cs [] table') : cs = [] := by
  cases h
  rfl

/-- Wherever a decoder has got to, it goes on from there. -/
theorem Decoder.Valid.goesOn {d : Decoder} (hd : d.Valid) (params : List Handle)
    (more : List Char) : GoesOn params.reverse more (d.readParams params more).1 := by
  have hA := hd.readParams params more
  rcases hr : d.readParams params more with ⟨e | hs, d'⟩
  · exact place_of_readParams hr
  · rw [hr] at hA
    obtain ⟨gs, ts, rfl, ht, hY⟩ := hA
    refine ⟨List.prefix_append .., fun hne => ?_⟩
    have hgs : gs ≠ [] := by
      rintro rfl
      obtain rfl := hY.types_eq
      exact hne ht.text_eq_nil
    have hpos := List.length_pos_iff.2 hgs
    rw [List.length_append]
    omega

section

variable {p : Pool} {cs : List Char} {ts : List ArgType} {table : List (Component ArgType)}

/-- A parameter list that is more than a `v` is decoded, and with more text behind it the decoder
comes to its end with the same parameters. -/
theorem TypesText.decodeParams_append (hp : p.Valid) (h : TypesText .lenient [] cs ts table)
    (hne : cs ≠ []) (hv : cs ≠ ['v']) :
    ∃ r : List Handle × Pool, decodeParams cs p = (.ok r.1, r.2) ∧ p.YieldsAll ts r ∧
      ∀ more, GoesOn r.1 more (decodeParams (cs ++ more) p).1 := by
  obtain ⟨⟨hs, d⟩, hr, hY, hd, -⟩ :=
    h.readParams_append (d := .start p) (Decoder.valid_start hp) []
  dsimp only at hr
  rw [List.append_nil] at hr
  refine ⟨(hs, d.pool), ?_, hY, fun more => ?_⟩
  · have hend := hr []
    rw [List.append_nil, Decoder.readParams_nil, List.reverse_reverse] at hend
    rw [decodeParams_of_ne p hv hne, hend]
  · -- a `v` on its own has no front but the empty text and itself
    have hv' : cs ++ more ≠ ['v'] := by
      intro he
      obtain ⟨rfl, -⟩ | ⟨rfl, -⟩ := List.append_eq_singleton_iff.1 he
      · exact hne rfl
      · exact hv rfl
    have hgo := hd.goesOn hs.reverse more
    rw [List.reverse_reverse] at hgo
    rwa [decodeParams_of_ne p hv' (by simp [hne]), hr]

end

/-! ### Symbols -/

/-- What decoding a text with `more` behind it owes, where the text stands for a signature. The name
is the same, and the parameters are the first ones, but not all of them if there is anything behind
the text. Otherwise there is a fault that has its place there, so it is none of those of a head. -/
def Prolongs {α : Type} (text more : String) (f : Signature α) :
    Except (DecodeError Nat) (Signature α) → Prop
  | .ok g => g.name = f.name ∧ f.params <+: g.params ∧
    (more ≠ "" → f.params.length < g.params.length)
  | .error e => e ≠ .missingPrefix ∧ e ≠ .emptyName ∧
    ∃ offset, e.place? = some offset ∧ text.utf8ByteSize ≤ offset

section

variable {α β : Type} {p : Pool} {text more name : String}

/-- What parameters are made of does not matter. -/
theorem Prolongs.map {f : Signature α} {r : Except (DecodeError Nat) (Signature α)}
    (h : Prolongs text more f r) (out : α → β) :
    Prolongs text more (f.map out) (r.map (Signature.map out)) := by
  cases r with
  | error e => exact h
  | ok g =>
    obtain ⟨hname, hparams, hlt⟩ := h
    refine ⟨hname, hparams.map out, fun hne => ?_⟩
    simpa [Signature.map] using hlt hne

/-- A place in what follows a text is no sooner than the end of the text. -/
theorem utf8ByteSize_le_of_suffix {place : List Char} (h : place <:+ more.toList) :
    text.utf8ByteSize ≤ (text ++ more).utf8ByteSize - byteCount place := by
  obtain ⟨front, hfront⟩ := h
  have hmore : byteCount front + byteCount place = more.utf8ByteSize := by
    rw [← byteCount_append, hfront, byteCount_toList]
  rw [String.utf8ByteSize_append]
  omega

/-- A parameter list that goes on makes a symbol that is prolonged. -/
theorem GoesOn.prolongs {hs : List Handle} {r : Except Fault (List Handle)}
    (h : GoesOn hs more.toList r) :
    Prolongs text more ⟨name, hs⟩ ((r.map (Signature.mk name)).mapError
      (DecodeError.map fun rest => (text ++ more).utf8ByteSize - byteCount rest)) := by
  cases r with
  | ok gs =>
    obtain ⟨hfirst, hlt⟩ := h
    exact ⟨rfl, hfirst, fun hne => hlt (mt String.toList_eq_nil_iff.1 hne)⟩
  | error e =>
    obtain ⟨place, hplace, hsuffix⟩ := h
    refine ⟨?_, ?_, _, ?_, utf8ByteSize_le_of_suffix hsuffix⟩
    · intro he
      cases e <;> cases he
      cases hplace
    · intro he
      cases e <;> cases he
      cases hplace
    · rw [DecodeError.place?_map, hplace, Option.map_some]

/-- A symbol with parameters is decoded, and so it is with more text behind it, up to where the text
is faulty. -/
theorem SymbolText.decode_append (hp : p.Valid) {ts : List ArgType}
    {table : List (Component ArgType)} (h : SymbolText .lenient text.toList name ts table)
    (hne : ts ≠ []) :
    ∃ r : List Handle × Pool, KernelSymbol.decode text p = (.ok ⟨name, r.1⟩, r.2) ∧
      p.YieldsAll ts r ∧
      ∀ more, Prolongs text more ⟨name, r.1⟩ (KernelSymbol.decode (text ++ more) p).1 := by
  generalize hcs : text.toList = cs at h
  obtain @⟨_, front, body, _, _, hn, hparams⟩ := h
  cases hparams with
  | none => exact absurd rfl hne
  | some ht hbody hv =>
    obtain ⟨r, hr, hY, hgo⟩ := ht.decodeParams_append hp hbody hv
    refine ⟨r, ?_, hY, fun more => ?_⟩
    · rw [decode_of_readHead (readHead_eq_ok_iff.2 ⟨front, hcs, hn⟩), hr]
      rfl
    · have hcs' : (text ++ more).toList = ['_', 'Z'] ++ front ++ (body ++ more.toList) := by
        rw [String.toList_append, hcs, List.append_assoc]
      rw [decode_of_readHead (readHead_eq_ok_iff.2 ⟨front, hcs', hn⟩)]
      exact (hgo more.toList).prolongs

end

namespace Session

variable {s : Session}

/-- A symbol with parameters that is followed by more text either is a symbol still, of a function
with the same name, the parameters of which start with those of the first symbol and go on if there
is any more text at all; or it is none, because of a fault that has its place behind the first
symbol and is about neither the prefix nor the name. The parameters are the very same nodes if both
texts are decoded in one pool or the longer one in a later state of it, and have the same types in
any pool. -/
theorem Reachable.decode_extends (hs : s.Reachable) {i : Nat} {p q : Pool}
    (hp : s.pools[i]? = some p) {text : String} {f : Signature Handle}
    (hd : KernelSymbol.decode text p = (.ok f, q)) (hne : f.params ≠ []) (more : String) :
    Prolongs text more f (KernelSymbol.decode (text ++ more) p).1 ∧
    ∀ p' : Pool, p'.Valid →
      (q.Extends p' → Prolongs text more f (KernelSymbol.decode (text ++ more) p').1) ∧
      Prolongs text more (f.map Handle.type)
        ((KernelSymbol.decode (text ++ more) p').1.map (Signature.map Handle.type)) := by
  have hv := (hs.valid.pool hp).1
  obtain ⟨table, ht, hY⟩ := symbolText_of_decode hv hd
  have hts : f.params.map Handle.type ≠ [] := mt List.map_eq_nil_iff.1 hne
  constructor
  · obtain ⟨r, hr, -, hmore⟩ := ht.decode_append hv hts
    have hf : f = ⟨f.name, r.1⟩ := by
      rw [hd] at hr
      exact Except.ok.inj (congrArg Prod.fst hr)
    have hprolongs := hmore more
    rwa [← hf] at hprolongs
  · intro p' hp'
    obtain ⟨r, -, hY', hmore⟩ := ht.decode_append hp' hts
    refine ⟨fun he => ?_, ?_⟩
    · -- what was yielded first is stored, so it is what is yielded now
      have hstored : ∀ h ∈ f.params, h ∈ p'.nodes := fun h hm => he.mem (hY.mem h hm)
      obtain ⟨hparams, -, -⟩ := hY'.of_stored hp' hstored rfl
      have hf := hmore more
      rwa [hparams] at hf
    · have htypes := (hmore more).map Handle.type
      rwa [Signature.map, hY'.types_eq] at htypes

/-- Text behind five parameters, in the pool and in the one that was left. -/
theorem decode_extends_mixedTree : ∃ (p : Pool) (f : Signature Handle) (q : Pool),
    start.pools[0]? = some p ∧
      KernelSymbol.decode "_Z3mixDv04_f01aPS_PU3AS1KiPS2_" p = (.ok f, q) ∧
      f.params.length = 5 ∧
      Prolongs "_Z3mixDv04_f01aPS_PU3AS1KiPS2_" "S_?" f
        (KernelSymbol.decode ("_Z3mixDv04_f01aPS_PU3AS1KiPS2_" ++ "S_?") p).1 ∧
      Prolongs "_Z3mixDv04_f01aPS_PU3AS1KiPS2_" "S_?" f
        (KernelSymbol.decode ("_Z3mixDv04_f01aPS_PU3AS1KiPS2_" ++ "S_?") q).1 := by
  obtain ⟨p, hp⟩ : ∃ p, start.pools[0]? = some p := ⟨_, rfl⟩
  obtain ⟨r, hr, hY⟩ := (derives_mixedTree.symbolText counted_mixedTree).decode
    (reachable_start.valid.pool hp).1
  have hlength : r.1.length = 5 := by
    have htypes := congrArg List.length hY.types_eq
    rwa [List.length_map] at htypes
  have hne : r.1 ≠ [] := by
    intro hnil
    rw [hnil] at hlength
    cases hlength
  obtain ⟨hsame, hlater⟩ := reachable_start.decode_extends hp hr hne "S_?"
  exact ⟨p, _, r.2, hp, hr, hlength, hsame, (hlater r.2 hY.valid).1 (.refl r.2)⟩

end Session

end KernelSymbol
