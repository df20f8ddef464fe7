import KernelSymbol.Proofs.Session
import KernelSymbol.Proofs.Transcript

/-!
# Symbols and signatures

A signature can be read back from its symbol if the grammar can tell its names from their lengths
and from the builtins, if its sets of qualifiers have no bits that belong to no qualifier, and if
its parameter list is not the pseudo type `void`. All signatures that are decoded are of this kind,
although a decoder accepts more texts than an encoder writes. So a symbol that was decoded can be
encoded again, and the new symbol, which may be shorter, stands for the same signature and is its
own encoding.

Encoders and decoders number components independently. An encoder counts a component once, whereas
a decoder counts it each time that it is spelled out. The grammar is where the two meet: what an
encoder writes is a strict spelling, every strict spelling is a lenient one, and a decoder reads
just the lenient spellings.

## Main definitions

* `Signature.Readable` — a signature that can be read back from its symbol

## Main results

* `Signature.Readable.decode` — reading back what was written
* `SymbolText.readable`, `SymbolText.length_table_le` — what has any spelling has a strict one, and
  no larger table
* `Session.Reachable.decode_encode` — a decoder undoes an encoder
* `Session.Reachable.encode_decode` — an encoder brings a symbol into its normal form
-/

namespace KernelSymbol

/-! ### Signatures that can be read back -/

/-- A signature that can be read back from its symbol. -/
structure Signature.Readable (f : Signature ArgType) : Prop where
  name_ne_empty : f.name ≠ ""
  not_digit : ¬StartsWithDigit f.name
  name_lt : f.name.utf8ByteSize < numberBound
  wellFormed : ∀ t ∈ f.params, t.WellFormed
  legible : ∀ t ∈ f.params, t.Legible
  known : ∀ t ∈ f.params, t.Known
  nameBelow : ∀ t ∈ f.params, t.NameBelow numberBound
  ne_void : f.params ≠ [.builtin .void]

section

variable {f : Signature ArgType} {p : Pool}

/-- What is written for a signature is decoded to it, unless the table is too large. -/
theorem Signature.Readable.decode (hf : f.Readable) (hp : p.Valid)
    (hs : (Transcript.signature f).table.length ≤ numberBound) :
    ∃ r : List Handle × Pool,
      KernelSymbol.decode (Transcript.signature f).text p = (.ok ⟨f.name, r.1⟩, r.2) ∧
        p.YieldsAll f.params r := by
  have ht := Transcript.symbolText hf.name_ne_empty hf.not_digit hf.name_lt hf.wellFormed
    hf.legible hf.known hf.nameBelow hf.ne_void hs
  exact ht.lenient.decode hp

variable {style : Style} {cs : List Char} {name : String} {ts : List ArgType}
  {table : List (Component ArgType)}

/-- A signature that is spelled in any way can be read back from its symbol. -/
theorem SymbolText.readable (h : SymbolText style cs name ts table) :
    Signature.Readable ⟨name, ts⟩ := by
  obtain ⟨ds, hn⟩ := h.nameText
  obtain ⟨es, ht, -⟩ := h.typesText
  exact ⟨hn.ne_empty, hn.not_startsWithDigit, hn.size_lt, ht.wellFormed, ht.legible, ht.known,
    ht.nameBelow, h.ne_void⟩

/-- No spelling of a signature has fewer components than its symbol. -/
theorem SymbolText.length_table_le (h : SymbolText style cs name ts table) :
    (Transcript.signature ⟨name, ts⟩).table.length ≤ table.length := by
  obtain ⟨es, ht, -⟩ := h.typesText
  -- the symbol has each component once, and the spelling has all of them
  refine (Transcript.nodup_signature ⟨name, ts⟩).length_le_of_subset fun c hc => ?_
  obtain ⟨t, hm, hc⟩ := Transcript.mem_table_signature hc
  exact ht.components_subset closedTable_nil t hm hc

end

namespace Session

variable {s : Session}

/-- A decoder undoes an encoder. Of handles from anywhere, a signature whose names can be told from
their lengths and from the builtins, and whose parameter list is not the pseudo type `void`, has a
symbol. If no set of qualifiers in it has a bit that belongs to no qualifier, then every pool
decodes the symbol to an equal signature, and if the pool owns the parameters, then the decoded
signature has the same nodes, and nothing is stored or missed. Otherwise no pool decodes the symbol
to an equal signature. -/
theorem Reachable.decode_encode (hs : s.Reachable) {i : Nat} {p : Pool}
    (hp : s.pools[i]? = some p) {f : Signature Handle} (hf : ∀ h ∈ f.params, h ∈ s.handles)
    (hne : f.name ≠ "") (hd : ¬StartsWithDigit f.name) (hsize : f.name.utf8ByteSize < textBound)
    (hnames : ∀ h ∈ f.params, ∀ name, h.type.leaf = .named name →
      ¬StartsWithDigit name ∧ name ∉ opaqueNames ∧ name.utf8ByteSize < textBound)
    (hv : f.params.map Handle.type ≠ [.builtin .void]) :
    ∃ text, encode f = .ok text ∧ (text.utf8ByteSize < textBound →
      ((∀ h ∈ f.params, h.type.Known) →
        ∃ g q, KernelSymbol.decode text p = (.ok g, q) ∧ g.name = f.name ∧
          g.params.map Handle.type = f.params.map Handle.type ∧
          (∀ (n : Nat) (h k : Handle), f.params[n]? = some h → g.params[n]? = some k →
            h.equals k = true) ∧
          ((∀ h ∈ f.params, p.owns h.tag = true) →
            g = f ∧ q.nodes = p.nodes ∧ q.misses = p.misses)) ∧
      ((¬∀ h ∈ f.params, h.type.Known) →
        ∀ g q, KernelSymbol.decode text p = (.ok g, q) →
          g.params.map Handle.type ≠ f.params.map Handle.type)) := by
  have hsv := hs.valid
  have hpv := (hsv.pool hp).1
  have hbound : textBound ≤ numberBound := by decide
  refine ⟨_, encode_eq_transcript hne fun h hm => hsv.foreign (hf h hm), fun htext =>
    ⟨fun hk => ?known, fun hk g q hg htypes => hk ?spare⟩⟩
  case spare =>
    -- whatever is decoded has no such bits
    obtain ⟨table, ht, -⟩ := symbolText_of_decode hpv hg
    exact List.forall_mem_map.1 (htypes ▸ ht.readable.known)
  have hr : (f.map Handle.type).Readable := by
    refine ⟨hne, hd, Nat.lt_of_lt_of_le hsize hbound, ?_, ?_, ?_, ?_, hv⟩ <;>
      rw [Signature.map, List.forall_mem_map]
    · exact fun h hm => hsv.wellFormed h (hf h hm)
    · refine fun h hm => ⟨fun hl => (hnames h hm _ hl).1, fun hl => ?_⟩
      exact Builtin.spelling_ne_source_iff.2 (hnames h hm _ hl).2.1
    · exact hk
    · exact fun h hm name hl => Nat.lt_of_lt_of_le (hnames h hm name hl).2.2 hbound
  have hlen : (Transcript.signature (f.map Handle.type)).table.length ≤ numberBound := by
    have h₁ := Transcript.length_table_signature (f.map Handle.type)
    have h₂ := length_le_utf8ByteSize (Transcript.signature (f.map Handle.type)).text
    have h₃ : 2 * textBound = numberBound := by decide
    omega
  obtain ⟨r, hdec, hY⟩ := hr.decode hpv hlen
  have htypes : r.1.map Handle.type = f.params.map Handle.type := hY.types_eq
  refine ⟨_, r.2, hdec, rfl, htypes, fun n h k hh hk => ?_, fun hown => ?_⟩
  · have hhm := hf h (List.mem_of_getElem? hh)
    have hkm := hY.mem k (List.mem_of_getElem? hk)
    have ht := congrArg (fun ts => ts[n]?) htypes
    simp only [List.getElem?_map, hk, hh, Option.map_some, Option.some.injEq] at ht
    exact (hsv.equals_stored_iff hp hY.valid hY.grows hhm hkm).2 ht.symm
  · have hstored : ∀ h ∈ f.params, h ∈ p.nodes := fun h hm =>
      (hsv.knows hp (hf h hm)).mem (hown h hm)
    obtain ⟨hparams, hn, hmiss⟩ := hY.of_stored hpv hstored rfl
    exact ⟨Signature.ext rfl hparams, hn, hmiss⟩

/-- A pointer to a named type, built outside every pool. -/
def namedPointer : Session := start.after [.outside ⟨.named "point", [.pointers 1 [] 1]⟩]

/-- Two equal parameters, of which the second is a reference to the first. -/
theorem decode_encode_namedPointer : ∃ (h : Handle) (p : Pool) (g : Signature Handle) (q : Pool),
    namedPointer.handles[0]? = some h ∧ namedPointer.pools[0]? = some p ∧
      encode ⟨"move", [h, h]⟩ = .ok "_Z4movePU3AS15pointS1_" ∧
      KernelSymbol.decode "_Z4movePU3AS15pointS1_" p = (.ok g, q) ∧ g.name = "move" ∧
      g.params.map Handle.type = [h.type, h.type] := by
  obtain ⟨h, hh⟩ : ∃ h, namedPointer.handles[0]? = some h := ⟨_, rfl⟩
  obtain ⟨p, hp⟩ : ∃ p, namedPointer.pools[0]? = some p := ⟨_, rfl⟩
  have hs : namedPointer.Reachable := ⟨_, rfl⟩
  have htype : h.type = ⟨[.pointer ⟨.globalSpace, .empty⟩], .named "point"⟩ := by
    cases hh
    rfl
  have hf : ∀ k ∈ [h, h], k ∈ namedPointer.handles := by simp [Array.mem_of_getElem? hh]
  have hne : "move" ≠ "" := by decide
  have hd : ¬StartsWithDigit "move" := by decide
  have hsize : "move".utf8ByteSize < textBound := by decide
  have hnames : ∀ k ∈ [h, h], ∀ name, k.type.leaf = .named name →
      ¬StartsWithDigit name ∧ name ∉ opaqueNames ∧ name.utf8ByteSize < textBound := by
    intro k hk name hl
    obtain rfl : k = h := by simpa using hk
    rw [htype] at hl
    cases hl
    decide
  have hv : [h, h].map Handle.type ≠ [.builtin .void] := by simp
  have htext : encode ⟨"move", [h, h]⟩ = .ok "_Z4movePU3AS15pointS1_" := by
    rw [encode_eq_transcript hne fun k hk => hs.valid.foreign (hf k hk)]
    simp only [Signature.map, List.map_cons, List.map_nil, htype]
    refine congrArg Except.ok ?_
    decide +kernel
  obtain ⟨text, henc, hdec⟩ :=
    hs.decode_encode (f := ⟨"move", [h, h]⟩) hp hf hne hd hsize hnames hv
  obtain rfl : "_Z4movePU3AS15pointS1_" = text := by
    rw [htext] at henc
    exact Except.ok.inj henc
  have hk : ∀ k ∈ [h, h], k.type.Known := by
    simp only [List.forall_mem_cons, htype]
    decide
  obtain ⟨g, q, hg, hname, htypes, -⟩ := (hdec (by decide)).1 hk
  exact ⟨h, p, g, q, hh, hp, htext, hg, hname, htypes⟩

/-- A named type, and a pointer to it with a bit that belongs to no qualifier, built outside every
pool. -/
def sparePointer : Session :=
  start.after [.outside ⟨.named "point", []⟩, .outsideRetaining 0 0 8]

theorem exists_sparePointer : ∃ (g h : Handle) (p : Pool), sparePointer.handles[0]? = some g ∧
    sparePointer.handles[1]? = some h ∧ sparePointer.pools[0]? = some p ∧
    g.type = ⟨[], .named "point"⟩ ∧
    h.type = ⟨[.pointer ⟨.privateSpace, ⟨8⟩⟩], .named "point"⟩ :=
  ⟨_, _, _, rfl, rfl, rfl, rfl, rfl⟩

/-- Such a bit is not written, and so the pointer is read back as a plain one. -/
theorem decode_encode_sparePointer : ∃ (h : Handle) (p : Pool) (g : Signature Handle) (q : Pool),
    h ∈ sparePointer.handles ∧ sparePointer.pools[0]? = some p ∧
      h.type.links = [.pointer ⟨.privateSpace, ⟨8⟩⟩] ∧ h.type.leaf = .named "point" ∧
      encode ⟨"f", [h]⟩ = .ok "_Z1fP5point" ∧
      KernelSymbol.decode "_Z1fP5point" p = (.ok g, q) ∧
      g.params.map Handle.type = [⟨[.pointer .plain], .named "point"⟩] ∧
      g.params.map Handle.type ≠ [h.type] := by
  obtain ⟨-, h, p, -, hh, hp, -, ht⟩ := exists_sparePointer
  have hv := Reachable.valid (s := sparePointer) ⟨_, rfl⟩
  have hm : h ∈ sparePointer.handles := Array.mem_of_getElem? hh
  have htext : encode ⟨"f", [h]⟩ = .ok "_Z1fP5point" := by
    have hf : ∀ k ∈ [h], k ∈ sparePointer.handles := List.forall_mem_singleton.2 hm
    have hne : "f" ≠ "" := by decide
    rw [encode_eq_transcript hne fun k hk => hv.foreign (hf k hk)]
    simp only [Signature.map, List.map_cons, List.map_nil, ht]
    refine congrArg Except.ok ?_
    decide +kernel
  -- the plain pointer has the same symbol, and can be read back
  let f : Signature ArgType := ⟨"f", [⟨[.pointer .plain], .named "point"⟩]⟩
  have hf : f.Readable := by
    refine ⟨by decide, by decide, by decide, ?_, ?_, ?_, ?_, by decide⟩ <;>
      rw [List.forall_mem_singleton]
    · exact .pointer .plain (.named (by decide))
    · refine ⟨fun hl => ?_, fun hl => ?_⟩ <;> cases hl
      · decide
      · exact Builtin.spelling_ne_source_iff.2 (by decide)
    · decide
    · intro name hl
      cases hl
      decide
  have hft : (Transcript.signature f).text = "_Z1fP5point" := by decide +kernel
  obtain ⟨r, hr, hY⟩ := hf.decode (hv.pool hp).1 (by decide +kernel)
  rw [hft] at hr
  exact ⟨h, p, _, r.2, hm, hp, by rw [ht], by rw [ht], htext, hr, hY.types_eq, by
    rw [hY.types_eq, ht]
    decide⟩

/-- An encoder brings a symbol into its normal form. Whatever a pool decodes, the names in it can be
told from their lengths and from the builtins, and its parameter list is not the pseudo type
`void`. It has a symbol, which the pool decodes to the same nodes without storing or missing
anything, and which is the symbol of what it is decoded to. -/
theorem Reachable.encode_decode (hs : s.Reachable) {i : Nat} {p q : Pool}
    (hp : s.pools[i]? = some p) {text : String} {f : Signature Handle}
    (h : KernelSymbol.decode text p = (.ok f, q)) (hsize : text.utf8ByteSize < textBound) :
    (f.name ≠ "" ∧ ¬StartsWithDigit f.name) ∧
    (∀ h ∈ f.params, ∀ name, h.type.leaf = .named name →
      name ≠ "" ∧ ¬StartsWithDigit name ∧ name ∉ opaqueNames) ∧
    f.params.map Handle.type ≠ [.builtin .void] ∧
    ∃ text', encode f = .ok text' ∧ ∃ g q', KernelSymbol.decode text' q = (.ok g, q') ∧ g = f ∧
      q'.nodes = q.nodes ∧ q'.misses = q.misses ∧ encode g = .ok text' := by
  have hsv := hs.valid
  obtain ⟨table, ht, hY⟩ := symbolText_of_decode (hsv.pool hp).1 h
  have hr : (f.map Handle.type).Readable := ht.readable
  have henc := encode_eq_transcript hr.name_ne_empty fun g hg =>
    hsv.foreign_of_stored hp hY.valid hY.grows (hY.mem g hg)
  have hlen : (Transcript.signature (f.map Handle.type)).table.length ≤ numberBound := by
    have hbound : textBound ≤ numberBound := by decide
    have h₁ : (Transcript.signature (f.map Handle.type)).table.length ≤ table.length :=
      ht.length_table_le
    have h₂ := ht.length_table
    have h₃ := length_le_utf8ByteSize text
    rw [String.length_toList] at h₂
    omega
  obtain ⟨r, hdec, hY'⟩ := hr.decode hY.valid hlen
  obtain ⟨hparams, hn, hmiss⟩ := hY'.of_stored hY.valid hY.mem rfl
  have hf : ⟨(f.map Handle.type).name, r.1⟩ = f := Signature.ext rfl hparams
  rw [hf] at hdec
  refine ⟨⟨hr.name_ne_empty, hr.not_digit⟩, fun g hg name hl => ?_, hr.ne_void, _, henc, f, r.2,
    hdec, rfl, hn, hmiss, henc⟩
  have hm : g.type ∈ (f.map Handle.type).params := List.mem_map_of_mem hg
  refine ⟨(hr.wellFormed _ hm).name_ne_empty hl, (hr.legible _ hm).not_digit hl, ?_⟩
  exact Builtin.spelling_ne_source_iff.1 ((hr.legible _ hm).not_builtin hl)

/-- A symbol with a zero in front of a length and the private space spelled out. -/
theorem symbolText_padded : SymbolText .lenient "_Z01fPU3AS0i".toList "f"
    [.pointer .plain (.builtin .int)]
    [.qualified .plain (.builtin .int), .whole (.pointer .plain (.builtin .int))] := by
  have hn : NameText .lenient "f" ['0', '1', 'f'] :=
    ⟨'f', [], ['0', '1'], rfl, rfl, ⟨by decide, by decide, List.all_eq_true.1 rfl, rfl⟩, rfl⟩
  have hzero : Radix.ten.digits AddressSpace.privateSpace.number = ['0'] := by
    rw [Radix.digits]
    rfl
  have hs : SpaceText .lenient (some .privateSpace)
      (['U', '3', 'A', 'S'] ++ Radix.ten.digits AddressSpace.privateSpace.number) :=
    .spelled .privateSpace fun h => absurd h (by decide)
  rw [hzero] at hs
  have ha : AttrsText .lenient .plain true ['U', '3', 'A', 'S', '0'] :=
    .mk hs QualifierSet.known_empty
  have ht : TypeText .lenient [] ['P', 'U', '3', 'A', 'S', '0', 'i']
      (.pointer .plain (.builtin .int))
      [.qualified .plain (.builtin .int), .whole (.pointer .plain (.builtin .int))] :=
    .pointer ha (fun h => absurd h (by decide)) (.letter rfl)
  exact .mk hn (.some (.cons ht .nil) (by decide) (by decide))

/-- The normal form of that symbol has neither. -/
theorem encode_decode_padded : ∃ (p q q' : Pool) (f : Signature Handle),
    start.pools[0]? = some p ∧ KernelSymbol.decode "_Z01fPU3AS0i" p = (.ok f, q) ∧
      encode f = .ok "_Z1fPi" ∧ KernelSymbol.decode "_Z1fPi" q = (.ok f, q') ∧
      q'.nodes = q.nodes := by
  obtain ⟨p, hp⟩ : ∃ p, start.pools[0]? = some p := ⟨_, rfl⟩
  obtain ⟨r, hdec, hY⟩ := symbolText_padded.decode (valid_start.pool hp).1
  obtain ⟨⟨hne, -⟩, -, -, text', henc, g, q', hg, rfl, hn, -⟩ :=
    reachable_start.encode_decode hp hdec (by decide)
  have htext : encode ⟨"f", r.1⟩ = .ok "_Z1fPi" := by
    rw [encode_eq_transcript hne fun h hm =>
      valid_start.foreign_of_stored hp hY.valid hY.grows (hY.mem h hm)]
    simp only [Signature.map, hY.types_eq]
    refine congrArg Except.ok ?_
    decide +kernel
  obtain rfl : "_Z1fPi" = text' := by
    rw [htext] at henc
    exact Except.ok.inj henc
  exact ⟨p, r.2, q', _, hp, hdec, htext, hg, hn⟩

end Session

end KernelSymbol
