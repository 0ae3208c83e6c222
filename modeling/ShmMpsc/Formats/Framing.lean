import Mathlib.Data.List.Flatten
import ShmMpsc.Proto.Codecs
import ShmMpsc.Formats.CapnpLimit

/-!
# Framing

What the formats add to the payload of an event: never less than nothing, and never more than a
number of bytes that only the length of the source raises.
-/

namespace ShmMpsc

set_option autoImplicit false

/-- The most that a record has beyond its payload. -/
def framing (source : String) : Nat := 160 + (utf8 source).length

/-- The length of a record with this source and payload. -/
def Framed (source : String) (payload record : List UInt8) : Prop :=
  payload.length ≤ record.length ∧ record.length ≤ payload.length + framing source

/-- The records of an event are framed; in JSON where nothing is escaped, in Cap'n Proto with room
for one segment. -/
structure Libraries.Compact (libs : Libraries) : Prop where
  serdeJson : ∀ ev : EventOut, Plain ev.source → Plain ev.payload →
    Framed ev.source (utf8 ev.payload) (libs.serdeJson.toWriter ev.serialize)
  ciborium : ∀ ev : Cbor.EventOut,
    Framed ev.source ev.payload (libs.ciborium.intoWriter ev.serialize)
  prost : ∀ ev, Framed ev.source ev.payload (libs.prost.encode ev)
  flatbuffers : ∀ b seq ts source kind payload, Framed source payload
    (libs.flatbuffers.finish (libs.flatbuffers.reset b) [.string source, .vector payload]
      (flatFields seq ts kind)).2
  apacheAvro : ∀ seq ts source kind payload bytes,
    libs.apacheAvro.toAvroDatum eventSchema (avroEvent seq ts source kind payload) = .ok bytes →
    Framed source payload bytes
  capnp : ∀ scratch ev, ev.payload.length + framing ev.source ≤ scratch.length →
    Framed ev.source ev.payload (libs.capnp.writeMessage scratch ev).1

/-! ### JSON -/

/-- The bytes of a text. -/
def bytesOf (cs : List Char) : Nat := (cs.flatMap String.utf8EncodeChar).length

theorem utf8_ofList_length (cs : List Char) : (utf8 (.ofList cs)).length = bytesOf cs := by
  rw [utf8_eq_flatMap, String.toList_ofList, bytesOf]

@[simp] theorem bytesOf_append (cs ds : List Char) :
    bytesOf (cs ++ ds) = bytesOf cs + bytesOf ds := by
  simp [bytesOf]

theorem bytesOf_cons (c : Char) (cs : List Char) : bytesOf (c :: cs) = bytesOf [c] + bytesOf cs :=
  bytesOf_append [c] cs

theorem bytesOf_ascii {cs : List Char} (h : ∀ c ∈ cs, c.toNat < 128) : bytesOf cs = cs.length := by
  induction cs with
  | nil => rfl
  | cons c cs ih =>
    have hc : c.toNat < 128 := h c (List.mem_cons_self ..)
    have hval : c.val ≤ 127 := by
      rw [UInt32.le_iff_toNat_le]
      exact Nat.le_of_lt_succ hc
    have hsize : bytesOf [c] = 1 := by
      simp [bytesOf, String.length_utf8EncodeChar, Char.utf8Size_eq_one_iff.mpr hval]
    rw [bytesOf_cons, hsize, ih fun d hd => h d (List.mem_cons_of_mem _ hd), List.length_cons]
    omega

theorem bytesOf_number (n : UInt64) : bytesOf (Number.ofU64 n).print ≤ 20 := by
  have hn : n.toNat < 10 ^ 20 := Nat.lt_trans n.toNat_lt (by decide)
  have hpos : ¬ (Number.ofU64 n).val < 0 := by
    show ¬ (n.toNat : Int) < 0
    omega
  rw [Number.print, if_neg hpos, bytesOf_ascii]
  · exact Nat.toDigits_length 10 n.toNat 20 (by decide) hn
  · intro c hc
    have hdigit : c.isDigit = true := Nat.isDigit_of_mem_toDigits (by decide) (by decide) hc
    have hrange : 48 ≤ c.toNat ∧ c.toNat ≤ 57 := by
      simpa [Char.isDigit, UInt32.le_iff_toNat_le] using hdigit
    omega

theorem escape_of_plain {c : Char} (h : mustEscape c = false) : escape c = [c] := by
  simp only [mustEscape, Bool.or_eq_false_iff, decide_eq_false_iff_not] at h
  obtain ⟨⟨hquote, hslash⟩, hlow⟩ := h
  have hnone : shortEscape c = none := by
    unfold shortEscape
    split <;>
      first
      | rfl
      | exact absurd rfl hquote
      | exact absurd rfl hslash
      | exact absurd (by decide) hlow
  rw [escape, hnone]
  exact if_neg hlow

/-- Without escapes a literal is its text between quotes. -/
theorem bytesOf_quote {s : String} (h : Plain s) : bytesOf (quote s) = (utf8 s).length + 2 := by
  have hflat : s.toList.flatMap escape = s.toList := by
    have hall : ∀ cs : List Char, (∀ c ∈ cs, mustEscape c = false) → cs.flatMap escape = cs := by
      intro cs hcs
      induction cs with
      | nil => rfl
      | cons c cs ih =>
        rw [List.flatMap_cons, escape_of_plain (hcs c (List.mem_cons_self ..)),
          ih fun d hd => hcs d (List.mem_cons_of_mem _ hd)]
        rfl
    exact hall s.toList h
  have hends : bytesOf ['"'] = 1 := by decide
  rw [quote, hflat, bytesOf_cons, bytesOf_append, hends, utf8_eq_flatMap, bytesOf]
  omega

theorem bytesOf_printFields (fields : List (String × Json String Empty)) :
    bytesOf (Json.printFields fields) =
      (fields.map fun field => bytesOf (quote field.1) + bytesOf field.2.print + 2).sum + 1 := by
  have hone : bytesOf [','] = 1 ∧ bytesOf [':'] = 1 := by decide
  induction fields with
  | nil => decide
  | cons field fields ih =>
    rw [Json.printFields, bytesOf_cons, bytesOf_append, bytesOf_cons ':', bytesOf_append, ih,
      List.map_cons, List.sum_cons]
    omega

theorem bytesOf_obj {fields : List (String × Json String Empty)} (hne : fields ≠ []) :
    bytesOf (Json.obj fields).print = bytesOf (Json.printFields fields) := by
  have hone : bytesOf ['{'] = bytesOf [','] := by decide
  cases fields with
  | nil => exact absurd rfl hne
  | cons field fields => rw [Json.print, Json.printFields, bytesOf_cons, hone, ← bytesOf_cons]

theorem compactJson_framed (ev : EventOut) (hsource : Plain ev.source)
    (hpayload : Plain ev.payload) :
    Framed ev.source (utf8 ev.payload) (compactJson.toWriter ev.serialize) := by
  have hseq := bytesOf_number ev.seq
  have hts := bytesOf_number ev.timestamp
  have hkind : bytesOf (quote ev.kind.name) ≤ 8 := by
    cases ev.kind <;> decide
  have hnames : bytesOf (quote "seq") = 5 ∧ bytesOf (quote "timestamp") = 11 ∧
      bytesOf (quote "source") = 8 ∧ bytesOf (quote "kind") = 6 ∧
        bytesOf (quote "payload") = 9 := by
    decide
  have hlen : (compactJson.toWriter ev.serialize).length =
      bytesOf (Number.ofU64 ev.seq).print + bytesOf (Number.ofU64 ev.timestamp).print +
        bytesOf (quote ev.kind.name) + (utf8 ev.source).length + (utf8 ev.payload).length + 54 := by
    obtain ⟨h1, h2, h3, h4, h5⟩ := hnames
    rw [compactJson, utf8_ofList_length, EventOut.serialize, bytesOf_obj (List.cons_ne_nil _ _),
      bytesOf_printFields]
    simp only [List.map_cons, List.map_nil, List.sum_cons, List.sum_nil, Json.print, h1,
      h2, h3, h4, h5, bytesOf_quote hsource, bytesOf_quote hpayload]
    omega
  unfold Framed framing
  omega

/-! ### CBOR, Protocol Buffers and Avro -/

theorem Cbor.writeHead_length (major n : Nat) : (Cbor.writeHead major n).length ≤ 9 := by
  unfold Cbor.writeHead
  split
  · simp
  · split
    · simp [Reader.toBE]
    · split
      · simp [Reader.toBE]
      · split <;> simp [Reader.toBE]

theorem cborBytes_framed (ev : Cbor.EventOut) :
    Framed ev.source ev.payload (cborBytes.intoWriter ev.serialize) := by
  have htext (s : String) : (Cbor.writeText s).length ≤ 9 + (utf8 s).length := by
    have hhead := Cbor.writeHead_length 3 (utf8 s).length
    rw [Cbor.writeText, List.length_append]
    omega
  have hnames : (utf8 "seq").length = 3 ∧ (utf8 "timestamp").length = 9 ∧
      (utf8 "source").length = 6 ∧
      (utf8 "kind").length = 4 ∧ (utf8 "payload").length = 7 := by
    decide
  have hkind : (utf8 ev.kind.name).length ≤ 6 := by
    cases ev.kind <;> decide
  have h1 := htext "seq"
  have h2 := htext "timestamp"
  have h3 := htext "source"
  have h4 := htext "kind"
  have h5 := htext "payload"
  have h6 := htext ev.source
  have h7 := htext ev.kind.name
  have h8 := Cbor.writeHead_length 5 ev.serialize.length
  have h9 := Cbor.writeHead_length 0 ev.seq.toNat
  have h10 := Cbor.writeHead_length 0 ev.timestamp.toNat
  have h11 := Cbor.writeHead_length 2 ev.payload.length
  have hlen : (cborBytes.intoWriter ev.serialize).length =
      (Cbor.writeHead 5 ev.serialize.length).length +
      ((Cbor.writeText "seq").length + (Cbor.writeHead 0 ev.seq.toNat).length +
      ((Cbor.writeText "timestamp").length + (Cbor.writeHead 0 ev.timestamp.toNat).length +
      ((Cbor.writeText "source").length + (Cbor.writeText ev.source).length +
      ((Cbor.writeText "kind").length + (Cbor.writeText ev.kind.name).length +
      ((Cbor.writeText "payload").length + ((Cbor.writeHead 2 ev.payload.length).length +
        ev.payload.length)))))) := by
    simp [cborBytes, Cbor.write, Cbor.EventOut.serialize, Cbor.writeEntry, Cbor.writeField,
      Nat.add_assoc]
  unfold Framed framing
  omega

theorem toVarint_length (k n : Nat) : (Reader.toVarint k n).length ≤ k := by
  induction k generalizing n with
  | zero => exact Nat.le_refl _
  | succ k ih =>
    rw [Reader.toVarint]
    split
    · simp
    · have hrest := ih (n / 128)
      rw [List.length_cons]
      omega

theorem protobuf_framed (ev : PbEvent) : Framed ev.source ev.payload (protobuf.encode ev) := by
  have hvarint (n : Nat) : (Reader.toVarint 10 n).length ≤ 10 := toVarint_length 10 n
  have hnumber (k : Nat) (n : UInt64) : (Protobuf.writeField (k, .varint n)).length ≤ 20 := by
    have h1 := hvarint (8 * k)
    have h2 := hvarint n.toNat
    simp only [Protobuf.writeField, List.length_append]
    omega
  have hbytes (k : Nat) (bs : List UInt8) : bs.length ≤
      (Protobuf.writeField (k, .bytes bs)).length ∧
      (Protobuf.writeField (k, .bytes bs)).length ≤ 20 + bs.length := by
    have h1 := hvarint (8 * k + 2)
    have h2 := hvarint bs.length
    simp only [Protobuf.writeField, List.length_append]
    omega
  constructor
  · by_cases hnil : ev.payload = []
    · simp [hnil]
    · have hmem : (5, .bytes ev.payload) ∈
          (Protobuf.fieldsOf ev).filter fun field => !field.2.isDefault := by
        simp [Protobuf.fieldsOf, Protobuf.WireValue.isDefault, hnil]
      exact (hbytes 5 ev.payload).1.trans (Reader.length_le_flatMap hmem)
  · have hall : (protobuf.encode ev).length ≤
        ((Protobuf.fieldsOf ev).flatMap Protobuf.writeField).length :=
      (List.filter_sublist.flatMap Protobuf.writeField).length_le
    have h1 := hnumber 1 ev.seq
    have h2 := hnumber 2 ev.timestamp
    have h3 := (hbytes 3 (utf8 ev.source)).2
    have h4 := hnumber 4 ev.kind.toInt64.toUInt64
    have h5 := (hbytes 5 ev.payload).2
    have hsum : ((Protobuf.fieldsOf ev).flatMap Protobuf.writeField).length =
        (Protobuf.writeField (1, .varint ev.seq)).length +
        ((Protobuf.writeField (2, .varint ev.timestamp)).length +
        ((Protobuf.writeField (3, .bytes (utf8 ev.source))).length +
        ((Protobuf.writeField (4, .varint ev.kind.toInt64.toUInt64)).length +
          (Protobuf.writeField (5, .bytes ev.payload)).length))) := by
      simp [Protobuf.fieldsOf]
    unfold framing
    omega

theorem avroBinary_framed (seq ts : UInt64) (source : String) (kind : Kind)
    (payload bytes : List UInt8)
    (h : avroBinary.toAvroDatum eventSchema (avroEvent seq ts source kind payload) = .ok bytes) :
    Framed source payload bytes := by
  obtain rfl : Avro.write (avroEvent seq ts source kind payload) = bytes := by
    have haccepts := accepts_avroEvent seq ts source kind payload
    simp only [avroBinary, haccepts, if_true] at h
    exact Except.ok.inj h
  have hlong (n : Int) : (Avro.writeLong n).length ≤ 10 := toVarint_length 10 _
  have h1 := hlong seq.toInt64.toInt
  have h2 := hlong ts.toInt64.toInt
  have h3 := hlong (utf8 source).length
  have h4 := hlong (kindToIdx kind).toUInt32.toNat
  have h5 := hlong payload.length
  simp only [avroEvent, Avro.write, Avro.writeFields, Framed, framing, List.length_append,
    List.length_nil]
  omega

/-! ### Cap'n Proto -/

theorem capnpBytes_framed (scratch : List UInt8) (ev : CapnpEvent) :
    Framed ev.source ev.payload (capnpBytes.writeMessage scratch ev).1 := by
  have hlen : (capnpBytes.writeMessage scratch ev).1.length = messageLen ev.source ev.payload :=
    CapnpWire.message_length ev
  unfold Framed framing
  rw [hlen, messageLen, eventWords, CapnpWire.words, CapnpWire.words]
  omega

/-! ### FlatBuffers -/

namespace FlatWire

/-- The builder has at least `lo` and at most `hi` bytes more, and no wide alignment. -/
structure Grown (b b' : Fbb) (lo hi : Nat) : Prop where
  least : b.bytes.length + lo ≤ b'.bytes.length
  most : b'.bytes.length ≤ b.bytes.length + hi
  align : b.minAlign ≤ 8 → b'.minAlign ≤ 8

variable {b b' b'' : Fbb} {lo hi lo' hi' : Nat}

theorem Grown.trans (h : Grown b b' lo hi) (h' : Grown b' b'' lo' hi') :
    Grown b b'' (lo + lo') (hi + hi') where
  least := by
    have hleast := h.least
    have hleast' := h'.least
    omega
  most := by
    have hmost := h.most
    have hmost' := h'.most
    omega
  align := fun ha => h'.align (h.align ha)

theorem Grown.mono (h : Grown b b' lo hi) (hlo : lo' ≤ lo) (hhi : hi ≤ hi') :
    Grown b b' lo' hi' where
  least := by
    have hleast := h.least
    omega
  most := by
    have hmost := h.most
    omega
  align := h.align

theorem grown_align (b : Fbb) (len alignment : Nat) (hpos : 0 < alignment) (hle : alignment ≤ 8) :
    Grown b (b.align len alignment) 0 (alignment - 1) where
  least := by
    rw [align_length]
    omega
  most := by
    have hpad := paddingBytes_lt (b.bytes.length + len) hpos
    rw [align_length]
    omega
  align := fun ha => Nat.max_le.mpr ⟨ha, hle⟩

theorem grown_write (b : Fbb) (bs : List UInt8) : Grown b (b.write bs) bs.length bs.length where
  least := by
    rw [write_bytes, List.length_append]
    omega
  most := by
    rw [write_bytes, List.length_append]
    omega
  align := id

theorem grown_push (b : Fbb) {bs : List UInt8} (hpos : 0 < bs.length) (hle : bs.length ≤ 8) :
    Grown b (b.push bs) 0 15 :=
  ((grown_align b bs.length bs.length hpos hle).trans (grown_write _ bs)).mono (by omega) (by omega)

theorem grown_create (b : Fbb) (o : FlatObject) :
    Grown b (b.create o) (contents o).length ((contents o).length + 19) := by
  have hlen (n : Nat) : 0 < (toLE 4 n).length ∧ (toLE 4 n).length ≤ 8 := by simp
  cases o with
  | string s =>
    have halign := grown_align b ((utf8 s).length + 1) 4 (by decide) (by decide)
    have hwrite := halign.trans (grown_write _ (utf8 s ++ [0]))
    refine (hwrite.trans (grown_push _ (hlen _).1 (hlen _).2)).mono ?_ ?_
    · simp [contents]
    · simp [contents]
      omega
  | vector bs =>
    have halign := grown_align b bs.length 4 (by decide) (by decide)
    have hwrite := halign.trans (grown_write _ bs)
    refine (hwrite.trans (grown_push _ (hlen _).1 (hlen _).2)).mono ?_ ?_
    · simp [contents]
    · simp [contents]
      omega

theorem grown_createAll (b : Fbb) (objects : List FlatObject) :
    Grown b (b.createAll objects).1 (objects.map fun o => (contents o).length).sum
      (objects.map fun o => (contents o).length + 19).sum := by
  induction objects generalizing b with
  | nil => exact ⟨Nat.le_refl _, Nat.le_refl _, id⟩
  | cons o objects ih => exact (grown_create b o).trans (ih _)

theorem grown_pushOffset (b : Fbb) (place : Nat) : Grown b (b.pushOffset place) 0 7 := by
  have halign := grown_align b 4 4 (by decide) (by decide)
  exact (halign.trans (grown_write _ _)).mono (by omega) (by simp)

theorem grown_pushField (b : Fbb) (places : List Nat) (f : FlatField) :
    Grown b (b.pushField places f) 0 15 := by
  cases f with
  | u64 v => exact grown_push b (by simp) (by simp)
  | u8 v => exact grown_push b (by simp) (by simp)
  | offset i => exact (grown_pushOffset b _).mono (Nat.le_refl _) (by omega)

theorem grown_pushAll (b : Fbb) (places : List Nat) (fields : List (UInt16 × FlatField)) :
    Grown b (b.pushAll places fields).1 0 (15 * fields.length) := by
  induction fields generalizing b with
  | nil => exact ⟨Nat.le_refl _, Nat.le_refl _, id⟩
  | cons field fields ih =>
    obtain ⟨slot, f⟩ := field
    refine ((grown_pushField b places f).trans (ih _)).mono (Nat.le_refl _) ?_
    rw [List.length_cons]
    omega

theorem vtableLen_le {locs : List (UInt16 × Nat)} {k : Nat} (hk : 4 ≤ k)
    (h : ∀ loc ∈ locs, loc.1.toNat + 2 ≤ k) : vtableLen locs ≤ k := by
  induction locs with
  | nil => exact hk
  | cons loc locs ih =>
    exact Nat.max_le.mpr ⟨h loc (List.mem_cons_self ..),
      ih fun l hl => h l (List.mem_cons_of_mem _ hl)⟩

theorem grown_endTable (b : Fbb) (start : Nat) {locs : List (UInt16 × Nat)}
    (hslots : ∀ loc ∈ locs, loc.1 ∈ [SEQ, TS, SOURCE, KIND, PAYLOAD]) :
    Grown b (b.endTable start locs).1 0 29 := by
  have hslot : ∀ slot ∈ [SEQ, TS, SOURCE, KIND, PAYLOAD], FlatSlot slot ∧ slot.toNat + 2 ≤ 14 := by
    simp [FlatSlot, SEQ, TS, SOURCE, KIND, PAYLOAD]
  have hlen : (vtable (b.push (toLE 4 (vtableLen locs))).bytes.length start locs).length =
      vtableLen locs :=
    vtable_length fun loc hloc => (hslot _ (hslots loc hloc)).1
  have hle := vtableLen_le (k := 14) (by decide) fun loc hloc => (hslot _ (hslots loc hloc)).2
  have hpush : Grown b (b.push (toLE 4 (vtableLen locs))) 0 15 := grown_push b (by simp) (by simp)
  refine (hpush.trans (grown_write _ (vtable _ start locs))).mono (Nat.zero_le _) ?_
  omega

theorem grown_finishMinimal {b : Fbb} (h : b.minAlign ≤ 8) (object : Nat) :
    Grown b (b.finishMinimal object) 0 14 := by
  have hpad : paddingBytes (b.bytes.length + 4) b.minAlign ≤ 7 := by
    rcases Nat.eq_zero_or_pos b.minAlign with hzero | hpos
    · simp [paddingBytes, hzero]
    · have hlt := paddingBytes_lt (b.bytes.length + 4) hpos
      omega
  have halign : Grown b (b.align 4 b.minAlign) 0 7 := by
    refine ⟨?_, ?_, fun _ => Nat.max_le.mpr ⟨h, h⟩⟩
    · rw [align_length]
      omega
    · rw [align_length]
      omega
  exact halign.trans (grown_pushOffset _ object)

theorem grown_finish (b : Fbb) (h : b.minAlign ≤ 8) (objects : List FlatObject)
    {fields : List (UInt16 × FlatField)}
    (hslots : (fields.map Prod.fst).Sublist [SEQ, TS, SOURCE, KIND, PAYLOAD]) :
    Grown b (b.finish objects fields) (objects.map fun o => (contents o).length).sum
      ((objects.map fun o => (contents o).length + 19).sum + 118) := by
  have hfew : fields.length ≤ 5 := by
    have hcount := hslots.length_le
    rwa [List.length_map] at hcount
  have hobjects := grown_createAll b objects
  unfold Fbb.finish
  dsimp only
  generalize b.createAll objects = created at hobjects ⊢
  have hfields := hobjects.trans (grown_pushAll created.1 created.2 fields)
  obtain ⟨_, _, hlocs, _, _⟩ := pushAll_spec created.1 created.2 fields
  generalize created.1.pushAll created.2 fields = pushed at hfields hlocs ⊢
  have htable := hfields.trans (grown_endTable pushed.1 created.1.bytes.length fun loc hloc =>
    hslots.subset (hlocs ▸ List.mem_map_of_mem hloc))
  generalize pushed.1.endTable created.1.bytes.length pushed.2 = ended at htable ⊢
  exact (htable.trans (grown_finishMinimal (htable.align h) ended.2)).mono (by omega) (by omega)

theorem finish_framed (seq ts : UInt64) (source : String) (kind : Kind) (payload : List UInt8) :
    Framed source payload
      (Fbb.empty.finish [.string source, .vector payload] (flatFields seq ts kind)).bytes := by
  have hall := grown_finish .empty (by decide) [.string source, .vector payload]
    (flatFields_slots seq ts kind)
  have hleast := hall.least
  have hmost := hall.most
  have hempty : Fbb.empty.bytes.length = 0 := rfl
  simp only [contents, List.map_cons, List.map_nil, List.sum_cons, List.sum_nil] at hleast hmost
  unfold Framed framing
  exact ⟨by omega, by omega⟩

end FlatWire

theorem wireFormats_compact : wireFormats.Compact where
  serdeJson := compactJson_framed
  ciborium := cborBytes_framed
  prost := protobuf_framed
  flatbuffers := fun _ => FlatWire.finish_framed
  apacheAvro := avroBinary_framed
  capnp := fun scratch ev _ => capnpBytes_framed scratch ev

/-! ### The codecs -/

/-- An event that a producer may have, in slots with room for it. -/
structure Roomy (cfg : RingConfig) (ev : DecodedEvent) : Prop where
  clear : ev.Clear
  room : ev.payload.length + framing ev.source + 20 ≤ cfg.slotSize.toNat
  size : cfg.slotSize.toNat ≤ 2 * 1024 * 1024

variable {libs : Libraries} {kind : CodecKind} {cfg : RingConfig} {ev : DecodedEvent}

/-- Every codec encodes such an event, whatever it did before. -/
theorem Libraries.Compact.encode (h : libs.Compact) (hdoc : libs.Documented) (hev : Roomy cfg ev)
    {c : libs.State kind} (hc : (libs.codec kind).Used cfg c) :
    ∃ c' bytes, (libs.codec kind).encode c ev.seq ev.timestamp ev.source ev.kind ev.payload [] =
      .ok (c', bytes) ∧ Framed ev.source ev.payload bytes := by
  obtain ⟨text, htext, hplain⟩ := hev.clear.payload
  cases kind with
  | capnp =>
    have hlen : c.length = (scratchSize cfg).toNat := capnpCodec_used hdoc.capnp.keeps hc
    have hsize := hev.size
    have hroom := hev.room
    have hscratch : cfg.slotSize.toNat + 512 ≤ (scratchSize cfg).toNat :=
      slotSize_le_scratchSize (by omega)
    exact ⟨_, _, rfl, h.capnp c (toCapnp ev) (by simp only [toCapnp]; omega)⟩
  | json =>
    have hwrite :=
      h.serdeJson ⟨ev.seq, ev.timestamp, ev.source, ev.kind, text⟩ hev.clear.source hplain
    simp only [utf8_of_fromUtf8 htext] at hwrite
    refine ⟨(), _, ?_, hwrite⟩
    simp only [codec, jsonCodec, htext, List.nil_append]
    rfl
  | cbor => exact ⟨_, _, rfl, h.ciborium ⟨ev.seq, ev.timestamp, ev.source, ev.kind, ev.payload⟩⟩
  | proto =>
    exact ⟨_, _, rfl,
      h.prost ⟨ev.seq, ev.timestamp, ev.source, (kindToPb ev.kind).toI32, ev.payload⟩⟩
  | flat => exact ⟨_, _, rfl, h.flatbuffers c ev.seq ev.timestamp ev.source ev.kind ev.payload⟩
  | avro =>
    obtain ⟨bytes, hto, _⟩ := hdoc.apacheAvro.roundTrip _ _
      (accepts_avroEvent ev.seq ev.timestamp ev.source ev.kind ev.payload)
    obtain rfl : c = eventSchema := avroCodec_used hc
    refine ⟨eventSchema, bytes, ?_, h.apacheAvro _ _ _ _ _ bytes hto⟩
    simp only [codec, avroCodec, hto, List.nil_append]
    rfl

end ShmMpsc
