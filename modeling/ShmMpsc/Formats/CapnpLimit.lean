import ShmMpsc.Formats.Capnp
import ShmMpsc.Lib.Access

/-!
# The limit of the Cap'n Proto reader

The encoder is bounded by the slot, the decoder by a reader option left at its default. Slots of
less than 64 MiB never come to that bound; in larger ones there are events that are encoded and
pushed and then not decoded.
-/

namespace ShmMpsc

set_option autoImplicit false

open Access (wordAt)
open CapnpWire (words)

/-- `traversal_limit_in_words` of `ReaderOptions::new()`. -/
def traversalLimit : Nat := 8 * 1024 * 1024

/-- The sizes in the segment table, after the number of segments less one. -/
def totalWords (raw : List UInt8) : Nat :=
  ((List.range (wordAt raw 0 4 + 1)).map fun i => wordAt raw (4 + 4 * i) 4).sum

/-- Words of an event in one segment: the root pointer, three of data, two pointers, the text with
its zero and the data. -/
def eventWords (source : String) (payload : List UInt8) : Nat :=
  6 + words ((utf8 source).length + 1) + words payload.length

/-- With the table of one segment. -/
def messageLen (source : String) (payload : List UInt8) : Nat := 8 + 8 * eventWords source payload

/-- A message is never shorter than in one segment, and in a space with room for that it is in one;
messages beyond the limit are rejected by their table, and those within it are read as what was
written. -/
structure Capnp.Limits (lib : Capnp) : Prop where
  keeps : ∀ scratch ev, (lib.writeMessage scratch ev).2.length = scratch.length
  atLeast : ∀ scratch ev,
    messageLen ev.source ev.payload ≤ (lib.writeMessage scratch ev).1.length
  oneSegment : ∀ scratch ev, messageLen ev.source ev.payload ≤ scratch.length →
    messageLen ev.source ev.payload < 2 ^ 29 →
    (lib.writeMessage scratch ev).1.length = messageLen ev.source ev.payload ∧
      totalWords (lib.writeMessage scratch ev).1 = eventWords ev.source ev.payload
  tooLarge : ∀ raw, traversalLimit < totalWords raw → lib.readMessage raw = none
  roundTrip : ∀ scratch ev, messageLen ev.source ev.payload ≤ scratch.length →
    eventWords ev.source ev.payload ≤ traversalLimit →
    ∃ msg r, lib.readMessage (lib.writeMessage scratch ev).1 = some msg ∧
      lib.getRoot msg = some r ∧ lib.ReadsAs r ev

/-! ### Cap'n Proto in bytes, with the limit -/

namespace CapnpWire

variable {ev : CapnpEvent}

theorem segment_words (ev : CapnpEvent) :
    (segment ev).length = 8 * eventWords ev.source ev.payload := by
  have hlen := segment_length ev
  rw [textOf, List.length_append, List.length_singleton] at hlen
  rw [hlen, eventWords]
  omega

theorem message_length (ev : CapnpEvent) :
    (message ev).length = messageLen ev.source ev.payload := by
  rw [message, List.length_append, List.length_append, toLE_length, toLE_length, segment_words,
    messageLen]

theorem totalWords_message (h : eventWords ev.source ev.payload < 256 ^ 4) :
    totalWords (message ev) = eventWords ev.source ev.payload := by
  obtain ⟨hcount, hwords⟩ := slice_table ev
  rw [slice_eq_some_iff] at hcount hwords
  have hdiv : (segment ev).length / 8 = eventWords ev.source ev.payload := by
    rw [segment_words]
    omega
  have hfirst : wordAt (message ev) 0 4 = 0 := by
    rw [wordAt, hcount.2, ofLE_toLE_of_lt (by decide)]
  have hsize : wordAt (message ev) 4 4 = eventWords ev.source ev.payload := by
    rw [wordAt, hwords.2, hdiv, ofLE_toLE_of_lt h]
  rw [totalWords, hfirst]
  simpa using hsize

end CapnpWire

open CapnpWire in
def capnpLimited : Capnp :=
  { capnpBytes with
    readMessage := fun raw => if traversalLimit < totalWords raw then none else readMessage raw }

theorem capnpLimited_readMessage (raw : List UInt8) : capnpLimited.readMessage raw =
    if traversalLimit < totalWords raw then none else CapnpWire.readMessage raw := rfl

open CapnpWire in
theorem capnpLimited_limits : capnpLimited.Limits where
  keeps := fun _ _ => List.length_replicate
  atLeast := fun _ ev => Nat.le_of_eq (message_length ev).symm
  oneSegment := by
    intro scratch ev _ hsmall
    refine ⟨message_length ev, totalWords_message ?_⟩
    rw [messageLen] at hsmall
    omega
  tooLarge := fun raw h => (capnpLimited_readMessage raw).trans (if_pos h)
  roundTrip := by
    intro scratch ev _ hwords
    have hlimit : traversalLimit = 2 ^ 23 := rfl
    have hseg : (segment ev).length < 2 ^ 29 := by
      rw [segment_words]
      omega
    refine ⟨segment ev, ⟨segment ev, 8, 3, 2⟩, ?_, getRoot_segment ev, ?_⟩
    · have htable : totalWords (message ev) = eventWords ev.source ev.payload :=
        totalWords_message (by omega)
      have hwithin : ¬ traversalLimit < totalWords (message ev) := by omega
      rw [capnpLimited_readMessage]
      exact (if_neg hwithin).trans (readMessage_message hseg)
    · have hreads := capnpBytes_readsAs hseg
      exact ⟨hreads.seq, hreads.timestamp, hreads.source, hreads.kind, hreads.payload⟩

/-! ### The codec -/

section Codec

variable {lib : Capnp} {cfg : RingConfig} {ev : DecodedEvent} {c c' bytes : List UInt8}

/-- What is set of the event. -/
def toCapnp (ev : DecodedEvent) : CapnpEvent :=
  ⟨ev.seq, ev.timestamp, ev.source, kindToCapnp ev.kind, ev.payload⟩

theorem capnpCodec_encode_iff :
    (capnpCodec lib).encode c ev.seq ev.timestamp ev.source ev.kind ev.payload [] =
      .ok (c', bytes) ↔
      lib.writeMessage c (toCapnp ev) = (bytes, c') := by
  simp only [capnpCodec, toCapnp, Except.ok.injEq, List.nil_append, Prod.ext_iff]
  exact and_comm

theorem Capnp.Limits.oneSegment_event (h : lib.Limits)
    (hroom : messageLen ev.source ev.payload ≤ c.length)
    (hsmall : messageLen ev.source ev.payload < 2 ^ 29) :
    (lib.writeMessage c (toCapnp ev)).1.length = messageLen ev.source ev.payload ∧
      totalWords (lib.writeMessage c (toCapnp ev)).1 = eventWords ev.source ev.payload :=
  h.oneSegment c (toCapnp ev) hroom hsmall

/-- Whatever fits the slot fits the space that it is built in. -/
theorem messageLen_le_scratch (h : lib.Limits) (hsize : cfg.slotSize.toNat < 2 ^ 29)
    (hc : (capnpCodec lib).Used cfg c) {n : Nat} (hn : n ≤ cfg.slotSize.toNat) : n ≤ c.length := by
  have hroom : cfg.slotSize.toNat + 512 ≤ (scratchSize cfg).toNat :=
    slotSize_le_scratchSize (Nat.lt_trans hsize (by decide))
  rw [capnpCodec_used h.keeps hc]
  omega

theorem capnpCodec_tooLarge {raw : List UInt8} (h : lib.readMessage raw = none) (c : List UInt8)
    (out : DecodedEvent) : (capnpCodec lib).decodeInto c raw out = (c, out, false) := by
  simp [capnpCodec, h]

/-- Beyond the limit a new instance encodes the event as usual, and no instance decodes it. -/
theorem capnp_lost (h : lib.Limits) (hsize : cfg.slotSize.toNat < 2 ^ 29) (ev : DecodedEvent)
    (hfits : messageLen ev.source ev.payload + 20 ≤ cfg.slotSize.toNat)
    (hlarge : traversalLimit < eventWords ev.source ev.payload) : ∃ c' bytes,
    (capnpCodec lib).encode ((capnpCodec lib).new cfg) ev.seq ev.timestamp ev.source ev.kind
      ev.payload [] = .ok (c', bytes) ∧ bytes.length = messageLen ev.source ev.payload ∧
    ∀ d out, (capnpCodec lib).decodeInto d bytes out = (d, out, false) := by
  have hscratch := messageLen_le_scratch h hsize .new (Nat.le_of_add_right_le hfits)
  obtain ⟨hlen, hwords⟩ := h.oneSegment_event hscratch (by omega)
  refine ⟨_, _, capnpCodec_encode_iff.mpr (Prod.eta _).symm, hlen, ?_⟩
  exact capnpCodec_tooLarge (h.tooLarge _ (by omega))

theorem capnp_takesOut (h : lib.Limits) (hsize : cfg.slotSize.toNat < 2 ^ 29)
    (hmax : cfg.maxLen.toNat + 20 = cfg.slotSize.toNat)
    (hwords : messageLen ev.source ev.payload + 20 ≤ cfg.slotSize.toNat →
      eventWords ev.source ev.payload ≤ traversalLimit) : (capnpCodec lib).TakesOut cfg ev := by
  intro c c' d bytes out hc hd henc hlen
  have hwrite := capnpCodec_encode_iff.mp henc
  have hleast : messageLen ev.source ev.payload ≤ (lib.writeMessage c (toCapnp ev)).1.length :=
    h.atLeast c (toCapnp ev)
  rw [hwrite] at hleast
  have hfits : messageLen ev.source ev.payload + 20 ≤ cfg.slotSize.toNat :=
    hmax ▸ Nat.add_le_add_right (Nat.le_trans hleast hlen) 20
  have hscratch := messageLen_le_scratch h hsize hc (Nat.le_of_add_right_le hfits)
  obtain ⟨msg, r, hmsg, hroot, hr⟩ := h.roundTrip c (toCapnp ev) hscratch (hwords hfits)
  rw [hwrite] at hmsg
  exact ⟨d, capnpCodec_reads hmsg hroot hr d out⟩

theorem maxLen_add (hcheck : cfg.check = .ok ()) : cfg.maxLen.toNat + 20 = cfg.slotSize.toNat := by
  have hmin := (RingConfig.check_iff.mp hcheck).min
  rw [RingConfig.maxLen_toNat hmin]
  omega

/-- An event that fits the slot is decoded exactly when the reader admits its message. -/
theorem capnp_takesOut_iff (h : lib.Limits) (hcheck : cfg.check = .ok ())
    (hsize : cfg.slotSize.toNat < 2 ^ 29) (ev : DecodedEvent) :
    (capnpCodec lib).TakesOut cfg ev ↔ (messageLen ev.source ev.payload + 20 ≤ cfg.slotSize.toNat →
      eventWords ev.source ev.payload ≤ traversalLimit) := by
  have hmax := maxLen_add hcheck
  refine ⟨?_, capnp_takesOut h hsize hmax⟩
  intro htakes hfits
  apply Nat.le_of_not_lt
  intro hlarge
  obtain ⟨c', bytes, henc, hlen, hfails⟩ := capnp_lost h hsize ev hfits hlarge
  obtain ⟨d, hd⟩ := htakes _ _ _ _ .empty .new .new henc (by omega)
  rw [hfails] at hd
  cases hd

end Codec

theorem capnp_takesOut_huge : (capnpCodec capnpLimited).TakesOut Presets.HUGE
    ⟨18446744073709551615, 7, "producer-0", .metric, [65, 66]⟩ :=
  (capnp_takesOut_iff capnpLimited_limits (by decide) (by decide) _).mpr fun _ => by decide

def roomy : RingConfig := { numSlots := 2, slotSize := 134217728 }

theorem roomy_lost {payload : List UInt8} (hcount : payload.length = 67108864) : ∃ c' bytes,
    (capnpCodec capnpLimited).encode ((capnpCodec capnpLimited).new roomy) 0 7 "producer-0" .metric
      payload [] = .ok (c', bytes) ∧ bytes.length ≤ roomy.maxLen.toNat ∧
    ∀ d out, (capnpCodec capnpLimited).decodeInto d bytes out = (d, out, false) := by
  have hwords : eventWords "producer-0" payload = 8388616 := by
    have hsource : words ((utf8 "producer-0").length + 1) = 2 := by decide
    rw [eventWords, hsource, hcount]
    rfl
  have hlen : messageLen "producer-0" payload = 67108936 := by rw [messageLen, hwords]
  have hslot : roomy.slotSize.toNat = 134217728 := rfl
  have hmax : roomy.maxLen.toNat = 134217708 := by decide
  have hlimit : traversalLimit = 8388608 := rfl
  have hsize : roomy.slotSize.toNat < 2 ^ 29 := by decide
  have hfits : messageLen "producer-0" payload + 20 ≤ roomy.slotSize.toNat := by omega
  have hlarge : traversalLimit < eventWords "producer-0" payload := by omega
  obtain ⟨c', bytes, henc, hbytes, hfails⟩ :=
    capnp_lost capnpLimited_limits hsize ⟨0, 7, "producer-0", .metric, payload⟩ hfits hlarge
  rw [hlen] at hbytes
  exact ⟨c', bytes, henc, by omega, hfails⟩

/-- A payload of 64 MiB goes into a slot of 128 MiB and does not come out. -/
theorem capnp_payload_lost : capnpLimited.Limits ∧ roomy.check = .ok () ∧
    roomy.slotSize.toNat < 2 ^ 29 ∧ ∃ c' bytes,
    (capnpCodec capnpLimited).encode ((capnpCodec capnpLimited).new roomy) 0 7 "producer-0" .metric
      (List.replicate 67108864 0) [] = .ok (c', bytes) ∧ bytes.length ≤ roomy.maxLen.toNat ∧
    ∀ d out, (capnpCodec capnpLimited).decodeInto d bytes out = (d, out, false) :=
  ⟨capnpLimited_limits, by decide, by decide, roomy_lost List.length_replicate⟩

/-- Every event that is pushed is decoded in slots of less than 64 MiB and 36 bytes, and in no
others. -/
theorem capnp_takes_all_iff {lib : Capnp} {cfg : RingConfig} (h : lib.Limits)
    (hcheck : cfg.check = .ok ()) (hsize : cfg.slotSize.toNat < 2 ^ 29) :
    (∀ ev, (capnpCodec lib).TakesOut cfg ev) ↔ cfg.slotSize.toNat < 67108900 := by
  have hmax := maxLen_add hcheck
  have hlimit : traversalLimit = 8388608 := rfl
  constructor
  · intro htakes
    apply Nat.lt_of_not_le
    intro hlarge
    obtain ⟨payload, hcount⟩ : ∃ payload : List UInt8, payload.length = 67108816 :=
      ⟨_, List.length_replicate (a := 0)⟩
    have hwords : eventWords "" payload = 8388609 := by
      rw [eventWords, hcount]
      rfl
    have hlen : messageLen "" payload = 67108880 := by rw [messageLen, hwords]
    have hfits : messageLen "" payload + 20 ≤ cfg.slotSize.toNat := by omega
    have hbeyond : traversalLimit < eventWords "" payload := by omega
    obtain ⟨c', bytes, henc, hbytes, hfails⟩ :=
      capnp_lost h hsize ⟨0, 0, "", .info, payload⟩ hfits hbeyond
    rw [hlen] at hbytes
    obtain ⟨d, hd⟩ := htakes _ _ _ _ _ .empty .new .new henc (by omega)
    rw [hfails] at hd
    cases hd
  · intro hsmall ev
    apply capnp_takesOut h hsize hmax
    intro hfits
    rw [messageLen] at hfits
    omega

end ShmMpsc
