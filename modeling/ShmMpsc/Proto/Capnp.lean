import ShmMpsc.Lib.Utf8
import ShmMpsc.Proto.Codec

/-!
# The Cap'n Proto codec

`capnp` is a parameter. A message is built in the codec's scratch space as far as it fits there,
and a reader decodes a field when it is asked for it.
-/

namespace ShmMpsc

set_option autoImplicit false

/-- `event::Kind`. -/
inductive CapnpKind where
  | info
  | warn
  | error
  | metric
  deriving DecidableEq, Repr

/-- What the setters of `event::Builder` leave in the struct `Event` of `capnp/control.capnp`. -/
structure CapnpEvent where
  seq : UInt64
  timestamp : UInt64
  source : String
  kind : CapnpKind
  payload : List UInt8
  deriving DecidableEq, Repr

/-- What is used of `capnp`, with `event::Reader`. -/
structure Capnp where
  Message : Type
  Reader : Type
  /-- `ScratchSpaceHeapAllocator` over these bytes, and `write_message`: the message and what the
  bytes are afterwards. -/
  writeMessage : (scratch : List UInt8) → CapnpEvent → List UInt8 × List UInt8
  /-- `read_message_from_flat_slice`. -/
  readMessage : List UInt8 → Option Message
  getRoot : Message → Option Reader
  getSeq : Reader → UInt64
  getTimestamp : Reader → UInt64
  getSource : Reader → Option (List UInt8)
  getKind : Reader → Option CapnpKind
  getPayload : Reader → Option (List UInt8)

/-- A reader of what was built. -/
structure Capnp.ReadsAs (lib : Capnp) (r : lib.Reader) (ev : CapnpEvent) : Prop where
  seq : lib.getSeq r = ev.seq
  timestamp : lib.getTimestamp r = ev.timestamp
  source : lib.getSource r = some (utf8 ev.source)
  kind : lib.getKind r = some ev.kind
  payload : lib.getPayload r = some ev.payload

/-- The allocator zeroes its space, which keeps its size; what the space has room for is laid out
in it; and a message is read as what was written. -/
structure Capnp.Documented (lib : Capnp) : Prop where
  keeps : ∀ scratch ev, (lib.writeMessage scratch ev).2.length = scratch.length
  zeroed : ∀ scratch scratch' ev, scratch.length = scratch'.length →
    (lib.writeMessage scratch ev).1 = (lib.writeMessage scratch' ev).1
  oneSegment : ∀ scratch scratch' ev, (lib.writeMessage scratch ev).1.length ≤ scratch.length →
    (lib.writeMessage scratch ev).1.length ≤ scratch'.length →
    (lib.writeMessage scratch' ev).1 = (lib.writeMessage scratch ev).1
  roundTrip : ∀ scratch ev, (lib.writeMessage scratch ev).1.length ≤ presetLimit →
    ∃ msg r, lib.readMessage (lib.writeMessage scratch ev).1 = some msg ∧
      lib.getRoot msg = some r ∧ lib.ReadsAs r ev

def kindToCapnp : Kind → CapnpKind
  | .info => .info
  | .warn => .warn
  | .error => .error
  | .metric => .metric

def kindFromCapnp : CapnpKind → Kind
  | .info => .info
  | .warn => .warn
  | .error => .error
  | .metric => .metric

@[simp] theorem kindFromCapnp_kindToCapnp (kind : Kind) :
    kindFromCapnp (kindToCapnp kind) = kind := by
  cases kind <;> rfl

/-- Bytes of scratch space. -/
def scratchSize (cfg : RingConfig) : UInt64 := (cfg.slotSize + 512 + 7) &&& ~~~7

/-- `CapnpCodec`, by what is in its scratch space. -/
def capnpCodec (lib : Capnp) : Codec (List UInt8) where
  new := fun cfg => List.replicate (scratchSize cfg).toNat 0
  encode := fun c seq ts source kind payload dst =>
    let ev : CapnpEvent :=
      { seq := seq, timestamp := ts, source := source, kind := kindToCapnp kind,
        payload := payload }
    let (msg, scratch) := lib.writeMessage c ev
    .ok (scratch, dst ++ msg)
  decodeInto := fun c raw out =>
    match (lib.readMessage raw).bind lib.getRoot with
    | none => (c, out, false)
    | some ev =>
      let out := { out with seq := lib.getSeq ev, timestamp := lib.getTimestamp ev, source := "" }
      match (lib.getSource ev).bind fromUtf8 with
      | none => (c, out, false)
      | some source =>
        let out := { out with source := source, kind := kindFromCapnp ((lib.getKind ev).getD .info),
                              payload := [] }
        match lib.getPayload ev with
        | none => (c, out, false)
        | some payload => (c, { out with payload := payload }, true)

/-! ### The scratch space -/

theorem and_not_seven (x : UInt64) : (x &&& ~~~7).toNat = x.toNat / 8 * 8 := by
  have hmask : ∀ i < 64, (18446744073709551608 : Nat).testBit i = decide (3 ≤ i) := by decide
  have hx := x.toNat_lt
  have heq : (x &&& ~~~7).toNat = x.toNat &&& 18446744073709551608 := UInt64.toNat_and x (~~~7)
  have hpow : x.toNat / 8 * 8 = x.toNat / 2 ^ 3 * 2 ^ 3 := rfl
  rw [heq, hpow]
  apply Nat.eq_of_testBit_eq
  intro i
  rw [Nat.testBit_and, Nat.testBit_mul_two_pow, Nat.testBit_div_two_pow]
  by_cases hi : i < 64
  · rw [hmask i hi]
    by_cases h3 : 3 ≤ i
    · simp [h3, Nat.sub_add_cancel h3]
    · simp [h3]
  · have hbit : x.toNat.testBit i = false :=
      Nat.testBit_lt_two_pow (Nat.lt_of_lt_of_le hx (Nat.pow_le_pow_right (by decide) (by omega)))
    rw [hbit, Nat.sub_add_cancel (by omega), hbit]
    simp

/-- There is room for a slot and more. -/
theorem slotSize_le_scratchSize {cfg : RingConfig} (h : cfg.slotSize.toNat < 2 ^ 63) :
    cfg.slotSize.toNat + 512 ≤ (scratchSize cfg).toNat := by
  have hsum : (cfg.slotSize + 512 + 7).toNat = cfg.slotSize.toNat + 519 := by
    simp only [UInt64.toNat_add, UInt64.reduceToNat]
    omega
  rw [scratchSize, and_not_seven, hsum]
  omega

theorem le_scratchSize {cfg : RingConfig} {n : Nat} (h : Codec.FitsSlot cfg n) :
    n ≤ (scratchSize cfg).toNat := by
  obtain ⟨hlo, hhi⟩ := h
  have hroom := slotSize_le_scratchSize (Nat.lt_of_le_of_lt hhi (by decide))
  omega

variable {lib : Capnp}

theorem capnpCodec_used (hkeeps : ∀ scratch ev, (lib.writeMessage scratch ev).2.length =
      scratch.length)
    {cfg : RingConfig} {c : List UInt8} (hc : (capnpCodec lib).Used cfg c) :
    c.length = (scratchSize cfg).toNat := by
  induction hc with
  | new => exact List.length_replicate
  | encode _ henc ih =>
    simp only [capnpCodec, Except.ok.injEq, Prod.mk.injEq] at henc
    rw [← henc.1, hkeeps, ih]
  | encodeFailed _ _ ih => exact ih
  | decodeInto raw out _ ih =>
    simp only [capnpCodec]
    split
    · exact ih
    · split
      · exact ih
      · split <;> exact ih

theorem capnpCodec_reads {raw : List UInt8} {msg : lib.Message} {r : lib.Reader} {ev : DecodedEvent}
    (hmsg : lib.readMessage raw = some msg) (hroot : lib.getRoot msg = some r)
    (hr : lib.ReadsAs r ⟨ev.seq, ev.timestamp, ev.source, kindToCapnp ev.kind, ev.payload⟩)
    (c : List UInt8) (out : DecodedEvent) :
    (capnpCodec lib).decodeInto c raw out = (c, ev, true) := by
  simp only [capnpCodec, hmsg, Option.bind_some, hroot, hr.source, fromUtf8_utf8, hr.payload,
    hr.seq, hr.timestamp, hr.kind, Option.getD_some, kindFromCapnp_kindToCapnp]

theorem capnpCodec_lossless (h : lib.Documented) : (capnpCodec lib).Lossless := by
  intro ev
  refine ⟨fun cfg => (lib.writeMessage (List.replicate (scratchSize cfg).toNat 0)
    ⟨ev.seq, ev.timestamp, ev.source, kindToCapnp ev.kind, ev.payload⟩).1, ?_, ?_, ?_⟩
  · intro cfg c dst hc
    refine ⟨(lib.writeMessage c ⟨ev.seq, ev.timestamp, ev.source, kindToCapnp ev.kind,
      ev.payload⟩).2, ?_⟩
    have hlen : c.length = (List.replicate (scratchSize cfg).toNat (0 : UInt8)).length := by
      rw [capnpCodec_used h.keeps hc, List.length_replicate]
    simp only [capnpCodec, h.zeroed _ _ _ hlen]
  · intro cfg cfg' hfits hfits'
    apply h.oneSegment
    · rw [List.length_replicate]
      exact le_scratchSize hfits
    · rw [List.length_replicate]
      exact le_scratchSize hfits'
  · intro cfg cfg' c out hfits _
    refine ⟨c, ?_⟩
    obtain ⟨msg, r, hmsg, hroot, hr⟩ := h.roundTrip _ _ hfits
    exact capnpCodec_reads hmsg hroot hr c out

/-- No read fails after an assignment, unless `out` already was what has been assigned by then. -/
structure Capnp.Harmless (lib : Capnp) (raw : List UInt8) (out : DecodedEvent) : Prop where
  source : ∀ ev, (lib.readMessage raw).bind lib.getRoot = some ev →
    (lib.getSource ev).bind fromUtf8 = none →
    out.seq = lib.getSeq ev ∧ out.timestamp = lib.getTimestamp ev ∧ out.source = ""
  payload : ∀ ev source, (lib.readMessage raw).bind lib.getRoot = some ev →
    (lib.getSource ev).bind fromUtf8 = some source → lib.getPayload ev = none →
    out = ⟨lib.getSeq ev, lib.getTimestamp ev, source,
      kindFromCapnp ((lib.getKind ev).getD .info), []⟩

theorem capnpCodec_untouched_iff (c raw : List UInt8) (out : DecodedEvent) :
    (capnpCodec lib).FailureUntouched c raw out ↔ lib.Harmless raw out := by
  obtain ⟨seq, timestamp, source, kind, payload⟩ := out
  unfold Codec.FailureUntouched
  cases hroot : (lib.readMessage raw).bind lib.getRoot with
  | none =>
    simp only [capnpCodec, hroot]
    exact ⟨fun _ => ⟨by simp [hroot], by simp [hroot]⟩, fun _ _ => trivial⟩
  | some ev =>
    cases hsource : (lib.getSource ev).bind fromUtf8 with
    | none =>
      simp only [capnpCodec, hroot, hsource, true_implies, DecodedEvent.mk.injEq]
      constructor
      · rintro ⟨h1, h2, h3, _⟩
        refine ⟨?_, ?_⟩
        · intro ev' hev _
          obtain rfl := Option.some.inj (hroot.symm.trans hev)
          exact ⟨h1.symm, h2.symm, h3.symm⟩
        · intro ev' text hev htext
          obtain rfl := Option.some.inj (hroot.symm.trans hev)
          rw [hsource] at htext
          cases htext
      · intro h
        obtain ⟨h1, h2, h3⟩ := h.source ev hroot hsource
        exact ⟨h1.symm, h2.symm, h3.symm, trivial, trivial⟩
    | some text =>
      have hnone : ∀ ev', (lib.readMessage raw).bind lib.getRoot = some ev' →
          (lib.getSource ev').bind fromUtf8 ≠ none := by
        intro ev' hev
        obtain rfl := Option.some.inj (hroot.symm.trans hev)
        rw [hsource]
        exact Option.some_ne_none text
      cases hpayload : lib.getPayload ev with
      | none =>
        simp only [capnpCodec, hroot, hsource, hpayload, true_implies]
        constructor
        · intro h
          refine ⟨fun ev' hev hno => absurd hno (hnone ev' hev), ?_⟩
          intro ev' text' hev htext _
          obtain rfl := Option.some.inj (hroot.symm.trans hev)
          obtain rfl := Option.some.inj (hsource.symm.trans htext)
          exact h.symm
        · intro h
          exact (h.payload ev text hroot hsource hpayload).symm
      | some bytes =>
        simp only [capnpCodec, hroot, hsource, hpayload]
        refine ⟨fun _ => ⟨fun ev' hev hno => absurd hno (hnone ev' hev), ?_⟩, fun _ h => nomatch h⟩
        intro ev' text' hev _ hno
        obtain rfl := Option.some.inj (hroot.symm.trans hev)
        rw [hpayload] at hno
        cases hno

end ShmMpsc
