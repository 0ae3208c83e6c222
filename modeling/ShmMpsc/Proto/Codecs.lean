import ShmMpsc.Formats.Protobuf
import ShmMpsc.Formats.Avro
import ShmMpsc.Formats.Cbor
import ShmMpsc.Formats.Capnp
import ShmMpsc.Formats.FlatOwn

/-!
# The six codecs

Four of them parse the whole record before they assign anything. The Cap'n Proto and the
FlatBuffers codec read a field, assign it and read the next.
-/

namespace ShmMpsc

set_option autoImplicit false

inductive CodecKind where
  | capnp
  | json
  | cbor
  | proto
  | flat
  | avro
  deriving DecidableEq, Repr

/-- The libraries of the codecs. -/
structure Libraries where
  φ : Type
  serdeJson : SerdeJson φ
  ciborium : Ciborium
  prost : Prost
  flatbuffers : Flatbuffers
  apacheAvro : ApacheAvro
  capnp : Capnp

namespace Libraries

def State (libs : Libraries) : CodecKind → Type
  | .capnp => List UInt8
  | .json => Unit
  | .cbor => Unit
  | .proto => PbEvent
  | .flat => libs.flatbuffers.Builder
  | .avro => AvroSchema

def codec (libs : Libraries) : (kind : CodecKind) → Codec (libs.State kind)
  | .capnp => capnpCodec libs.capnp
  | .json => jsonCodec libs.serdeJson
  | .cbor => cborCodec libs.ciborium
  | .proto => protoCodec libs.prost
  | .flat => flatCodec libs.flatbuffers
  | .avro => avroCodec libs.apacheAvro

/-- The libraries of the binary codecs read what they write. -/
structure Documented (libs : Libraries) : Prop where
  ciborium : libs.ciborium.Documented
  prost : libs.prost.Documented
  flatbuffers : libs.flatbuffers.Documented
  apacheAvro : libs.apacheAvro.Documented
  capnp : libs.capnp.Documented

/-- `decode_into`, or nothing if it panics, as that of FlatBuffers can. -/
def decodeInto (libs : Libraries) : (kind : CodecKind) → libs.State kind → (raw : List UInt8) →
    DecodedEvent → Option (DecodedEvent × Bool)
  | .flat, _, raw, out => (flatDecode libs.flatbuffers.tables raw out).result
  | kind, c, raw, out => some ((libs.codec kind).decodeInto c raw out).2

/-- The call leaves no mark on `out` if it returns `Err`. -/
def FailureUntouched (libs : Libraries) (kind : CodecKind) (c : libs.State kind) (raw : List UInt8)
    (out : DecodedEvent) : Prop :=
  ∀ out', libs.decodeInto kind c raw out = some (out', false) → out' = out

/-- What keeps a failed decode from showing in `out`. -/
def Harmless (libs : Libraries) (raw : List UInt8) (out : DecodedEvent) : CodecKind → Prop
  | .capnp => libs.capnp.Harmless raw out
  | .flat => libs.flatbuffers.tables.Harmless raw out
  | _ => True

end Libraries

/-- The formats themselves as the libraries. -/
def wireFormats : Libraries where
  φ := Empty
  serdeJson := compactJson
  ciborium := cborBytes
  prost := protobuf
  flatbuffers := flatBytes
  apacheAvro := avroBinary
  capnp := capnpBytes

theorem wireFormats_documented : wireFormats.Documented where
  ciborium := cborBytes_documented
  prost := protobuf_documented
  flatbuffers := flatBytes_documented
  apacheAvro := avroBinary_documented
  capnp := capnpBytes_documented

variable {φ : Type}

theorem jsonCodec_untouched (sj : SerdeJson φ) (c : Unit) (raw : List UInt8) (out : DecodedEvent) :
    (jsonCodec sj).FailureUntouched c raw out := by
  unfold Codec.FailureUntouched jsonCodec
  dsimp only
  cases (sj.fromSlice raw).bind EventIn.deserialize with
  | none => exact fun _ => rfl
  | some ev => exact fun h => nomatch h

namespace Libraries

/-- When the call returns it does what the codec does. -/
theorem decodeInto_codec {libs : Libraries} {kind : CodecKind} {c : libs.State kind}
    {raw : List UInt8} {out : DecodedEvent} {r : DecodedEvent × Bool}
    (h : libs.decodeInto kind c raw out = some r) :
    ((libs.codec kind).decodeInto c raw out).2 = r := by
  cases kind with
  | flat =>
    have hresult : (flatDecode libs.flatbuffers.tables raw out).result = some r := h
    simp only [codec, flatCodec, hresult]
  | capnp | json | cbor | proto | avro => exact Option.some.inj h

theorem failureUntouched_of_codec (libs : Libraries) (kind : CodecKind) {c : libs.State kind}
    {raw : List UInt8} {out : DecodedEvent} (h : (libs.codec kind).FailureUntouched c raw out) :
    libs.FailureUntouched kind c raw out := by
  intro out' hcall
  have hcodec := decodeInto_codec hcall
  rw [Codec.FailureUntouched, hcodec] at h
  exact h rfl

end Libraries

theorem failed_decode_iff (libs : Libraries) (kind : CodecKind) (c : libs.State kind)
    (raw : List UInt8) (out : DecodedEvent) :
    libs.FailureUntouched kind c raw out ↔ libs.Harmless raw out kind := by
  cases kind with
  | flat => exact flatDecode_untouched_iff
  | capnp =>
    refine Iff.trans ⟨fun h hfailed => ?_, libs.failureUntouched_of_codec .capnp⟩
      (capnpCodec_untouched_iff c raw out)
    exact h _ (congrArg some (Prod.ext rfl hfailed))
  | json =>
    exact iff_true_intro (libs.failureUntouched_of_codec .json (jsonCodec_untouched _ c raw out))
  | cbor =>
    exact iff_true_intro (libs.failureUntouched_of_codec .cbor (cborCodec_untouched c raw out))
  | proto =>
    exact iff_true_intro (libs.failureUntouched_of_codec .proto (protoCodec_untouched c raw out))
  | avro =>
    exact iff_true_intro (libs.failureUntouched_of_codec .avro (avroCodec_untouched c raw out))

theorem failed_decode_overwrites :
    ¬∀ (kind : CodecKind) (c : wireFormats.State kind) (raw : List UInt8)
    (out : DecodedEvent), wireFormats.FailureUntouched kind c raw out := by
  intro h
  have hrun : wireFormats.decodeInto .flat FlatWire.Fbb.empty
      [8, 0, 0, 0, 4, 0, 4, 0, 4, 0, 0, 0] ⟨5, 7, "p", .warn, [1]⟩ =
        some (⟨0, 0, "", .info, [1]⟩, false) := by
    decide
  exact absurd (h .flat _ _ _ _ hrun) (by decide)

/-- The binary codecs keep every event, and no call shows in a later one. -/
theorem binary_lossless (libs : Libraries) (h : libs.Documented) (kind : CodecKind)
    (hkind : kind ≠ .json) : (libs.codec kind).Lossless := by
  cases kind with
  | json => exact absurd rfl hkind
  | capnp => exact capnpCodec_lossless h.capnp
  | cbor => exact cborCodec_lossless h.ciborium
  | proto => exact protoCodec_lossless h.prost
  | flat => exact flatCodec_lossless h.flatbuffers
  | avro => exact avroCodec_lossless h.apacheAvro

theorem binary_lossless_wire : (protoCodec protobuf).Lossless ∧ (flatCodec flatBytes).Lossless ∧
    (avroCodec avroBinary).Lossless ∧ (capnpCodec capnpBytes).Lossless ∧
      (cborCodec cborBytes).Lossless :=
  ⟨binary_lossless wireFormats wireFormats_documented .proto (by decide),
    binary_lossless wireFormats wireFormats_documented .flat (by decide),
    binary_lossless wireFormats wireFormats_documented .avro (by decide),
    binary_lossless wireFormats wireFormats_documented .capnp (by decide),
    binary_lossless wireFormats wireFormats_documented .cbor (by decide)⟩

/-! ### What comes out again -/

/-- Nothing in the name or in the payload, which is a text, that JSON escapes. -/
structure DecodedEvent.Clear (ev : DecodedEvent) : Prop where
  source : Plain ev.source
  payload : ∃ text, fromUtf8 ev.payload = some text ∧ Plain text

section TakesOut

open RingConfig

variable {C : Type} {codec : Codec C} {cfg : RingConfig} {ev : DecodedEvent}

/-- The codecs that lose nothing take out what fits their slot, up to the presets' size. -/
theorem Codec.Lossless.takesOut (h : codec.Lossless) (hcheck : cfg.check = .ok ())
    (hsize : cfg.slotSize.toNat ≤ 2 * 1024 * 1024) (ev : DecodedEvent) : codec.TakesOut cfg ev := by
  obtain ⟨bytes, henc, _, hdec⟩ := h ev
  intro c c' d bs out hc hd hok hlen
  obtain ⟨c'', hc''⟩ := henc cfg c [] hc
  rw [hok, List.nil_append] at hc''
  obtain ⟨-, rfl⟩ := Prod.mk.inj (Except.ok.inj hc'')
  have hmax := maxLen_toNat (check_iff.mp hcheck).min
  exact hdec cfg cfg d out (by unfold presetLimit; omega) hd

theorem jsonCodec_takesOut {sj : SerdeJson φ} (h : sj.Documented) (hclear : ev.Clear) :
    (jsonCodec sj).TakesOut cfg ev := by
  obtain ⟨text, htext, hplain⟩ := hclear.payload
  intro c c' d bytes out _ _ henc _
  obtain ⟨bytes', henc', hdec⟩ :=
    jsonCodec_decode_encode ev.seq ev.timestamp ev.source ev.kind h htext []
    out
  rw [plain_iff.mp hclear.source, plain_iff.mp hplain] at hdec
  rw [henc'] at henc
  obtain ⟨-, rfl⟩ := Prod.mk.inj (Except.ok.inj henc)
  exact ⟨(), hdec⟩

theorem Libraries.takesOut {libs : Libraries} (h : libs.Documented)
    (hjson : libs.serdeJson.Documented) {kind : CodecKind} (hcheck : cfg.check = .ok ())
    (hsize : cfg.slotSize.toNat ≤ 2 * 1024 * 1024) (hclear : kind = .json → ev.Clear) :
    (libs.codec kind).TakesOut cfg ev := by
  cases kind with
  | json => exact jsonCodec_takesOut hjson (hclear rfl)
  | capnp => exact (capnpCodec_lossless h.capnp).takesOut hcheck hsize ev
  | cbor => exact (cborCodec_lossless h.ciborium).takesOut hcheck hsize ev
  | proto => exact (protoCodec_lossless h.prost).takesOut hcheck hsize ev
  | flat => exact (flatCodec_lossless h.flatbuffers).takesOut hcheck hsize ev
  | avro => exact (avroCodec_lossless h.apacheAvro).takesOut hcheck hsize ev

end TakesOut

end ShmMpsc
