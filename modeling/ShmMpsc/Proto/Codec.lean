import ShmMpsc.Ring.Config

/-!
# Events and codecs
-/

namespace ShmMpsc

set_option autoImplicit false

inductive Kind where
  | info
  | warn
  | error
  | metric
  deriving DecidableEq, Repr

structure DecodedEvent where
  seq : UInt64
  timestamp : UInt64
  source : String
  kind : Kind
  payload : List UInt8
  deriving DecidableEq, Repr

/-- `DecodedEvent::default()`. -/
def DecodedEvent.empty : DecodedEvent where
  seq := 0
  timestamp := 0
  source := ""
  kind := .info
  payload := []

/-- The trait `Codec` for a codec with buffers `C`. `encode` appends to what it is given or
fails with a message; `decodeInto` also says whether it returned `Ok`, since a failed decode may
leave its marks on the codec and on `out`. -/
structure Codec (C : Type) where
  new : RingConfig → C
  encode : C → (seq ts : UInt64) → (source : String) → Kind → (payload dst : List UInt8) →
    Except String (C × List UInt8)
  decodeInto : C → (raw : List UInt8) → DecodedEvent → C × DecodedEvent × Bool

/-- The longest record that `push` takes in a preset's slot. -/
def presetLimit : Nat := 2 * 1024 * 1024 - 20

theorem maxLen_le_presetLimit :
    ∀ cfg ∈ [Presets.SMALL, Presets.MEDIUM, Presets.LARGE, Presets.HUGE],
      cfg.maxLen.toNat ≤ presetLimit := by decide

namespace Codec

variable {C : Type}

/-- The states that calls, whatever they return, leave a codec in. Of the codecs that keep a
state only Avro's has an `encode` that can fail, and it changes nothing before that. -/
inductive Used (codec : Codec C) (cfg : RingConfig) : C → Prop
  | new : Used codec cfg (codec.new cfg)
  | encode {c c' : C} {seq ts : UInt64} {source : String} {kind : Kind}
    {payload dst bytes : List UInt8} :
      Used codec cfg c → codec.encode c seq ts source kind payload dst = .ok (c', bytes) →
      Used codec cfg c'
  | encodeFailed {c : C} {seq ts : UInt64} {source : String} {kind : Kind}
    {payload dst : List UInt8}
      {e : String} :
      Used codec cfg c → codec.encode c seq ts source kind payload dst = .error e → Used codec cfg c
  | decodeInto {c : C} (raw : List UInt8) (out : DecodedEvent) :
      Used codec cfg c → Used codec cfg (codec.decodeInto c raw out).1

/-- A record of `n` bytes goes into the slots of `cfg`, which are no larger than a preset's. -/
def FitsSlot (cfg : RingConfig) (n : Nat) : Prop :=
  n + 20 ≤ cfg.slotSize.toNat ∧ cfg.slotSize.toNat ≤ 2 * 1024 * 1024

/-- An event has bytes of its own, the same for all rings whose slots they fit. A codec appends
them whatever it did before, and another makes the event of them. -/
def Lossless (codec : Codec C) : Prop :=
  ∀ ev : DecodedEvent, ∃ bytes : RingConfig → List UInt8,
    (∀ cfg c dst, codec.Used cfg c → ∃ c', codec.encode c ev.seq ev.timestamp ev.source ev.kind
      ev.payload dst = .ok (c', dst ++ bytes cfg)) ∧
    (∀ cfg cfg', FitsSlot cfg (bytes cfg).length → FitsSlot cfg' (bytes cfg).length →
      bytes cfg' = bytes cfg) ∧
    (∀ cfg cfg' c out, (bytes cfg).length ≤ presetLimit → codec.Used cfg' c →
      ∃ c', codec.decodeInto c (bytes cfg) out = (c', ev, true))

/-- What one instance encodes of the event and `push` takes, another decodes to the event. -/
def TakesOut (codec : Codec C) (cfg : RingConfig) (ev : DecodedEvent) : Prop :=
  ∀ c c' d bytes out, codec.Used cfg c → codec.Used cfg d →
    codec.encode c ev.seq ev.timestamp ev.source ev.kind ev.payload [] = .ok (c', bytes) →
    bytes.length ≤ cfg.maxLen.toNat → ∃ d', codec.decodeInto d bytes out = (d', ev, true)

/-- If the call fails then `out` is as it was. -/
def FailureUntouched (codec : Codec C) (c : C) (raw : List UInt8) (out : DecodedEvent) : Prop :=
  (codec.decodeInto c raw out).2.2 = false → (codec.decodeInto c raw out).2.1 = out

end Codec

/-- A codec whose encoding is the payload. -/
def plain : Codec Unit where
  new := fun _ => ()
  encode := fun c _ _ _ _ payload dst => .ok (c, dst ++ payload)
  decodeInto := fun c raw out => (c, { out with payload := raw }, true)

end ShmMpsc
