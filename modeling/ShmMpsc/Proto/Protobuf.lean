import ShmMpsc.Proto.Codec

/-!
# The Protocol Buffers codec

`prost` is a parameter. It decodes into a new message, which then becomes the codec's.
-/

namespace ShmMpsc

set_option autoImplicit false

/-- The `Kind` derived from `proto/event.proto`. -/
inductive PbKind where
  | info
  | warn
  | error
  | metric
  deriving DecidableEq, Repr

/-- `as i32`. -/
def PbKind.toI32 : PbKind → Int32
  | .info => 0
  | .warn => 1
  | .error => 2
  | .metric => 3

/-- `PbKind::try_from`. -/
def PbKind.tryFrom (k : Int32) : Option PbKind :=
  if k = 0 then some .info
  else if k = 1 then some .warn
  else if k = 2 then some .error
  else if k = 3 then some .metric
  else none

/-- The `Event` derived from `proto/event.proto`. -/
structure PbEvent where
  seq : UInt64
  timestamp : UInt64
  source : String
  kind : Int32
  payload : List UInt8
  deriving DecidableEq, Repr

/-- `PbEvent::default()`. -/
def PbEvent.empty : PbEvent where
  seq := 0
  timestamp := 0
  source := ""
  kind := 0
  payload := []

/-- `Message` for `PbEvent`. Into a `Vec` it always encodes. -/
structure Prost where
  encode : PbEvent → List UInt8
  decode : List UInt8 → Option PbEvent

/-- A message is what its encoding decodes to. -/
structure Prost.Documented (prost : Prost) : Prop where
  roundTrip : ∀ ev, (prost.encode ev).length ≤ presetLimit →
    prost.decode (prost.encode ev) = some ev

def kindToPb : Kind → PbKind
  | .info => .info
  | .warn => .warn
  | .error => .error
  | .metric => .metric

def kindFromPbI32 (k : Int32) : Kind :=
  match (PbKind.tryFrom k).getD .info with
  | .info => .info
  | .warn => .warn
  | .error => .error
  | .metric => .metric

@[simp] theorem kindFromPbI32_kindToPb (kind : Kind) :
    kindFromPbI32 (kindToPb kind).toI32 = kind := by
  cases kind <;> rfl

/-- `ProtoCodec`. -/
def protoCodec (prost : Prost) : Codec PbEvent where
  new := fun _ => .empty
  encode := fun c seq ts source kind payload dst =>
    let ev := { c with seq := seq, timestamp := ts, source := source, kind := (kindToPb kind).toI32,
                       payload := payload }
    .ok (ev, dst ++ prost.encode ev)
  decodeInto := fun c raw out =>
    match prost.decode raw with
    | none => (c, out, false)
    | some ev => (ev, { out with seq := ev.seq, timestamp := ev.timestamp, source := ev.source,
                                 kind := kindFromPbI32 ev.kind, payload := ev.payload }, true)

variable {prost : Prost}

theorem protoCodec_untouched (c : PbEvent) (raw : List UInt8) (out : DecodedEvent) :
    (protoCodec prost).FailureUntouched c raw out := by
  unfold Codec.FailureUntouched protoCodec
  dsimp only
  cases prost.decode raw with
  | none => exact fun _ => rfl
  | some ev => exact fun h => nomatch h

theorem protoCodec_lossless (h : prost.Documented) : (protoCodec prost).Lossless := by
  intro ev
  refine ⟨fun _ => prost.encode ⟨ev.seq, ev.timestamp, ev.source, (kindToPb ev.kind).toI32,
    ev.payload⟩, fun cfg c dst _ => ⟨_, rfl⟩, fun _ _ _ _ => rfl, ?_⟩
  intro cfg cfg' c out hfits _
  refine ⟨⟨ev.seq, ev.timestamp, ev.source, (kindToPb ev.kind).toI32, ev.payload⟩, ?_⟩
  simp only [protoCodec, h.roundTrip _ hfits, kindFromPbI32_kindToPb]

end ShmMpsc
