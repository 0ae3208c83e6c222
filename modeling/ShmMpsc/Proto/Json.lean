import ShmMpsc.Proto.Codec
import ShmMpsc.Proto.Serde

/-!
# The JSON codec

The fields that the encoder writes and those that the decoder asks for are those of two
different structs.
-/

namespace ShmMpsc

set_option autoImplicit false

variable {φ : Type}

def Kind.name : Kind → String
  | .info => "info"
  | .warn => "warn"
  | .error => "error"
  | .metric => "metric"

def Kind.ofName : String → Option Kind
  | "info" => some .info
  | "warn" => some .warn
  | "error" => some .error
  | "metric" => some .metric
  | _ => none

@[simp] theorem Kind.ofName_name (kind : Kind) : Kind.ofName kind.name = some kind := by
  cases kind <;> rfl

/-- A variant without fields, by its name or as the key of `null`. -/
def Json.asKind : Json Literal φ → Option Kind
  | .str s => Kind.ofName s.value
  | .obj [(name, .null)] => Kind.ofName name
  | _ => none

structure EventOut where
  seq : UInt64
  timestamp : UInt64
  source : String
  kind : Kind
  payload : String

def EventOut.serialize (ev : EventOut) : Json String φ :=
  .obj [("seq", .num (.ofU64 ev.seq)), ("timestamp", .num (.ofU64 ev.timestamp)),
    ("source", .str ev.source), ("kind", .str ev.kind.name), ("payload", .str ev.payload)]

theorem EventOut.serialize_within (ev : EventOut) : (ev.serialize : Json String φ).within 127 := by
  simp [serialize, Json.within]

structure EventIn where
  seq : UInt64
  timestamp : UInt64
  source : String
  kind : Kind
  payload : String

def EventIn.deserialize (v : Json Literal φ) : Option EventIn :=
  match v.members ["seq", "timestamp", "source", "kind", "payload"] with
  | some [seq, timestamp, source, kind, payload] => do
    return { seq := ← seq.asU64, timestamp := ← timestamp.asU64, source := ← source.asBorrowed,
             kind := ← kind.asKind, payload := ← payload.asBorrowed }
  | _ => none

/-- The decoder's struct fits the encoder's as long as its strings can be borrowed. -/
theorem deserialize_serialize (ev : EventOut) :
    EventIn.deserialize ((ev.serialize : Json String φ).map .of) =
      if (Literal.of ev.source).escaped || (Literal.of ev.payload).escaped then none
      else some { seq := ev.seq, timestamp := ev.timestamp, source := ev.source, kind := ev.kind,
                  payload := ev.payload } := by
  cases hs : (Literal.of ev.source).escaped <;> cases hp : (Literal.of ev.payload).escaped <;>
    simp [EventOut.serialize, Json.map, Json.mapFields, EventIn.deserialize, Json.members,
      Json.fieldOnce, Json.asU64, Json.asBorrowed, Json.asKind, hs, hp]

/-! ### The codec -/

/-- `JsonCodec`. -/
def jsonCodec (sj : SerdeJson φ) : Codec Unit where
  new := fun _ => ()
  encode := fun c seq ts source kind payload dst =>
    match fromUtf8 payload with
    -- one text for those of `Utf8Error`, which also say where
    | none => .error "invalid utf-8 sequence"
    | some pl =>
      let ev : EventOut :=
        { seq := seq, timestamp := ts, source := source, kind := kind, payload := pl }
      .ok (c, dst ++ sj.toWriter ev.serialize)
  decodeInto := fun c raw out =>
    match (sj.fromSlice raw).bind EventIn.deserialize with
    | none => (c, out, false)
    | some ev =>
      (c, { seq := ev.seq, timestamp := ev.timestamp, source := ev.source, kind := ev.kind,
                       payload := utf8 ev.payload }, true)

/-- No character that JSON escapes. -/
def Plain (s : String) : Prop := ∀ c ∈ s.toList, mustEscape c = false

instance (s : String) : Decidable (Plain s) := List.decidableBAll _ _

theorem plain_iff {s : String} : Plain s ↔ (Literal.of s).escaped = false := by
  simp [Plain, Literal.of]

variable {sj : SerdeJson φ} {seq ts : UInt64} {source : String} {kind : Kind} {payload : List UInt8}
  {text : String}

variable (seq ts source kind) in
theorem jsonCodec_decode_encode (h : sj.Documented) (htext : fromUtf8 payload = some text)
    (dst : List UInt8) (out : DecodedEvent) :
    ∃ bytes, (jsonCodec sj).encode () seq ts source kind payload dst = .ok ((), dst ++ bytes) ∧
      (jsonCodec sj).decodeInto () bytes out =
        if (Literal.of source).escaped || (Literal.of text).escaped then ((), out, false)
        else ((), ⟨seq, ts, source, kind, payload⟩, true) := by
  refine ⟨_, by simp only [jsonCodec, htext]; rfl, ?_⟩
  simp only [jsonCodec, h.roundTrip _ (EventOut.serialize_within _), Option.bind_some,
    deserialize_serialize]
  cases (Literal.of source).escaped || (Literal.of text).escaped
  · simp [utf8_of_fromUtf8 htext]
  · simp

/-- Events come back as they were sent exactly when no string of theirs needs an escape. -/
theorem json_round_trip_iff (h : sj.Documented) (htext : fromUtf8 payload = some text)
    (dst : List UInt8) (out : DecodedEvent) :
    (∃ bytes, (jsonCodec sj).encode () seq ts source kind payload dst = .ok ((), dst ++ bytes) ∧
      (jsonCodec sj).decodeInto () bytes out = ((), ⟨seq, ts, source, kind, payload⟩, true)) ↔
      Plain source ∧ Plain text := by
  obtain ⟨bytes, henc, hdec⟩ := jsonCodec_decode_encode seq ts source kind h htext dst out
  have hplain : Plain source ∧ Plain text ↔
      ((Literal.of source).escaped || (Literal.of text).escaped) = false := by
    rw [plain_iff, plain_iff, Bool.or_eq_false_iff]
  rw [hplain]
  constructor
  · rintro ⟨bytes', henc', hdec'⟩
    have hsame : bytes' = bytes := by
      rw [henc] at henc'
      simpa using henc'.symm
    rw [hsame, hdec] at hdec'
    cases hesc : (Literal.of source).escaped || (Literal.of text).escaped
    · rfl
    · rw [hesc] at hdec'
      simp at hdec'
  · intro hesc
    rw [hesc] at hdec
    exact ⟨bytes, henc, hdec⟩

theorem json_round_trip_blob : ∃ bytes,
    (jsonCodec compactJson).encode () 18446744073709551615 7 "producer-0"
      .metric (utf8 "aGVsbG8=") [] =
      .ok ((), [] ++ bytes) ∧
    (jsonCodec compactJson).decodeInto () bytes .empty =
      ((), ⟨18446744073709551615, 7, "producer-0", .metric, utf8 "aGVsbG8="⟩, true) :=
  (json_round_trip_iff compactJson_documented (fromUtf8_utf8 _) [] .empty).mpr (by decide)

/-- An event with a quote in its payload is encoded, and its own text does not decode. -/
theorem json_quote_rejected : compactJson.Documented ∧ fromUtf8 [34] = some "\"" ∧ ∃ bytes,
    (jsonCodec compactJson).encode () 0 7 "producer-0" .metric [34] [] = .ok ((), bytes) ∧
    (jsonCodec compactJson).decodeInto () bytes .empty = ((), .empty, false) := by
  have htext : fromUtf8 [34] = some "\"" := by decide
  obtain ⟨bytes, henc, hdec⟩ := jsonCodec_decode_encode 0 7 "producer-0" .metric
    compactJson_documented htext [] .empty
  exact ⟨compactJson_documented, htext, bytes, henc, hdec⟩

end ShmMpsc
