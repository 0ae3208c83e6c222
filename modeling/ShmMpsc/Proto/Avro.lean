import ShmMpsc.Proto.Codec

/-!
# The Avro codec

`apache_avro` is a parameter: values to data and back, by a schema.
-/

namespace ShmMpsc

set_option autoImplicit false

/-- The part of `Schema` that the event's is made of. -/
inductive AvroSchema where
  | long
  | string
  | bytes
  | enum (name : String) (symbols : List String)
  | record (name : String) (fields : List (String × AvroSchema))

/-- `types::Value`; all the kinds of values that the codec does not name are one. -/
inductive AvroValue where
  | long (n : Int64)
  | string (s : String)
  | bytes (bs : List UInt8)
  | enum (idx : UInt32) (symbol : String)
  | record (fields : List (String × AvroValue))
  | other

mutual

/-- The value is one of the schema. -/
def AvroSchema.accepts : AvroSchema → AvroValue → Bool
  | .long, .long _ => true
  | .string, .string _ => true
  | .bytes, .bytes _ => true
  | .enum _ symbols, .enum idx symbol => symbols[idx.toNat]? = some symbol
  | .record _ fields, .record values => acceptsFields fields values
  | _, _ => false

def AvroSchema.acceptsFields : List (String × AvroSchema) → List (String × AvroValue) → Bool
  | [], [] => true
  | (name, schema) :: fields, (key, v) :: values =>
    name = key && schema.accepts v && acceptsFields fields values
  | _, _ => false

end

/-- What is used of `apache_avro`. -/
structure ApacheAvro where
  toAvroDatum : AvroSchema → AvroValue → Except String (List UInt8)
  fromAvroDatum : AvroSchema → List UInt8 → Option AvroValue

/-- A value of the schema has a datum, and is what the datum is read as. -/
structure ApacheAvro.Documented (lib : ApacheAvro) : Prop where
  roundTrip : ∀ schema v, schema.accepts v → ∃ bytes, lib.toAvroDatum schema v = .ok bytes ∧
    (bytes.length ≤ presetLimit → lib.fromAvroDatum schema bytes = some v)

/-- `Schema::parse_str` of `SCHEMA_JSON`. -/
def eventSchema : AvroSchema :=
  .record "Event" [("seq", .long), ("timestamp", .long), ("source", .string),
    ("kind", .enum "Kind" ["Info", "Warn", "Error", "Metric"]), ("payload", .bytes)]

def kindToIdx : Kind → UInt8
  | .info => 0
  | .warn => 1
  | .error => 2
  | .metric => 3

def kindFromIdx (i : UInt32) : Kind :=
  if i = 1 then .warn
  else if i = 2 then .error
  else if i = 3 then .metric
  else .info

def kindSymbol : Kind → String
  | .info => "Info"
  | .warn => "Warn"
  | .error => "Error"
  | .metric => "Metric"

@[simp] theorem kindFromIdx_kindToIdx (kind : Kind) :
    kindFromIdx (kindToIdx kind).toUInt32 = kind := by
  cases kind <;> rfl

/-- The value of an event. -/
def avroEvent (seq ts : UInt64) (source : String) (kind : Kind) (payload : List UInt8) :
    AvroValue :=
  .record [("seq", .long seq.toInt64), ("timestamp", .long ts.toInt64), ("source", .string source),
    ("kind", .enum (kindToIdx kind).toUInt32 (kindSymbol kind)), ("payload", .bytes payload)]

theorem accepts_avroEvent (seq ts : UInt64) (source : String) (kind : Kind) (payload : List UInt8) :
    eventSchema.accepts (avroEvent seq ts source kind payload) = true := by
  cases kind <;> rfl

/-- The body of the loop over the fields of a record. -/
def avroAssign (out : DecodedEvent) : String × AvroValue → DecodedEvent
  | ("seq", .long n) => { out with seq := n.toUInt64 }
  | ("timestamp", .long n) => { out with timestamp := n.toUInt64 }
  | ("source", .string s) => { out with source := s }
  | ("kind", .enum idx _) => { out with kind := kindFromIdx idx }
  | ("payload", .bytes b) => { out with payload := b }
  | _ => out

/-- `AvroCodec`. -/
def avroCodec (lib : ApacheAvro) : Codec AvroSchema where
  new := fun _ => eventSchema
  encode := fun c seq ts source kind payload dst =>
    match lib.toAvroDatum c (avroEvent seq ts source kind payload) with
    | .error e => .error e
    | .ok bytes => .ok (c, dst ++ bytes)
  decodeInto := fun c raw out =>
    match lib.fromAvroDatum c raw with
    | none => (c, out, false)
    | some (.record fields) => (c, fields.foldl avroAssign out, true)
    | some _ => (c, out, false)

variable {lib : ApacheAvro}

theorem avroCodec_untouched (c : AvroSchema) (raw : List UInt8) (out : DecodedEvent) :
    (avroCodec lib).FailureUntouched c raw out := by
  unfold Codec.FailureUntouched avroCodec
  dsimp only
  split
  · exact fun _ => rfl
  · exact fun h => nomatch h
  · exact fun _ => rfl

theorem foldl_avroEvent (ev out : DecodedEvent) (fields : List (String × AvroValue))
    (h : avroEvent ev.seq ev.timestamp ev.source ev.kind ev.payload = .record fields) :
    fields.foldl avroAssign out = ev := by
  obtain rfl := AvroValue.record.inj h
  simp [avroAssign]

theorem avroCodec_used {cfg : RingConfig} {c : AvroSchema} (h : (avroCodec lib).Used cfg c) :
    c = eventSchema := by
  induction h with
  | new => rfl
  | @encode c c' seq ts source kind payload dst bytes _ henc ih =>
    simp only [avroCodec] at henc
    cases hdatum : lib.toAvroDatum c (avroEvent seq ts source kind payload) with
    | error e => simp [hdatum] at henc
    | ok datum =>
      simp only [hdatum, Except.ok.injEq, Prod.mk.injEq] at henc
      rw [← henc.1, ih]
  | encodeFailed _ _ ih => exact ih
  | @decodeInto c raw out _ ih =>
    simp only [avroCodec]
    split <;> exact ih

theorem avroCodec_lossless (h : lib.Documented) : (avroCodec lib).Lossless := by
  intro ev
  obtain ⟨bytes, hto, hfrom⟩ := h.roundTrip _ _
    (accepts_avroEvent ev.seq ev.timestamp ev.source ev.kind ev.payload)
  refine ⟨fun _ => bytes, ?_, fun _ _ _ _ => rfl, ?_⟩
  · intro cfg c dst hc
    refine ⟨c, ?_⟩
    rw [avroCodec_used hc]
    simp only [avroCodec, hto]
  · intro cfg cfg' c out hfits hc
    refine ⟨c, ?_⟩
    rw [avroCodec_used hc]
    simp only [avroCodec, hfrom hfits, avroEvent]
    rw [foldl_avroEvent ev out _ rfl]

end ShmMpsc
