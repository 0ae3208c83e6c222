import ShmMpsc.Lib.Wire
import ShmMpsc.Proto.Avro

/-!
# Avro in binary

A datum without a container: nothing but the values, in the order of the schema.
-/

namespace ShmMpsc

set_option autoImplicit false

namespace Avro

open Reader

def writeLong (n : Int) : List UInt8 := toVarint 10 (zigzag n)

def readLong : Reader Int := unzigzag <$> varint 10

theorem reads_long {n : Int} (hlo : -2 ^ 63 ≤ n) (hhi : n < 2 ^ 63) :
    Reads readLong (writeLong n) n := by
  have hlt : zigzag n < 2 * 2 ^ 63 := zigzag_lt (by omega) (by omega)
  have h := (reads_varint (k := 10) (n := zigzag n) (by omega) (by omega)).map unzigzag
  rwa [unzigzag_zigzag] at h

/-- Bytes after their number. -/
def readBlock : Reader (List UInt8) := readLong >>= fun n => take n.toNat

theorem reads_block {bs : List UInt8} (h : bs.length ≤ presetLimit) :
    Reads readBlock (writeLong bs.length ++ bs) bs := by
  have hlimit : presetLimit < 2 ^ 63 := by decide
  refine (reads_long (by omega) (by omega)).bind ?_
  rw [Int.toNat_natCast]
  exact reads_take bs

mutual

def write : AvroValue → List UInt8
  | .long n => writeLong n.toInt
  | .string s => writeLong (utf8 s).length ++ utf8 s
  | .bytes bs => writeLong bs.length ++ bs
  | .enum idx _ => writeLong idx.toNat
  | .record fields => writeFields fields
  | .other => []

def writeFields : List (String × AvroValue) → List UInt8
  | [] => []
  | (_, v) :: fields => write v ++ writeFields fields

end

mutual

def read : AvroSchema → Reader AvroValue
  | .long => readLong >>= fun n => pure (.long (Int64.ofInt n))
  | .string => readBlock >>= fun bs => lift (fromUtf8 bs) >>= fun s => pure (.string s)
  | .bytes => readBlock >>= fun bs => pure (.bytes bs)
  | .enum _ symbols => readLong >>= fun n =>
    lift symbols[n.toNat]? >>= fun symbol => pure (.enum (UInt32.ofNat n.toNat) symbol)
  | .record _ fields => readFields fields >>= fun values => pure (.record values)

def readFields : List (String × AvroSchema) → Reader (List (String × AvroValue))
  | [] => pure []
  | (name, schema) :: fields =>
    read schema >>= fun v => readFields fields >>= fun values => pure ((name, v) :: values)

end

mutual

theorem reads_write : (schema : AvroSchema) → (v : AvroValue) → schema.accepts v = true →
    (write v).length ≤ presetLimit → Reads (read schema) (write v) v
  | .long, v, h, _ => by
    cases v with
    | long n =>
      rw [read, write]
      refine (reads_long n.le_toInt n.toInt_lt).bind_nil ?_
      rw [Int64.ofInt_toInt]
      exact reads_pure _
    | _ => simp [AvroSchema.accepts] at h
  | .string, v, h, hlen => by
    cases v with
    | string s =>
      rw [write, List.length_append] at hlen
      rw [read, write]
      refine (reads_block (by omega)).bind_nil ?_
      exact (reads_lift (fromUtf8_utf8 s)).bind_nil (reads_pure _)
    | _ => simp [AvroSchema.accepts] at h
  | .bytes, v, h, hlen => by
    cases v with
    | bytes bs =>
      rw [write, List.length_append] at hlen
      rw [read, write]
      exact (reads_block (by omega)).bind_nil (reads_pure _)
    | _ => simp [AvroSchema.accepts] at h
  | .enum name symbols, v, h, _ => by
    cases v with
    | enum idx symbol =>
      have hsymbol : symbols[idx.toNat]? = some symbol := by simpa [AvroSchema.accepts] using h
      have hidx := idx.toNat_lt
      rw [read, write]
      refine (reads_long (by omega) (by omega)).bind_nil ?_
      rw [Int.toNat_natCast, UInt32.ofNat_toNat]
      exact (reads_lift hsymbol).bind_nil (reads_pure _)
    | _ => simp [AvroSchema.accepts] at h
  | .record name fields, v, h, hlen => by
    cases v with
    | record values =>
      rw [AvroSchema.accepts] at h
      rw [write] at hlen
      rw [read, write]
      exact (reads_writeFields fields values h hlen).bind_nil (reads_pure _)
    | _ => simp [AvroSchema.accepts] at h

theorem reads_writeFields : (fields : List (String × AvroSchema)) →
    (values : List (String × AvroValue)) →
    AvroSchema.acceptsFields fields values = true → (writeFields values).length ≤ presetLimit →
    Reads (readFields fields) (writeFields values) values
  | [], values, h, _ => by
    cases values with
    | nil =>
      rw [readFields, writeFields]
      exact reads_pure []
    | cons => simp [AvroSchema.acceptsFields] at h
  | (name, schema) :: fields, values, h, hlen => by
    cases values with
    | nil => simp [AvroSchema.acceptsFields] at h
    | cons value values =>
      obtain ⟨key, v⟩ := value
      simp only [AvroSchema.acceptsFields, Bool.and_eq_true, decide_eq_true_eq] at h
      obtain ⟨⟨rfl, hv⟩, hvalues⟩ := h
      rw [writeFields, List.length_append] at hlen
      rw [readFields, writeFields]
      refine (reads_write schema v hv (by omega)).bind ?_
      exact (reads_writeFields fields values hvalues (by omega)).bind_nil (reads_pure _)

end

end Avro

/-- Avro as it is in binary. -/
def avroBinary : ApacheAvro where
  toAvroDatum := fun schema v =>
    if schema.accepts v then .ok (Avro.write v) else .error "Value does not match schema"
  fromAvroDatum := fun schema raw => (Avro.read schema raw).map Prod.fst

theorem avroBinary_documented : avroBinary.Documented where
  roundTrip := by
    intro schema v h
    refine ⟨Avro.write v, if_pos h, ?_⟩
    intro hlen
    have hread := (Avro.reads_write schema v h hlen).all
    simp only [avroBinary, hread, Option.map_some]

example : Avro.write (avroEvent 1 18446744073709551615 "p" .error [7]) =
    [2, 1, 2, 112, 4, 2, 7] := by
  decide

end ShmMpsc
