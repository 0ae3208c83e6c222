import ShmMpsc.Lib.Wire
import ShmMpsc.Proto.Protobuf

/-!
# Protocol Buffers on the wire

The message of an event in proto3: numbers as varints, strings and bytes with their lengths, and
no field that has its default value.
-/

namespace ShmMpsc

set_option autoImplicit false

namespace Protobuf

open Reader

inductive WireValue where
  | varint (n : UInt64)
  | bytes (bs : List UInt8)
  deriving DecidableEq, Repr

def WireValue.isDefault : WireValue → Bool
  | .varint n => n = 0
  | .bytes bs => bs = []

def writeField (field : Nat × WireValue) : List UInt8 :=
  match field.2 with
  | .varint n => toVarint 10 (8 * field.1) ++ toVarint 10 n.toNat
  | .bytes bs => toVarint 10 (8 * field.1 + 2) ++ (toVarint 10 bs.length ++ bs)

def readField : Reader (Nat × WireValue) :=
  varint 10 >>= fun key =>
    if key % 8 = 0 then
      varint 10 >>= fun n =>
        if n < 2 ^ 64 then pure (key / 8, .varint (UInt64.ofNat n)) else lift none
    else if key % 8 = 2 then
      varint 10 >>= fun n => take n >>= fun bs => pure (key / 8, .bytes bs)
    else lift none

theorem reads_writeField {number : Nat} (hnumber : number < 2 ^ 29) {v : WireValue}
    (hlen : (writeField (number, v)).length ≤ presetLimit) :
    Reads readField (writeField (number, v)) (number, v) := by
  have hlimit : presetLimit < 2 ^ 64 := by decide
  cases v with
  | varint n =>
    refine (reads_varint (by omega) (by omega)).bind ?_
    rw [if_pos (by omega)]
    have hn := n.toNat_lt
    refine (reads_varint (by omega) (by omega)).bind_nil ?_
    rw [if_pos hn, UInt64.ofNat_toNat, Nat.mul_div_cancel_left number (by omega)]
    exact reads_pure _
  | bytes bs =>
    simp only [writeField, List.length_append] at hlen
    refine (reads_varint (by omega) (by omega)).bind ?_
    rw [if_neg (by omega), if_pos (by omega)]
    refine (reads_varint (by omega) (by omega)).bind ?_
    refine (reads_take bs).bind_nil ?_
    have hkey : (8 * number + 2) / 8 = number := by omega
    rw [hkey]
    exact reads_pure _

theorem writeField_ne_nil (field : Nat × WireValue) : writeField field ≠ [] := by
  unfold writeField
  split <;> simp [toVarint_ne_nil]

/-! ### The message -/

def fieldsOf (ev : PbEvent) : List (Nat × WireValue) :=
  [(1, .varint ev.seq), (2, .varint ev.timestamp), (3, .bytes (utf8 ev.source)),
    (4, .varint ev.kind.toInt64.toUInt64), (5, .bytes ev.payload)]

/-- A field that is there again replaces what it was; one that is unknown is skipped. -/
def merge (ev : PbEvent) : Nat × WireValue → Option PbEvent
  | (1, .varint n) => some { ev with seq := n }
  | (2, .varint n) => some { ev with timestamp := n }
  | (3, .bytes bs) => (fromUtf8 bs).map fun source => { ev with source := source }
  | (4, .varint n) => some { ev with kind := n.toInt64.toInt32 }
  | (5, .bytes bs) => some { ev with payload := bs }
  | (number, _) => if number ∈ [1, 2, 3, 4, 5] then none else some ev

def encode (ev : PbEvent) : List UInt8 :=
  ((fieldsOf ev).filter fun field => !field.2.isDefault).flatMap writeField

def decode (raw : List UInt8) : Option PbEvent :=
  (many readField raw.length raw).bind fun fields => fields.foldlM merge .empty

/-- A field that is left out must have its default already. -/
theorem foldlM_merge {ev : PbEvent} (ev' : PbEvent) {field : Nat × WireValue}
    {fields : List (Nat × WireValue)} (hmerge : merge ev field = some ev')
    (hdefault : field.2.isDefault = true → ev' = ev) :
    ((field :: fields).filter fun field => !field.2.isDefault).foldlM merge ev =
      (fields.filter fun field => !field.2.isDefault).foldlM merge ev' := by
  cases h : field.2.isDefault with
  | true => rw [List.filter_cons_of_neg (by simp [h]), hdefault h]
  | false =>
    rw [List.filter_cons_of_pos (by simp [h]), List.foldlM_cons, hmerge]
    rfl

theorem utf8_eq_nil {s : String} (h : utf8 s = []) : s = "" := by
  have hs := fromUtf8_utf8 s
  rw [h] at hs
  have hempty : fromUtf8 [] = some "" := by decide
  rw [hempty] at hs
  exact (Option.some.inj hs).symm

theorem toInt32_toUInt64 (k : Int32) : k.toInt64.toUInt64.toInt64.toInt32 = k := by
  simp

theorem foldlM_fieldsOf (ev : PbEvent) :
    ((fieldsOf ev).filter fun field => !field.2.isDefault).foldlM merge .empty = some ev := by
  obtain ⟨seq, timestamp, source, kind, payload⟩ := ev
  rw [fieldsOf, foldlM_merge ⟨seq, 0, "", 0, []⟩ rfl, foldlM_merge ⟨seq, timestamp, "", 0, []⟩ rfl,
    foldlM_merge ⟨seq, timestamp, source, 0, []⟩, foldlM_merge ⟨seq, timestamp, source, kind, []⟩,
    foldlM_merge ⟨seq, timestamp, source, kind, payload⟩ rfl]
  · rfl
  · simp [WireValue.isDefault]
  · simp [merge]
  · intro h
    have hkind : kind = 0 := by
      rw [← toInt32_toUInt64 kind]
      simp only [WireValue.isDefault, decide_eq_true_eq] at h
      rw [h]
      rfl
    rw [hkind]
  · simp [merge]
  · intro h
    have hsource : source = "" := utf8_eq_nil (by simpa [WireValue.isDefault] using h)
    rw [hsource]
  · simp [WireValue.isDefault]
  · simp [WireValue.isDefault, PbEvent.empty]

theorem decode_encode (ev : PbEvent) (h : (encode ev).length ≤ presetLimit) :
    decode (encode ev) = some ev := by
  have hmany : many readField (encode ev).length (encode ev) =
      some ((fieldsOf ev).filter fun field => !field.2.isDefault) := by
    refine many_flatMap ?_ (fun field _ => writeField_ne_nil field) (Nat.le_refl _)
    intro field hfield
    have hlen : (writeField field).length ≤ presetLimit :=
      Nat.le_trans (length_le_flatMap hfield) h
    have hnumber : field.1 < 2 ^ 29 := by
      have hmem := (List.mem_filter.mp hfield).1
      simp only [fieldsOf, List.mem_cons, List.not_mem_nil, or_false] at hmem
      rcases hmem with rfl | rfl | rfl | rfl | rfl <;> simp
    exact reads_writeField hnumber hlen
  rw [decode, hmany, Option.bind_some, foldlM_fieldsOf]

end Protobuf

/-- Protocol Buffers as they are on the wire. -/
def protobuf : Prost where
  encode := Protobuf.encode
  decode := Protobuf.decode

theorem protobuf_documented : protobuf.Documented where
  roundTrip := Protobuf.decode_encode

example : protobuf.encode ⟨1, 300, "p", 2, [7]⟩ = [8, 1, 16, 172, 2, 26, 1, 112,
      32, 2, 42, 1, 7] := by
  decide

end ShmMpsc
