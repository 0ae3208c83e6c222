import Mathlib.Data.List.Forall2
import ShmMpsc.Proto.Json

/-!
# The CBOR codec

`ciborium` is a parameter: a struct is a map of named fields, and a field is asked for as a
value of its type.
-/

namespace ShmMpsc

set_option autoImplicit false

inductive CborField where
  | u64 (n : UInt64)
  | text (s : String)
  | variant (name : String)
  | bytes (bs : List UInt8)
  deriving DecidableEq, Repr

/-- `ciborium` as a serializer and a deserializer. -/
structure Ciborium where
  Item : Type
  intoWriter : List (String × CborField) → List UInt8
  fromReader : List UInt8 → Option (List (String × Item))
  asU64 : Item → Option UInt64
  asString : Item → Option String
  asVariant : Item → Option String
  asByteBuf : Item → Option (List UInt8)

/-- The item is read as the field it was written from. -/
def Ciborium.Holds (lib : Ciborium) (item : lib.Item) : CborField → Prop
  | .u64 n => lib.asU64 item = some n
  | .text s => lib.asString item = some s
  | .variant name => lib.asVariant item = some name
  | .bytes bs => lib.asByteBuf item = some bs

/-- The fields of a struct have different names. These and the names of variants are short, so
that the deserializer has room for them. -/
structure CborStruct (fields : List (String × CborField)) : Prop where
  distinct : (fields.map Prod.fst).Nodup
  short : ∀ field ∈ fields, (utf8 field.1).length < 256
  variants : ∀ field ∈ fields, ∀ name, field.2 = .variant name → (utf8 name).length < 256

/-- A struct is read back field by field. -/
structure Ciborium.Documented (lib : Ciborium) : Prop where
  roundTrip : ∀ fields, CborStruct fields → (lib.intoWriter fields).length ≤ presetLimit →
    ∃ items, lib.fromReader (lib.intoWriter fields) = some items ∧
      List.Forall₂ (fun field item => item.1 = field.1 ∧ lib.Holds item.2 field.2) fields items

namespace Cbor

structure EventOut where
  seq : UInt64
  timestamp : UInt64
  source : String
  kind : Kind
  payload : List UInt8

def EventOut.serialize (ev : EventOut) : List (String × CborField) :=
  [("seq", .u64 ev.seq), ("timestamp", .u64 ev.timestamp), ("source", .text ev.source),
    ("kind", .variant ev.kind.name), ("payload", .bytes ev.payload)]

theorem EventOut.serialize_struct (ev : EventOut) : CborStruct ev.serialize where
  distinct := by simp [serialize]
  short := by
    intro field hfield
    have hname : field.1 ∈ ["seq", "timestamp", "source", "kind", "payload"] :=
      List.mem_map_of_mem (f := Prod.fst) hfield
    exact (by decide : ∀ name ∈ ["seq", "timestamp", "source", "kind", "payload"],
      (utf8 name).length < 256) _ hname
  variants := by
    intro field hfield name hvariant
    obtain rfl : name = ev.kind.name := by
      simp only [serialize, List.mem_cons, List.not_mem_nil, or_false] at hfield
      rcases hfield with rfl | rfl | rfl | rfl | rfl <;> cases hvariant
      rfl
    cases ev.kind <;> decide

structure EventIn where
  seq : UInt64
  timestamp : UInt64
  source : String
  kind : Kind
  payload : List UInt8

/-- The value of a field that is there once. -/
def fieldOnce {ι : Type} (name : String) (items : List (String × ι)) : Option ι :=
  match items.filter fun item => item.1 = name with
  | [(_, v)] => some v
  | _ => none

def EventIn.deserialize (lib : Ciborium) (items : List (String × lib.Item)) : Option EventIn := do
  return { seq := ← lib.asU64 (← fieldOnce "seq" items),
           timestamp := ← lib.asU64 (← fieldOnce "timestamp" items),
           source := ← lib.asString (← fieldOnce "source" items),
           kind := ← Kind.ofName (← lib.asVariant (← fieldOnce "kind" items)),
           payload := ← lib.asByteBuf (← fieldOnce "payload" items) }

variable {lib : Ciborium}

theorem deserialize_serialize (h : lib.Documented) (ev : EventOut)
    (hfits : (lib.intoWriter ev.serialize).length ≤ presetLimit) :
    (lib.fromReader (lib.intoWriter ev.serialize)).bind (EventIn.deserialize lib) =
      some ⟨ev.seq, ev.timestamp, ev.source, ev.kind, ev.payload⟩ := by
  obtain ⟨items, hread, hitems⟩ := h.roundTrip _ ev.serialize_struct hfits
  rw [hread, Option.bind_some]
  simp only [EventOut.serialize, List.forall₂_cons_left_iff, List.forall₂_nil_left_iff,
    Ciborium.Holds] at hitems
  obtain ⟨_, _, ⟨hn1, h1⟩, ⟨_, _, ⟨hn2, h2⟩, ⟨_, _, ⟨hn3, h3⟩, ⟨_, _, ⟨hn4, h4⟩,
    ⟨_, _, ⟨hn5, h5⟩, rfl, rfl⟩, rfl⟩, rfl⟩, rfl⟩, rfl⟩ := hitems
  simp [EventIn.deserialize, fieldOnce, hn1, hn2, hn3, hn4, hn5, h1, h2, h3, h4, h5]

end Cbor

/-- `CborCodec`. -/
def cborCodec (lib : Ciborium) : Codec Unit where
  new := fun _ => ()
  encode := fun c seq ts source kind payload dst =>
    let ev : Cbor.EventOut :=
      { seq := seq, timestamp := ts, source := source, kind := kind, payload := payload }
    .ok (c, dst ++ lib.intoWriter ev.serialize)
  decodeInto := fun c raw out =>
    match (lib.fromReader raw).bind (Cbor.EventIn.deserialize lib) with
    | none => (c, out, false)
    | some ev => (c, { out with seq := ev.seq, timestamp := ev.timestamp, source := ev.source,
                                kind := ev.kind, payload := ev.payload }, true)

variable {lib : Ciborium}

theorem cborCodec_untouched (c : Unit) (raw : List UInt8) (out : DecodedEvent) :
    (cborCodec lib).FailureUntouched c raw out := by
  unfold Codec.FailureUntouched cborCodec
  dsimp only
  cases (lib.fromReader raw).bind (Cbor.EventIn.deserialize lib) with
  | none => exact fun _ => rfl
  | some ev => exact fun h => nomatch h

theorem cborCodec_lossless (h : lib.Documented) : (cborCodec lib).Lossless := by
  intro ev
  refine ⟨fun _ => lib.intoWriter
    (Cbor.EventOut.serialize ⟨ev.seq, ev.timestamp, ev.source, ev.kind, ev.payload⟩),
    fun cfg c dst _ => ⟨_, rfl⟩, fun _ _ _ _ => rfl, ?_⟩
  intro cfg cfg' c out hfits _
  refine ⟨c, ?_⟩
  simp only [cborCodec, Cbor.deserialize_serialize h _ hfits]

end ShmMpsc
