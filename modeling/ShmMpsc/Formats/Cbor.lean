import ShmMpsc.Lib.Wire
import ShmMpsc.Proto.Cbor

/-!
# CBOR

A map of text keys, whose values are numbers, texts and byte strings. A data item begins with a
head: its kind and a number, in as few bytes as it takes.
-/

namespace ShmMpsc

set_option autoImplicit false

namespace Cbor

open Reader

def writeHead (major n : Nat) : List UInt8 :=
  if n < 24 then [UInt8.ofNat (32 * major + n)]
  else if n < 256 then UInt8.ofNat (32 * major + 24) :: toBE 1 n
  else if n < 65536 then UInt8.ofNat (32 * major + 25) :: toBE 2 n
  else if n < 4294967296 then UInt8.ofNat (32 * major + 26) :: toBE 4 n
  else UInt8.ofNat (32 * major + 27) :: toBE 8 n

/-- The number after the first byte's low bits. -/
def readArgument (info : Nat) : Reader Nat :=
  if info < 24 then pure info
  else if info = 24 then wordBE 1
  else if info = 25 then wordBE 2
  else if info = 26 then wordBE 4
  else if info = 27 then wordBE 8
  else lift none

def readHead : Reader (Nat × Nat) :=
  byte >>= fun b => readArgument (b.toNat % 32) >>= fun n => pure (b.toNat / 32, n)

theorem reads_first {major info n : Nat} {bytes : List UInt8} (hmajor : major < 8)
    (hinfo : info < 32) (h : Reads (readArgument info) bytes n) :
    Reads readHead (UInt8.ofNat (32 * major + info) :: bytes) (major, n) := by
  have hb : (UInt8.ofNat (32 * major + info)).toNat = 32 * major + info := by
    rw [UInt8.toNat_ofNat']
    omega
  have hmod : (32 * major + info) % 32 = info := by omega
  have hdiv : (32 * major + info) / 32 = major := by omega
  refine reads_byte_bind ?_
  rw [hb, hmod, hdiv]
  exact h.bind_nil (reads_pure _)

theorem reads_head {major n : Nat} (hmajor : major < 8) (hn : n < 2 ^ 64) :
    Reads readHead (writeHead major n) (major, n) := by
  unfold writeHead
  split
  · rename_i h
    refine reads_first hmajor (by omega) ?_
    rw [readArgument, if_pos h]
    exact reads_pure n
  · split
    · exact reads_first hmajor (by omega) (reads_wordBE (by omega))
    · split
      · exact reads_first hmajor (by omega) (reads_wordBE (by omega))
      · split
        · exact reads_first hmajor (by omega) (reads_wordBE (by omega))
        · exact reads_first hmajor (by omega) (reads_wordBE (by omega))

inductive Item where
  | uint (n : Nat)
  | bytes (bs : List UInt8)
  | text (s : String)

def writeText (s : String) : List UInt8 := writeHead 3 (utf8 s).length ++ utf8 s

def writeField : CborField → List UInt8
  | .u64 n => writeHead 0 n.toNat
  | .text s => writeText s
  | .variant name => writeText name
  | .bytes bs => writeHead 2 bs.length ++ bs

def readItem : Reader Item :=
  readHead >>= fun (major, n) =>
    if major = 0 then pure (.uint n)
    else if major = 2 then take n >>= fun bs => pure (.bytes bs)
    else if major = 3 then take n >>= fun bs => lift (fromUtf8 bs) >>= fun s => pure (.text s)
    else lift none

/-- The item that a field is written as. -/
def itemOf : CborField → Item
  | .u64 n => .uint n.toNat
  | .text s => .text s
  | .variant name => .text name
  | .bytes bs => .bytes bs

theorem reads_text {s : String} (h : (writeText s).length ≤ presetLimit) :
    Reads readItem (writeText s) (.text s) := by
  have hlimit : presetLimit < 2 ^ 64 := by decide
  rw [writeText, List.length_append] at h
  refine (reads_head (by omega) (by omega)).bind ?_
  refine (reads_take (utf8 s)).bind_nil ?_
  exact (reads_lift (fromUtf8_utf8 s)).bind_nil (reads_pure _)

theorem reads_field {field : CborField} (h : (writeField field).length ≤ presetLimit) :
    Reads readItem (writeField field) (itemOf field) := by
  have hlimit : presetLimit < 2 ^ 64 := by decide
  cases field with
  | u64 n => exact (reads_head (by omega) n.toNat_lt).bind_nil (reads_pure _)
  | text s => exact reads_text h
  | variant name => exact reads_text h
  | bytes bs =>
    rw [writeField, List.length_append] at h
    refine (reads_head (by omega) (by omega)).bind ?_
    exact (reads_take bs).bind_nil (reads_pure _)

def writeEntry (entry : String × CborField) : List UInt8 := writeText entry.1 ++ writeField entry.2

/-- A key has to be a text. -/
def readEntry : Reader (String × Item) :=
  readItem >>= fun key =>
    match key with
    | .text s => readItem >>= fun v => pure (s, v)
    | _ => lift none

theorem reads_entry {entry : String × CborField} (h : (writeEntry entry).length ≤ presetLimit) :
    Reads readEntry (writeEntry entry) (entry.1, itemOf entry.2) := by
  rw [writeEntry, List.length_append] at h
  refine (reads_text (by omega)).bind ?_
  exact (reads_field (by omega)).bind_nil (reads_pure _)

def write (fields : List (String × CborField)) : List UInt8 :=
  writeHead 5 fields.length ++ fields.flatMap writeEntry

def read : Reader (List (String × Item)) :=
  readHead >>= fun (major, n) => if major = 5 then times readEntry n else lift none

theorem writeHead_length_pos (major n : Nat) : 1 ≤ (writeHead major n).length := by
  unfold writeHead
  repeat' split
  all_goals simp

theorem writeEntry_length_pos (entry : String × CborField) : 1 ≤ (writeEntry entry).length := by
  have hkey := writeHead_length_pos 3 (utf8 entry.1).length
  rw [writeEntry, writeText, List.length_append, List.length_append]
  omega

theorem length_le_writeEntries (fields : List (String × CborField)) :
    fields.length ≤ (fields.flatMap writeEntry).length := by
  induction fields with
  | nil => simp
  | cons entry fields ih =>
    have hentry := writeEntry_length_pos entry
    rw [List.flatMap_cons, List.length_append, List.length_cons]
    omega

theorem reads_write {fields : List (String × CborField)} (h : (write fields).length ≤ presetLimit) :
    Reads read (write fields) (fields.map fun entry => (entry.1, itemOf entry.2)) := by
  have hlimit : presetLimit < 2 ^ 64 := by decide
  have hcount := length_le_writeEntries fields
  rw [write, List.length_append] at h
  refine (reads_head (by omega) (by omega)).bind ?_
  refine reads_times ?_
  intro entry hentry
  apply reads_entry
  have hle := length_le_flatMap (w := writeEntry) hentry
  omega

end Cbor

/-- CBOR as it is in bytes. -/
def cborBytes : Ciborium where
  Item := Cbor.Item
  intoWriter := Cbor.write
  fromReader := fun raw => (Cbor.read raw).map Prod.fst
  asU64 := fun
    | .uint n => some (UInt64.ofNat n)
    | _ => none
  asString := fun
    | .text s => some s
    | _ => none
  asVariant := fun
    | .text s => some s
    | _ => none
  asByteBuf := fun
    | .bytes bs => some bs
    | _ => none

theorem cborBytes_documented : cborBytes.Documented where
  roundTrip := by
    intro fields hstruct h
    refine ⟨fields.map fun entry => (entry.1, Cbor.itemOf entry.2), ?_, ?_⟩
    · simp only [cborBytes, (Cbor.reads_write h).all, Option.map_some]
    · clear h hstruct
      induction fields with
      | nil => exact .nil
      | cons entry fields ih =>
        obtain ⟨name, field⟩ := entry
        refine .cons ⟨rfl, ?_⟩ ih
        cases field <;> simp [Ciborium.Holds, Cbor.itemOf, cborBytes]

end ShmMpsc
