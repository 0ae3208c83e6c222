import ShmMpsc.Lib.Utf8
import ShmMpsc.Proto.FlatReads
import ShmMpsc.Proto.Json

/-!
# Reading FlatBuffers on trust

The getters as a release build has them: slices are checked, and a number is copied from where it
is said to be. The decoder keeps to its buffer exactly when the buffer's links do. They do in what
the codec itself encodes, and seldom in what another codec does.
-/

namespace ShmMpsc

set_option autoImplicit false

open Access (wordAt)

namespace FlatWire

variable {α : Type}

/-- `VTable::get`. -/
def readEntry (buf : List UInt8) (loc : Nat) (slot : UInt16) : Access Nat := do
  let _ ← Access.slice buf loc 4
  let vt := vtableLoc buf loc
  let numBytes ← Access.scalar buf 2 vt
  if numBytes < slot.toNat + 2 then return 0 else Access.scalar buf 2 (vt + slot.toNat)

/-- `Table::get`. -/
def readSlot (follow : List UInt8 → Nat → Access α) (buf : List UInt8) (loc : Nat) (slot : UInt16)
    (default : Option α) : Access (Option α) := do
  let o ← readEntry buf loc slot
  if o = 0 then return default else some <$> follow buf (loc + o)

def readLink (buf : List UInt8) (loc : Nat) : Access Nat := do
  let off ← Access.slice buf loc 4
  return loc + ofLE off

def readBlock (buf : List UInt8) (loc : Nat) : Access (List UInt8) := do
  let len ← Access.scalar buf 4 loc
  Access.slice buf (loc + 4) len

def readStr (text : List UInt8 → String) (buf : List UInt8) (loc : Nat) : Access String := do
  let loc ← readLink buf loc
  text <$> readBlock buf loc

theorem readEntry_exactly (buf : List UInt8) (loc : Nat) (slot : UInt16) :
    (readEntry buf loc slot).Exactly buf.length (EntryInside buf loc slot)
      (voffset buf loc slot) := by
  refine (Access.exactly_slice buf loc 4).bind fun _ => ?_
  refine (Access.exactly_scalar buf 2 (vtableLoc buf loc)).bind fun _ => ?_
  unfold voffset
  split
  · rename_i hout
    exact (Access.exactly_pure _ _).congr (by simp [Nat.not_le.mpr hout])
  · rename_i hin
    exact (Access.exactly_scalar _ _ _).congr (by simp [Nat.not_lt.mp hin])

theorem follows_readSlot {follow : List UInt8 → Nat → Access α} {fits : List UInt8 → Nat → Prop}
    {value : List UInt8 → Nat → α}
    (h : ∀ buf loc, (follow buf loc).Exactly buf.length (fits buf loc) (value buf loc)) :
    Follows (readSlot follow) fits value := by
  intro buf loc slot default
  refine (readEntry_exactly buf loc slot).bind fun _ => ?_
  unfold fieldOf
  split
  · rename_i hzero
    exact (Access.exactly_pure _ _).congr (by simp [hzero])
  · rename_i hpos
    exact ((h buf _).map some).congr (by simp [hpos])

theorem readLink_exactly (buf : List UInt8) (loc : Nat) :
    (readLink buf loc).Exactly buf.length (LinkFits buf loc) (link buf loc) :=
  (Access.exactly_slice buf loc 4).map fun off => loc + ofLE off

theorem readBlock_exactly (buf : List UInt8) (loc : Nat) :
    (readBlock buf loc).Exactly buf.length (BlockFits buf loc) (blockAt buf loc) := by
  have hread := (Access.exactly_scalar buf 4 loc).bind fun _ =>
    Access.exactly_slice buf (loc + 4) (wordAt buf loc 4)
  refine hread.congr ?_
  unfold BlockFits
  omega

end FlatWire

open FlatWire in
/-- FlatBuffers as they are read. -/
def flatTables : FlatTables where
  getU64 := readSlot fun buf loc => UInt64.ofNat <$> Access.scalar buf 8 loc
  getU8 := readSlot fun buf loc => UInt8.ofNat <$> Access.scalar buf 1 loc
  getString := readSlot (readStr fun bytes => (fromUtf8 bytes).getD "")
  getVector := readSlot readLink
  bytes := readBlock
  fromUtf8Unchecked := fun bytes => (fromUtf8 bytes).getD ""

open FlatWire in
theorem flatTables_documented : flatTables.Documented where
  u64 := follows_readSlot fun buf loc => (Access.exactly_scalar buf 8 loc).map UInt64.ofNat
  u8 := follows_readSlot fun buf loc => (Access.exactly_scalar buf 1 loc).map UInt8.ofNat
  string := follows_readSlot fun buf loc =>
    (readLink_exactly buf loc).bind fun _ => (readBlock_exactly buf _).map _
  vector := follows_readSlot readLink_exactly
  bytes := readBlock_exactly
  text := fun bytes s h => by simp [flatTables, h]

/-- Beyond the length of the first offset nothing is checked: the buffer itself must be right. -/
theorem flatDecode_safe_iff {lib : FlatTables} (h : lib.Documented) (raw : List UInt8)
    (out : DecodedEvent) :
    (flatDecode lib raw out).Safe raw.length ↔ raw.length < 4 ∨ Linked raw :=
  (flatDecode_exactly h raw out).safe_iff

theorem flatDecode_safe_own : (flatDecode flatTables
    [20, 0, 0, 0, 0, 0, 14, 0, 12, 0, 0, 0, 0, 0, 8, 0, 0, 0, 4, 0, 14, 0, 0, 0,
      8, 0, 0, 0, 12, 0, 0, 0, 1, 0, 0, 0, 7, 0, 0, 0, 1, 0, 0, 0, 112, 0, 0, 0]
        .empty).Safe 48 := by
  apply (flatDecode_safe_iff flatTables_documented _ _).mpr
  unfold Linked FieldInside EntryInside ScalarFits ObjectFits LinkFits BlockFits
  decide

/-- A JSON event starts with what would be an offset of over a gigabyte. -/
theorem flat_json_panics : flatTables.Documented ∧ ∃ raw,
    (jsonCodec compactJson).encode () 0 7 "producer-0" .metric [] [] = .ok ((), raw) ∧
    raw.length ≤ Presets.SMALL.maxLen.toNat ∧
    (flatDecode flatTables raw .empty).result = none ∧
    ¬ (flatDecode flatTables raw .empty).Safe raw.length := by
  refine ⟨flatTables_documented, utf8 ("\x7b\"seq\":0,\"timestamp\":7,\"source\":\"producer-0\"," ++
    "\"kind\":\"metric\",\"payload\":\"\"\x7d"), ?_, ?_, ?_, ?_⟩
  · simp only [jsonCodec, compactJson, EventOut.serialize]
    decide
  · decide
  · decide
  · decide

end ShmMpsc
