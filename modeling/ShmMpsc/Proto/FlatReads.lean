import ShmMpsc.Proto.Flat

/-!
# What the FlatBuffers decoder reads

Where the links of a table lead, and the decoder with getters that follow them: it keeps to its
buffer exactly when the links do.
-/

namespace ShmMpsc

set_option autoImplicit false

open Access (wordAt)

/-! ### The links of a table -/

section Links

variable (raw : List UInt8)

/-- `(loc as SOffsetT - off) as usize`, where the difference wraps. -/
def vtableLoc (loc : Nat) : Nat :=
  ((UInt32.ofNat loc).toInt32 - (UInt32.ofNat (wordAt raw loc 4)).toInt32).toInt64.toUInt64.toNat

theorem vtableLoc_eq (loc : Nat) :
    (vtableLoc raw loc : Int) = ((loc : Int) - wordAt raw loc 4).bmod (2 ^ 32) % 2 ^ 64 := by
  have hint (x : Int64) : (x.toUInt64.toNat : Int) = x.toInt % 2 ^ 64 := by
    have hx : x.toInt = x.toBitVec.toInt := rfl
    have hnat : x.toUInt64.toNat = x.toBitVec.toNat := rfl
    have hlt := x.toBitVec.isLt
    rw [hx, hnat, BitVec.toInt_eq_toNat_cond]
    split <;> omega
  have hsize : Int32.size = 2 ^ 32 := rfl
  rw [vtableLoc, hint, Int32.toInt_toInt64, Int32.toInt_sub, UInt32.toInt32_ofNat',
    UInt32.toInt32_ofNat', Int32.toInt_ofNat', Int32.toInt_ofNat', hsize, Int.bmod_sub_bmod,
    Int.sub_bmod_bmod]

/-- Where the slot is from the table on, or zero. -/
def voffset (loc : Nat) (slot : UInt16) : Nat :=
  if wordAt raw (vtableLoc raw loc) 2 < slot.toNat + 2 then 0
  else wordAt raw (vtableLoc raw loc + slot.toNat) 2

/-- The table's link to its vtable, the vtable's size and, if it goes that far, the slot's entry. -/
def EntryInside (loc : Nat) (slot : UInt16) : Prop :=
  loc + 4 ≤ raw.length ∧ vtableLoc raw loc + 2 ≤ raw.length ∧
    (slot.toNat + 2 ≤ wordAt raw (vtableLoc raw loc) 2 →
      vtableLoc raw loc + slot.toNat + 2 ≤ raw.length)

/-- The entry, and what it leads to if the slot is there. -/
def FieldInside (fits : List UInt8 → Nat → Prop) (loc : Nat) (slot : UInt16) : Prop :=
  EntryInside raw loc slot ∧ (voffset raw loc slot ≠ 0 → fits raw (loc + voffset raw loc slot))

def ScalarFits (n loc : Nat) : Prop := loc + n ≤ raw.length

def link (loc : Nat) : Nat := loc + wordAt raw loc 4

def LinkFits (loc : Nat) : Prop := loc + 4 ≤ raw.length

/-- The length of a string or a vector, and so many bytes. -/
def BlockFits (loc : Nat) : Prop := loc + 4 + wordAt raw loc 4 ≤ raw.length

def blockAt (loc : Nat) : List UInt8 := (raw.drop (loc + 4)).take (wordAt raw loc 4)

def ObjectFits (loc : Nat) : Prop := LinkFits raw loc ∧ BlockFits raw (link raw loc)

/-- All the links that the decoder follows end inside `raw`. -/
def Linked : Prop :=
  FieldInside raw (ScalarFits · 8) (wordAt raw 0 4) SEQ ∧
  FieldInside raw (ScalarFits · 8) (wordAt raw 0 4) TS ∧
  FieldInside raw ObjectFits (wordAt raw 0 4) SOURCE ∧
  FieldInside raw (ScalarFits · 1) (wordAt raw 0 4) KIND ∧
  FieldInside raw ObjectFits (wordAt raw 0 4) PAYLOAD

end Links

/-- The slot, read as `value` from where it is. -/
def fieldOf {α : Type} (value : List UInt8 → Nat → α) (raw : List UInt8) (loc : Nat) (slot : UInt16)
    (default : Option α) : Option α :=
  if voffset raw loc slot = 0 then default else some (value raw (loc + voffset raw loc slot))

/-- `Table::get` for a type that is read as `value`. Where the links do not stay inside, it panics
or it reads elsewhere. -/
def Follows {α : Type} (get : List UInt8 → Nat → UInt16 → Option α → Access (Option α))
    (fits : List UInt8 → Nat → Prop) (value : List UInt8 → Nat → α) : Prop :=
  ∀ raw loc slot default, (get raw loc slot default).Exactly raw.length
    (FieldInside raw fits loc slot) (fieldOf value raw loc slot default)

def u64At (raw : List UInt8) (loc : Nat) : UInt64 := UInt64.ofNat (wordAt raw loc 8)

def u8At (raw : List UInt8) (loc : Nat) : UInt8 := UInt8.ofNat (wordAt raw loc 1)

def FlatTables.stringAt (lib : FlatTables) (raw : List UInt8) (loc : Nat) : String :=
  lib.fromUtf8Unchecked (blockAt raw (link raw loc))

/-- The crate follows offsets and does not validate them. -/
structure FlatTables.Documented (lib : FlatTables) : Prop where
  u64 : Follows lib.getU64 (ScalarFits · 8) u64At
  u8 : Follows lib.getU8 (ScalarFits · 1) u8At
  string : Follows lib.getString ObjectFits lib.stringAt
  vector : Follows lib.getVector LinkFits link
  bytes : ∀ raw loc, (lib.bytes raw loc).Exactly raw.length (BlockFits raw loc) (blockAt raw loc)
  text : ∀ bytes s, fromUtf8 bytes = some s → lib.fromUtf8Unchecked bytes = s

/-! ### The decoder -/

variable {lib : FlatTables}

/-- What the decoder makes of a buffer whose links stay inside. -/
def linkedEvent (lib : FlatTables) (raw : List UInt8) (out : DecodedEvent) : DecodedEvent × Bool :=
  let root := wordAt raw 0 4
  let out := { out with
    seq := (fieldOf u64At raw root SEQ (some 0)).getD 0
    timestamp := (fieldOf u64At raw root TS (some 0)).getD 0
    source := (fieldOf lib.stringAt raw root SOURCE (some "")).getD ""
    kind := kindFromU8 ((fieldOf u8At raw root KIND (some 0)).getD 0) }
  match fieldOf link raw root PAYLOAD none with
  | none => (out, false)
  | some payload => ({ out with payload := blockAt raw payload }, true)

theorem fieldInside_object {raw : List UInt8} {loc : Nat} {slot : UInt16} :
    FieldInside raw ObjectFits loc slot ↔ FieldInside raw LinkFits loc slot ∧
      ∀ v, fieldOf link raw loc slot none = some v → BlockFits raw v := by
  unfold FieldInside fieldOf ObjectFits
  by_cases hzero : voffset raw loc slot = 0
  · simp [hzero]
  · simp [hzero, and_assoc]

theorem flatDecode_exactly (h : lib.Documented) (raw : List UInt8) (out : DecodedEvent) :
    (flatDecode lib raw out).Exactly raw.length (raw.length < 4 ∨ Linked raw)
      (if raw.length < 4 then (out, false) else linkedEvent lib raw out) := by
  unfold flatDecode
  split
  · rename_i hshort
    exact (Access.exactly_pure _ _).congr (by simp [hshort])
  · rename_i hshort
    have hfour : 0 + 4 ≤ raw.length := by omega
    refine Access.Exactly.congr (P := 0 + 4 ≤ raw.length ∧ Linked raw) ?_
      (by simp only [hfour, hshort, true_and, false_or])
    refine (Access.exactly_slice raw 0 4).bind fun _ => ?_
    dsimp only
    refine (h.u64 raw (wordAt raw 0 4) SEQ (some 0)).bind fun _ => ?_
    refine (h.u64 raw (wordAt raw 0 4) TS (some 0)).bind fun _ => ?_
    refine (h.string raw (wordAt raw 0 4) SOURCE (some "")).bind fun _ => ?_
    refine (h.u8 raw (wordAt raw 0 4) KIND (some 0)).bind fun _ => ?_
    rw [fieldInside_object]
    refine (h.vector raw (wordAt raw 0 4) PAYLOAD none).bind fun _ => ?_
    unfold linkedEvent
    dsimp only
    cases fieldOf link raw (wordAt raw 0 4) PAYLOAD none with
    | none => exact (Access.exactly_pure _ _).congr (by simp)
    | some v =>
      -- the vector's length is looked at only now
      apply Access.Exactly.congr
      · exact (h.bytes raw v).bind fun _ => Access.exactly_pure _ _
      · simp

end ShmMpsc
