import ShmMpsc.Formats.Flat
import ShmMpsc.Formats.FlatReads

/-!
# FlatBuffers of one's own

In what the builder lays out all links stay inside, so that there the trust is justified: the
getters find what was pushed, and the decoder reads the event that was encoded.
-/

namespace ShmMpsc

set_option autoImplicit false

open Access (wordAt)

namespace FlatWire

variable {buf bs raw : List UInt8} {r k v : Nat} {locs : List (UInt16 × Nat)} {object start : Nat}
  {slot : UInt16} {loc : Nat}

/-! ### Words and blocks that stand before the end -/

theorem Ends.inside (h : Ends buf r bs) : buf.length - r + bs.length ≤ buf.length := by
  have hle := h.le
  obtain ⟨back, _, hr⟩ := h
  omega

theorem wordAt_of_slice {a : Nat} (h : slice buf a k = some (toLE k v)) (hv : v < 256 ^ k) :
    wordAt buf a k = v := by
  obtain ⟨_, htake⟩ := slice_eq_some_iff.mp h
  rw [wordAt, htake, ofLE_toLE_of_lt hv]

theorem Ends.wordAt_eq (h : Ends buf r (toLE k v)) (hv : v < 256 ^ k) :
    wordAt buf (buf.length - r) k = v := wordAt_of_slice (h.slice (toLE_length k v)) hv

theorem Ends.length_block_le (h : Ends buf r (block bs)) : bs.length + 4 ≤ r := by
  obtain ⟨back, _, hr⟩ := h
  rw [block, List.length_append, toLE_length] at hr
  omega

theorem Ends.blockAt_eq (h : Ends buf r (block bs)) (hlen : bs.length < 256 ^ 4) :
    blockAt buf (buf.length - r) = bs := by
  have hle := h.le
  have hroom := h.length_block_le
  have hright := h.right.slice (n := bs.length) rfl
  have hat : buf.length - (r - (toLE 4 bs.length).length) = buf.length - r + 4 := by
    rw [toLE_length]
    omega
  rw [hat] at hright
  rw [blockAt, h.left.wordAt_eq hlen]
  exact (slice_eq_some_iff.mp hright).2

/-! ### The table -/

namespace Built

theorem vtableLoc_eq (h : Built raw locs object start) :
    vtableLoc raw (raw.length - object) = raw.length - (object + vtableLen locs) := by
  have hlimit : presetLimit < 2 ^ 31 := by decide
  have hsmall := h.small
  obtain ⟨_, _, hmax, _⟩ := vtableLen_spec h.slots
  have hword := h.table.wordAt_eq (by omega)
  have hle := h.offsets.le
  have heq := ShmMpsc.vtableLoc_eq raw (raw.length - object)
  rw [hword] at heq
  simp only [Int.bmod] at heq
  split at heq <;> omega

theorem vtableSize_eq (h : Built raw locs object start) :
    wordAt raw (raw.length - (object + vtableLen locs)) 2 = vtableLen locs := by
  obtain ⟨_, _, hmax, _⟩ := vtableLen_spec h.slots
  have hhead : Ends raw (object + vtableLen locs) (toLE 2 (vtableLen locs)) := h.offsets.left
  exact hhead.wordAt_eq (by omega)

theorem entryInside (h : Built raw locs object start) (slot : UInt16) :
    EntryInside raw (raw.length - object) slot := by
  obtain ⟨hmin, _⟩ := vtableLen_spec h.slots
  have htable := h.table.inside
  have hle := h.offsets.le
  have hoffsets := h.offsets.inside
  rw [vtable_length h.slots] at hoffsets
  rw [toLE_length] at htable
  refine ⟨htable, ?_, ?_⟩
  · rw [h.vtableLoc_eq]
    omega
  · rw [h.vtableLoc_eq, h.vtableSize_eq]
    intro hin
    omega

theorem voffset_eq (h : Built raw locs object start) (hslot : FlatSlot slot) :
    voffset raw (raw.length - object) slot = entryOf object locs slot.toNat := by
  obtain ⟨_, _, _, hall⟩ := vtableLen_spec h.slots
  rw [voffset, h.vtableLoc_eq, h.vtableSize_eq]
  by_cases hin : slot.toNat + 2 ≤ vtableLen locs
  · rw [if_neg (Nat.not_lt.mpr hin)]
    exact wordAt_of_slice (h.offsets.slice_within (slice_vtable hslot hin))
      (entryOf_lt h.inner _)
  · rw [if_pos (Nat.not_le.mp hin), entryOf_of_not_mem]
    intro hmem
    obtain ⟨loc, hloc, rfl⟩ := List.mem_map.mp hmem
    exact hin (hall loc hloc)

/-- A slot that was pushed leads to its place. -/
theorem voffset_of_mem (h : Built raw locs object start) (hloc : (slot, loc) ∈ locs) :
    voffset raw (raw.length - object) slot ≠ 0 ∧
      raw.length - object + voffset raw (raw.length - object) slot = raw.length - loc := by
  have hlt := (h.inner _ hloc).1
  have hle := h.table.le
  rw [h.voffset_eq (h.slots _ hloc), entryOf_of_mem h.distinct hloc]
  dsimp only at hlt
  omega

theorem voffset_of_not_mem (h : Built raw locs object start) (hslot : FlatSlot slot)
    (hout : slot ∉ locs.map Prod.fst) : voffset raw (raw.length - object) slot = 0 := by
  rw [h.voffset_eq hslot, entryOf_of_not_mem hout]

section Getters

variable {α : Type} {get : List UInt8 → Nat → UInt16 → Option α → Access (Option α)}
  {fits : List UInt8 → Nat → Prop} {value : List UInt8 → Nat → α}

theorem fieldInside_of_mem (h : Built raw locs object start) (hloc : (slot, loc) ∈ locs)
    (hfits : fits raw (raw.length - loc)) : FieldInside raw fits (wordAt raw 0 4) slot := by
  have hroot : wordAt raw 0 4 = raw.length - object := h.root_eq
  rw [hroot]
  refine ⟨h.entryInside slot, fun _ => ?_⟩
  rw [(h.voffset_of_mem hloc).2]
  exact hfits

theorem getter_of_mem (h : Built raw locs object start) (hget : Follows get fits value)
    (hloc : (slot, loc) ∈ locs) (hfits : fits raw (raw.length - loc)) (default : Option α) :
    (get raw (ofLE (raw.take 4)) slot default).result =
      some (some (value raw (raw.length - loc))) := by
  have hroot : wordAt raw 0 4 = raw.length - object := h.root_eq
  obtain ⟨hne, hplace⟩ := h.voffset_of_mem hloc
  refine ((hget raw _ slot default).result_of (h.fieldInside_of_mem hloc hfits)).trans ?_
  rw [hroot, fieldOf, if_neg hne, hplace]

theorem fieldInside_of_not_mem (h : Built raw locs object start) (hslot : FlatSlot slot)
    (hout : slot ∉ locs.map Prod.fst) : FieldInside raw fits (wordAt raw 0 4) slot := by
  have hroot : wordAt raw 0 4 = raw.length - object := h.root_eq
  rw [hroot]
  exact ⟨h.entryInside slot, fun hne => absurd (h.voffset_of_not_mem hslot hout) hne⟩

theorem getter_of_not_mem (h : Built raw locs object start) (hget : Follows get fits value)
    (hslot : FlatSlot slot) (hout : slot ∉ locs.map Prod.fst) (default : Option α) :
    (get raw (ofLE (raw.take 4)) slot default).result = some default := by
  have hroot : wordAt raw 0 4 = raw.length - object := h.root_eq
  refine ((hget raw _ slot default).result_of (h.fieldInside_of_not_mem hslot hout)).trans ?_
  rw [hroot, fieldOf, if_pos (h.voffset_of_not_mem hslot hout)]

end Getters

end Built

theorem object_of_ends {place : Nat} (hsmall : raw.length ≤ presetLimit)
    (hloc : Ends raw loc (toLE 4 (loc - place))) (hle : place ≤ loc)
    (hplace : Ends raw place (block bs)) : ObjectFits raw (raw.length - loc) ∧
      blockAt raw (link raw (raw.length - loc)) = bs := by
  have hlimit : presetLimit < 256 ^ 4 := by decide
  have hfits := hloc.le
  have hroom := hplace.inside
  have hbound := hplace.length_block_le
  have hlink := hloc.inside
  rw [block, List.length_append, toLE_length] at hroom
  rw [toLE_length] at hlink
  have hoff := hloc.wordAt_eq (by omega)
  have hlen : wordAt raw (raw.length - place) 4 = bs.length := hplace.left.wordAt_eq (by omega)
  have hat : link raw (raw.length - loc) = raw.length - place := by
    rw [link, hoff]
    omega
  rw [ObjectFits, hat, BlockFits, hlen]
  exact ⟨⟨hlink, by omega⟩, hplace.blockAt_eq (by omega)⟩

/-- The field stands here and is read as what it is. -/
def Holds (objects : List FlatObject) (raw : List UInt8) (loc : Nat) : FlatField → Prop
  | .u64 v => ScalarFits raw 8 loc ∧ u64At raw loc = v
  | .u8 v => ScalarFits raw 1 loc ∧ u8At raw loc = v
  | .offset i => ObjectFits raw loc ∧
      ∃ o, objects[i]? = some o ∧ blockAt raw (link raw loc) = contents o

/-- What a field of this type needs. -/
def fits : FlatField → List UInt8 → Nat → Prop
  | .u64 _ => (ScalarFits · 8)
  | .u8 _ => (ScalarFits · 1)
  | .offset _ => ObjectFits

variable {objects : List FlatObject} {fields : List (UInt16 × FlatField)}

theorem Holds.fits {f : FlatField} (h : Holds objects raw loc f) : fits f raw loc := by
  cases f <;> exact h.1

theorem finish_holds (htable : FlatTable objects fields)
    (hraw : raw = (Fbb.empty.finish objects fields).bytes) (hsmall : raw.length ≤ presetLimit) :
    ∃ locs object start, Built raw locs object start ∧ locs.map Prod.fst = fields.map Prod.fst ∧
      ∀ slot f, (slot, f) ∈ fields →
        ∃ loc, (slot, loc) ∈ locs ∧ Holds objects raw (raw.length - loc) f := by
  obtain ⟨places, locs, object, start, hbuilt, hslots, hfields, hobjects⟩ :=
    finish_spec htable hraw hsmall
  refine ⟨locs, object, start, hbuilt, hslots, ?_⟩
  intro slot f hf
  obtain ⟨loc, hloc, hstart, hends⟩ := hfields slot f hf
  refine ⟨loc, hloc, ?_⟩
  cases f with
  | u64 v =>
    have hinside := hends.inside
    rw [slotBytes] at hends hinside
    rw [toLE_length] at hinside
    refine ⟨hinside, ?_⟩
    rw [u64At, hends.wordAt_eq v.toNat_lt, UInt64.ofNat_toNat]
  | u8 v =>
    have hbyte : Ends raw loc (toLE 1 v.toNat) := by
      have hone : toLE 1 v.toNat = [v] := by simp [toLE]
      rw [hone]
      exact hends
    refine ⟨hends.inside, ?_⟩
    rw [u8At, hbyte.wordAt_eq v.toNat_lt, UInt8.ofNat_toNat]
  | offset i =>
    obtain ⟨o, ho⟩ : ∃ o, objects[i]? = some o :=
      ⟨_, List.getElem?_eq_getElem (htable.offsets slot i hf)⟩
    obtain ⟨place, hplace, hbefore, hblock⟩ := hobjects i o ho
    rw [slotBytes, hplace, Option.getD_some] at hends
    obtain ⟨hfits, hread⟩ := object_of_ends hsmall hends (by omega) hblock
    exact ⟨hfits, o, ho, hread⟩

end FlatWire

/-- FlatBuffers as they are in bytes. -/
def flatBytes : Flatbuffers where
  Builder := FlatWire.Fbb
  withCapacity := fun _ => .empty
  reset := fun _ => .empty
  finish := fun b objects fields => (b.finish objects fields, (b.finish objects fields).bytes)
  tables := flatTables

theorem flatTables_stringAt {raw : List UInt8} {loc : Nat} {s : String}
    (h : blockAt raw (link raw loc) = utf8 s) : flatTables.stringAt raw loc = s := by
  have htext : flatTables.stringAt raw loc = (fromUtf8 (blockAt raw (link raw loc))).getD "" := rfl
  rw [htext, h, fromUtf8_utf8, Option.getD_some]

open FlatWire in
theorem flatBytes_reads {objects : List FlatObject} {fields : List (UInt16 × FlatField)}
    (htable : FlatTable objects fields) {raw : List UInt8}
    (hraw : raw = (Fbb.empty.finish objects fields).bytes) (hsmall : raw.length ≤ presetLimit) :
    flatBytes.ReadsAs raw objects fields := by
  obtain ⟨locs, object, start, hbuilt, hslots, hfields⟩ := finish_holds htable hraw hsmall
  have hobject : ∀ slot i o, (slot, FlatField.offset i) ∈ fields → objects[i]? = some o →
      ∃ loc, (slot, loc) ∈ locs ∧ ObjectFits raw (raw.length - loc) ∧
        blockAt raw (link raw (raw.length - loc)) = contents o := by
    intro slot i o hf ho
    obtain ⟨loc, hloc, hfits, o', ho', hread⟩ := hfields slot _ hf
    rw [ho, Option.some.injEq] at ho'
    exact ⟨loc, hloc, hfits, ho' ▸ hread⟩
  refine ⟨?_, ?_, ?_, ?_, ?_, ?_, ?_⟩
  · exact hbuilt.four_le
  · intro slot v default hf
    obtain ⟨loc, hloc, hfits, hv⟩ := hfields slot _ hf
    rw [← hv]
    exact hbuilt.getter_of_mem flatTables_documented.u64 hloc hfits default
  · intro slot v default hf
    obtain ⟨loc, hloc, hfits, hv⟩ := hfields slot _ hf
    rw [← hv]
    exact hbuilt.getter_of_mem flatTables_documented.u8 hloc hfits default
  · intro slot i s default hf ho
    obtain ⟨loc, hloc, hfits, hread⟩ := hobject slot i _ hf ho
    refine (hbuilt.getter_of_mem flatTables_documented.string hloc hfits default).trans ?_
    rw [flatTables_stringAt hread]
  · intro slot i bs default hf ho
    obtain ⟨loc, hloc, hfits, hread⟩ := hobject slot i _ hf ho
    refine ⟨link raw (raw.length - loc),
      hbuilt.getter_of_mem flatTables_documented.vector hloc hfits.1 default, ?_⟩
    exact ((flatTables_documented.bytes raw _).result_of hfits.2).trans (congrArg some hread)
  · intro slot default hslot hout
    exact hbuilt.getter_of_not_mem flatTables_documented.u64 hslot (hslots ▸ hout) default
  · intro slot default hslot hout
    exact hbuilt.getter_of_not_mem flatTables_documented.u8 hslot (hslots ▸ hout) default

theorem flatBytes_documented : flatBytes.Documented where
  reset := fun _ _ _ _ => rfl
  reads := fun _ _ _ htable hsmall => flatBytes_reads htable rfl hsmall

/-! ### What the codec encodes -/

section Own

open FlatWire

variable {seq ts : UInt64} {source : String} {kind : Kind} {payload raw : List UInt8}

theorem fits_flatFields {slot : UInt16} {f : FlatField} (hf : (slot, f) ∈ flatFields seq ts kind) :
    fits f = if slot = SEQ ∨ slot = TS then (ScalarFits · 8)
      else if slot = KIND then (ScalarFits · 1) else ObjectFits := by
  simp only [flatFields, List.mem_append, mem_pushSlot, List.mem_singleton] at hf
  rcases hf with (((⟨_, h⟩ | ⟨_, h⟩) | h) | ⟨_, h⟩) | h <;> cases h <;> rfl

theorem linked_own
    (hraw : raw =
      (Fbb.empty.finish [.string source, .vector payload] (flatFields seq ts kind)).bytes)
    (hsmall : raw.length ≤ presetLimit) : Linked raw := by
  obtain ⟨locs, object, start, hbuilt, hslots, hfields⟩ :=
    finish_holds (flatTable_flatFields seq ts source kind payload) hraw hsmall
  have hinside : ∀ slot wanted, FlatSlot slot →
      (∀ f, (slot, f) ∈ flatFields seq ts kind → fits f = wanted) →
      FieldInside raw wanted (wordAt raw 0 4) slot := by
    intro slot wanted hslot hwanted
    by_cases hmem : slot ∈ locs.map Prod.fst
    · rw [hslots] at hmem
      obtain ⟨⟨_, f⟩, hf, rfl⟩ := List.mem_map.mp hmem
      obtain ⟨loc, hloc, hholds⟩ := hfields _ f hf
      apply hbuilt.fieldInside_of_mem hloc
      rw [← hwanted f hf]
      exact hholds.fits
    · exact hbuilt.fieldInside_of_not_mem hslot hmem
  refine ⟨?_, ?_, ?_, ?_, ?_⟩ <;> apply hinside _ _ (by decide) <;>
    exact fun f hf => fits_flatFields hf

theorem flatDecode_own
    (hraw : raw =
      (Fbb.empty.finish [.string source, .vector payload] (flatFields seq ts kind)).bytes)
    (hsmall : raw.length ≤ presetLimit) (out : DecodedEvent) :
    (flatDecode flatTables raw out).Safe raw.length ∧
      (flatDecode flatTables raw out).result = some (⟨seq, ts, source, kind, payload⟩, true) := by
  have hreads := flatBytes_reads (flatTable_flatFields seq ts source kind payload) hraw hsmall
  have hexact := flatDecode_exactly flatTables_documented raw out
  exact ⟨hexact.safe_iff.mpr (.inr (linked_own hraw hsmall)), flatDecode_reads hreads out⟩

end Own

end ShmMpsc
