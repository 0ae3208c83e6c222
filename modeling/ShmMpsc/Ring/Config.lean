import Mathlib.Data.Nat.Basic
import Mathlib.Algebra.Order.Group.Nat
import Mathlib.Data.Nat.ModEq

/-!
# Ring geometry

`RingConfig` with the `usize` arithmetic of a release build on a 64-bit target:
every product and sum wraps. `Fits` is the case in which `total` does not.
-/

namespace ShmMpsc

set_option autoImplicit false

/-- Segment header: tail at 0, head at 64, consumer_state at 128. -/
def HDR : UInt64 := 192

/-- Slot header: seq at 0, len at 8, padding at 12. -/
def SLOT_HDR : UInt64 := 16

def STATE_RUNNING : UInt64 := 0
def STATE_PARKED : UInt64 := 1

structure RingConfig where
  numSlots : UInt64
  slotSize : UInt64
  deriving DecidableEq, Repr

namespace RingConfig

def total (cfg : RingConfig) : UInt64 := HDR + cfg.slotSize * cfg.numSlots

def payloadCapacity (cfg : RingConfig) : UInt64 := cfg.slotSize - SLOT_HDR

def mask (cfg : RingConfig) : UInt64 := cfg.numSlots - 1

/-- `usize::is_power_of_two`. -/
def isPowerOfTwo (x : UInt64) : Bool := (List.range 64).any fun k => x.toNat == 2 ^ k

/-- The two assertions; an error is the panic message. -/
def check (cfg : RingConfig) : Except String Unit :=
  if !isPowerOfTwo cfg.numSlots then .error "num_slots must be a power of two"
  else if !(cfg.slotSize > SLOT_HDR + 4) then .error "slot_size too small for SLOT_HDR + length"
  else .ok ()

/-- Offset of the slot of position `idx` from the segment's base. -/
def slotPtr (cfg : RingConfig) (idx : UInt64) : UInt64 :=
  HDR + (idx &&& cfg.mask) * cfg.slotSize

/-- `data.len() > cfg.payload_capacity() - 4` is the `TooBig` test of `push`. -/
def maxLen (cfg : RingConfig) : UInt64 := cfg.payloadCapacity - 4

end RingConfig

namespace Presets

def SMALL : RingConfig := { numSlots := 1024, slotSize := 512 }
def MEDIUM : RingConfig := { numSlots := 512, slotSize := 4096 }
def LARGE : RingConfig := { numSlots := 256, slotSize := 32 * 1024 }
def HUGE : RingConfig := { numSlots := 32, slotSize := 2 * 1024 * 1024 }

theorem check_presets : ∀ cfg ∈ [SMALL, MEDIUM, LARGE, HUGE], cfg.check = .ok () := by decide

end Presets

/-- Two slots of more than 2^32 bytes. -/
def large : RingConfig := { numSlots := 2, slotSize := 4294967320 }

namespace RingConfig

/-- The slot of position `p`, as a number. -/
def slotOf (cfg : RingConfig) (p : Nat) : Nat := p % cfg.numSlots.toNat

/-- Where slot `i` starts when nothing wraps. -/
def slotOff (cfg : RingConfig) (i : Nat) : Nat := 192 + i * cfg.slotSize.toNat

/-- `total()` does not overflow. -/
def Fits (cfg : RingConfig) : Prop := 192 + cfg.slotSize.toNat * cfg.numSlots.toNat < 2 ^ 64

/-- What `check` asks for. -/
structure Admitted (cfg : RingConfig) : Prop where
  pow : ∃ k, k < 64 ∧ cfg.numSlots.toNat = 2 ^ k
  min : 20 < cfg.slotSize.toNat

variable {cfg : RingConfig}

theorem isPowerOfTwo_iff {x : UInt64} : isPowerOfTwo x = true ↔ ∃ k, k < 64 ∧ x.toNat = 2 ^ k := by
  simp [isPowerOfTwo]

theorem check_iff : cfg.check = .ok () ↔ cfg.Admitted := by
  have hadm : cfg.Admitted ↔
      isPowerOfTwo cfg.numSlots = true ∧ cfg.slotSize > SLOT_HDR + 4 := by
    have hlt : cfg.slotSize > SLOT_HDR + 4 ↔ 20 < cfg.slotSize.toNat := UInt64.lt_iff_toNat_lt
    rw [isPowerOfTwo_iff, hlt]
    exact ⟨fun h => ⟨h.pow, h.min⟩, fun h => ⟨h.1, h.2⟩⟩
  rw [hadm]
  unfold check
  split
  · simp_all
  · split <;> simp_all

theorem Admitted.pos (h : cfg.Admitted) : 0 < cfg.numSlots.toNat := by
  obtain ⟨k, _, hk⟩ := h.pow
  rw [hk]
  exact Nat.two_pow_pos k

theorem Admitted.numSlots_le (h : cfg.Admitted) : cfg.numSlots.toNat ≤ 2 ^ 63 := by
  obtain ⟨k, hk64, hk⟩ := h.pow
  rw [hk]
  exact Nat.pow_le_pow_right (by decide) (by omega)

/-! ### Addresses -/

theorem and_mask (hg : cfg.Admitted) (idx : UInt64) :
    (idx &&& cfg.mask).toNat = idx.toNat % cfg.numSlots.toNat := by
  obtain ⟨k, _, hk⟩ := hg.pow
  have h1 : (1 : UInt64) ≤ cfg.numSlots := by
    rw [UInt64.le_iff_toNat_le, hk]
    exact Nat.one_le_two_pow
  have hm : cfg.mask.toNat = 2 ^ k - 1 := by
    rw [mask, UInt64.toNat_sub_of_le _ _ h1, hk]
    rfl
  rw [UInt64.toNat_and, hm, hk, Nat.and_two_pow_sub_one_eq_mod]

theorem slotOff_le {i : Nat} (hi : i < cfg.numSlots.toNat) :
    cfg.slotOff i + cfg.slotSize.toNat ≤ 192 + cfg.slotSize.toNat * cfg.numSlots.toNat := by
  have h := Nat.mul_le_mul_right cfg.slotSize.toNat (Nat.succ_le_of_lt hi)
  rw [Nat.succ_mul] at h
  unfold slotOff
  rw [Nat.mul_comm cfg.slotSize.toNat]
  omega

theorem slotOff_disjoint (cfg : RingConfig) {i j : Nat} (h : i < j) :
    cfg.slotOff i + cfg.slotSize.toNat ≤ cfg.slotOff j := by
  have h := Nat.mul_le_mul_right cfg.slotSize.toNat (Nat.succ_le_of_lt h)
  rw [Nat.succ_mul] at h
  unfold slotOff
  omega

theorem slotOff_apart (cfg : RingConfig) {i j : Nat} (h : i ≠ j) :
    cfg.slotOff i + cfg.slotSize.toNat ≤ cfg.slotOff j ∨
      cfg.slotOff j + cfg.slotSize.toNat ≤ cfg.slotOff i := by
  rcases Nat.lt_or_gt_of_ne h with h | h
  · exact .inl (cfg.slotOff_disjoint h)
  · exact .inr (cfg.slotOff_disjoint h)

theorem total_toNat (hf : cfg.Fits) :
    cfg.total.toNat = 192 + cfg.slotSize.toNat * cfg.numSlots.toNat := by
  unfold Fits at hf
  rw [total, UInt64.toNat_add, UInt64.toNat_mul]
  change (192 + _ % _) % _ = _
  rw [Nat.mod_eq_of_lt (a := cfg.slotSize.toNat * cfg.numSlots.toNat) (by omega),
    Nat.mod_eq_of_lt (by omega)]

theorem slotOf_lt (h : 0 < cfg.numSlots.toNat) (p : Nat) : cfg.slotOf p < cfg.numSlots.toNat :=
  Nat.mod_lt _ h

theorem slotPtr_toNat (hg : cfg.Admitted) (hf : cfg.Fits) (idx : UInt64) :
    (cfg.slotPtr idx).toNat = cfg.slotOff (cfg.slotOf idx.toNat) := by
  have hle := slotOff_le (slotOf_lt hg.pos idx.toNat)
  unfold Fits at hf
  have hlt : cfg.slotOf idx.toNat * cfg.slotSize.toNat < 2 ^ 64 := by unfold slotOff at hle; omega
  rw [slotPtr, UInt64.toNat_add, UInt64.toNat_mul, and_mask hg]
  change (192 + (cfg.slotOf idx.toNat * _) % _) % _ = _
  rw [Nat.mod_eq_of_lt hlt]
  refine Nat.mod_eq_of_lt ?_
  unfold slotOff at hle
  omega

/-- Positions modulo 2^64 keep their slot: the number of slots divides 2^64. -/
theorem slotOf_mod (hg : cfg.Admitted) (p : Nat) : cfg.slotOf (p % 2 ^ 64) = cfg.slotOf p := by
  obtain ⟨k, hk64, hk⟩ := hg.pow
  rw [slotOf, slotOf, hk]
  exact Nat.mod_mod_of_dvd p (Nat.pow_dvd_pow 2 (by omega))

theorem maxLen_toNat (h : 20 < cfg.slotSize.toNat) :
    cfg.maxLen.toNat = cfg.slotSize.toNat - 20 := by
  have h16 : SLOT_HDR ≤ cfg.slotSize := by
    rw [UInt64.le_iff_toNat_le]
    change 16 ≤ _
    omega
  have hcap : cfg.payloadCapacity.toNat = cfg.slotSize.toNat - 16 :=
    UInt64.toNat_sub_of_le _ _ h16
  have h4 : (4 : UInt64) ≤ cfg.payloadCapacity := by
    rw [UInt64.le_iff_toNat_le, hcap]
    change 4 ≤ _
    omega
  rw [maxLen, UInt64.toNat_sub_of_le _ _ h4, hcap]
  change _ - 16 - 4 = _
  omega

end RingConfig

end ShmMpsc
