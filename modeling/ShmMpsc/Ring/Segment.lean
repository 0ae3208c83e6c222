import ShmMpsc.Lib.Memory
import ShmMpsc.Ring.Algorithm
import ShmMpsc.Ring.Config

/-!
# The segment

The accesses of `push` and `try_pop` as byte addresses of a mapping, with `u64`
counters that wrap, and `init`.
-/

namespace ShmMpsc

set_option autoImplicit false

open RingConfig

/-- The ring as the code runs it. -/
def segOps (cfg : RingConfig) : SegOps UInt64 Memory where
  maxLen := cfg.maxLen.toNat
  next := fun pos => pos + 1
  lap := fun head => head + cfg.numSlots
  diff := fun seq pos => (seq.toInt64 - pos.toInt64).toInt
  loadTail := fun m => m.load64 0
  casTail := fun expected new m => (m.load64 0).bind fun cur =>
    if cur = expected then (m.store64 0 new).map (·, true) else some (m, false)
  loadHead := fun m => m.load64 64
  storeHead := fun v m => m.store64 64 v
  loadSeq := fun pos m => m.load64 (cfg.slotPtr pos).toNat
  storeSeq := fun pos v m => m.store64 (cfg.slotPtr pos).toNat v
  loadLen := fun pos m => m.load32 (cfg.slotPtr pos + 8).toNat
  storeLen := fun pos v m => m.store32 (cfg.slotPtr pos + 8).toNat v
  readPayload := fun pos n m => m.read (cfg.slotPtr pos + SLOT_HDR).toNat n
  writePayload := fun pos bs m => m.write (cfg.slotPtr pos + SLOT_HDR).toNat bs
  loadState := fun m => m.load64 128
  storeState := fun v m => m.store64 128 v
  casState := fun expected new m => (m.load64 128).bind fun cur =>
    if cur = expected then (m.store64 128 new).map (·, true) else some (m, false)

/-- `none` is a failed assertion of `check` or a store outside the mapping. -/
def init (cfg : RingConfig) (m : Memory) : Option Memory :=
  match cfg.check with
  | .error _ => none
  | .ok () =>
    (m.store64 0 0).bind fun m => (m.store64 64 0).bind fun m =>
      (m.store64 128 STATE_RUNNING).bind fun m =>
        m.storeAll (fun i => (cfg.slotPtr (UInt64.ofNat i)).toNat) UInt64.ofNat
          (List.range cfg.numSlots.toNat)

variable {cfg : RingConfig} {m m' : Memory}

theorem init_eq_some (h : init cfg m = some m') :
    cfg.check = .ok () ∧ ∃ m1 m2 m3, m.store64 0 0 = some m1 ∧ m1.store64 64 0 = some m2 ∧
      m2.store64 128 STATE_RUNNING = some m3 ∧
      m3.storeAll (fun i => (cfg.slotPtr (UInt64.ofNat i)).toNat) UInt64.ofNat
        (List.range cfg.numSlots.toNat) = some m' := by
  unfold init at h
  split at h
  · cases h
  · rename_i hc
    obtain ⟨m1, h1, h⟩ := Option.bind_eq_some_iff.mp h
    obtain ⟨m2, h2, h⟩ := Option.bind_eq_some_iff.mp h
    obtain ⟨m3, h3, h⟩ := Option.bind_eq_some_iff.mp h
    exact ⟨hc, m1, m2, m3, h1, h2, h3, h⟩

theorem init_size (h : init cfg m = some m') : m'.size = m.size := by
  obtain ⟨_, m1, m2, m3, h1, h2, h3, h⟩ := init_eq_some h
  rw [Memory.storeAll_size h, Memory.store64_size h3, Memory.store64_size h2,
    Memory.store64_size h1]

theorem init_bound (h : init cfg m = some m') {i : Nat} (hi : i < cfg.numSlots.toNat) :
    (cfg.slotPtr (UInt64.ofNat i)).toNat + 8 ≤ m.size := by
  obtain ⟨_, m1, m2, m3, h1, h2, h3, h⟩ := init_eq_some h
  have hb := Memory.storeAll_bound h (List.mem_range.mpr hi)
  rwa [Memory.store64_size h3, Memory.store64_size h2, Memory.store64_size h1] at hb

theorem slotPtr_of_lt (hg : cfg.Admitted) {i : Nat} (hi : i < cfg.numSlots.toNat)
    (hlt : cfg.slotOff i < 2 ^ 64) : (cfg.slotPtr (UInt64.ofNat i)).toNat = cfg.slotOff i := by
  have hN := cfg.numSlots.toNat_lt
  have hi' : (UInt64.ofNat i).toNat = i :=
    UInt64.toNat_ofNat_of_lt' (by simp only [UInt64.size]; omega)
  unfold slotOff at hlt
  rw [slotPtr, UInt64.toNat_add, UInt64.toNat_mul, and_mask hg, hi', Nat.mod_eq_of_lt hi]
  change (192 + _ % _) % _ = _
  rw [Nat.mod_eq_of_lt (by omega : i * cfg.slotSize.toNat < 2 ^ 64), Nat.mod_eq_of_lt (by omega),
    slotOff]

theorem mul_mod_of_add_eq {i x c : Nat} (hx : x + c = 2 ^ 64) (h0 : 0 < i * c)
    (h1 : i * c ≤ 2 ^ 64) : i * x % 2 ^ 64 = 2 ^ 64 - i * c := by
  have hsum : i * x + i * c = i * 2 ^ 64 := by rw [← Nat.mul_add, hx]
  omega

/-- A slot size within the header's length of 2^64 sends slots below the header and then
around to the top of the address space. -/
theorem slotSize_le_of_init (hm : m.size = cfg.total.toNat) (h : init cfg m = some m') :
    cfg.slotSize.toNat ≤ 2 ^ 64 - 193 := by
  have hg := check_iff.mp (init_eq_some h).1
  have hsize := m.size_lt
  have hS := cfg.slotSize.toNat_lt
  by_contra hhuge
  obtain ⟨c, hc⟩ : ∃ c, cfg.slotSize.toNat + c = 2 ^ 64 := ⟨2 ^ 64 - cfg.slotSize.toNat, by omega⟩
  have h0 := init_bound h hg.pos
  rw [slotPtr_of_lt hg hg.pos (by unfold slotOff; omega)] at h0
  unfold slotOff at h0
  obtain ⟨i, hi⟩ : ∃ i, i = 192 / c + 1 := ⟨_, rfl⟩
  have hcpos : 0 < c := by omega
  have hlo : 192 < i * c := by
    have hlt := Nat.lt_mul_div_succ 192 hcpos
    rwa [← hi, Nat.mul_comm] at hlt
  have hup : i * c ≤ 192 + c := by
    have hle := Nat.div_mul_le_self 192 c
    rw [hi, Nat.succ_mul]
    omega
  rcases Nat.lt_or_ge i cfg.numSlots.toNat with hiN | hNi
  · -- slot i starts above every mapping
    have hb := init_bound h hiN
    have hN := cfg.numSlots.toNat_lt
    have hi' : (UInt64.ofNat i).toNat = i :=
      UInt64.toNat_ofNat_of_lt' (by simp only [UInt64.size]; omega)
    rw [slotPtr, UInt64.toNat_add, UInt64.toNat_mul, and_mask hg, hi', Nat.mod_eq_of_lt hiN,
      mul_mod_of_add_eq hc (by omega) (by omega)] at hb
    change (192 + _) % 2 ^ 64 + 8 ≤ _ at hb
    omega
  · -- too few slots for that: total() is below the first slot or above every mapping
    have hle := Nat.mul_le_mul_right c hNi
    have hpos : 0 < cfg.numSlots.toNat * c := Nat.mul_pos hg.pos hcpos
    rw [total, UInt64.toNat_add, UInt64.toNat_mul, Nat.mul_comm,
      mul_mod_of_add_eq hc hpos (by omega)] at hm
    change _ = (192 + _) % 2 ^ 64 at hm
    omega

/-- `init` only returns on a mapping of `total()` bytes, `total()` as computed, when `total()`
did not overflow: otherwise some slot lies outside the mapping. -/
theorem fits_of_init (hm : m.size = cfg.total.toNat) (h : init cfg m = some m') : cfg.Fits := by
  have hg := check_iff.mp (init_eq_some h).1
  have hmin := hg.min
  have hsize := m.size_lt
  by_contra hf
  have hover : 2 ^ 64 ≤ 192 + cfg.slotSize.toNat * cfg.numSlots.toNat := Nat.le_of_not_lt hf
  -- the last slot that starts below 2^64
  have hSpos : 0 < cfg.slotSize.toNat := by omega
  obtain ⟨j, hj⟩ : ∃ j, j = (2 ^ 64 - 193) / cfg.slotSize.toNat := ⟨_, rfl⟩
  have hj1 : j * cfg.slotSize.toNat ≤ 2 ^ 64 - 193 := hj ▸ Nat.div_mul_le_self _ _
  have hj2 : 2 ^ 64 - 193 < j * cfg.slotSize.toNat + cfg.slotSize.toNat := by
    have hlt := Nat.lt_mul_div_succ (2 ^ 64 - 193) hSpos
    rw [← hj, Nat.mul_comm, Nat.succ_mul] at hlt
    exact hlt
  have hjN : j < cfg.numSlots.toNat := by
    by_contra hge
    have hmul := Nat.mul_le_mul_right cfg.slotSize.toNat (Nat.le_of_not_lt hge)
    rw [Nat.mul_comm] at hmul
    omega
  have hptr : (cfg.slotPtr (UInt64.ofNat j)).toNat = 192 + j * cfg.slotSize.toNat :=
    slotPtr_of_lt hg hjN (by unfold slotOff; omega)
  -- it lies in the mapping, so the next one starts above 2^63 and this one is slot 0
  have hbound := init_bound h hjN
  rw [hptr] at hbound
  rcases Nat.eq_zero_or_pos j with rfl | hjpos
  · have hS := slotSize_le_of_init hm h
    omega
  · have hle := Nat.le_mul_of_pos_left cfg.slotSize.toNat hjpos
    omega

end ShmMpsc
