import ShmMpsc.Lib.Wrap
import ShmMpsc.Ring.Segment
import ShmMpsc.Ring.Unbounded

/-!
# The bytes of the segment against the unbounded memory

Every word of the segment holds its unbounded counterpart modulo 2^64, and every slot its
record. Each store of the algorithm keeps this: a slot's bytes are its own.
-/

namespace ShmMpsc

set_option autoImplicit false

open RingConfig

variable {cfg : RingConfig}

namespace RingConfig

/-- The number of slots. -/
abbrev N (cfg : RingConfig) : Nat := cfg.numSlots.toNat

/-- The size of a slot. -/
abbrev S (cfg : RingConfig) : Nat := cfg.slotSize.toNat

end RingConfig

theorem slotOff_lt_total (hf : cfg.Fits) {k : Nat} (hk : k < cfg.N) :
    cfg.slotOff k + cfg.S ≤ cfg.total.toNat ∧ cfg.total.toNat < 2 ^ 64 := by
  rw [total_toNat hf]
  exact ⟨slotOff_le hk, hf⟩

section Address

variable (hg : cfg.Admitted) (hf : cfg.Fits)
include hg hf

theorem slotPtr_ofNat (p : Nat) :
    (cfg.slotPtr (UInt64.ofNat p)).toNat = cfg.slotOff (p % cfg.N) := by
  rw [slotPtr_toNat hg hf, UInt64.toNat_ofNat', slotOf_mod hg, slotOf]

theorem slotPtr_add (p : Nat) {d : UInt64} (hd : d.toNat ≤ 16) :
    (cfg.slotPtr (UInt64.ofNat p) + d).toNat = cfg.slotOff (p % cfg.N) + d.toNat := by
  have h := slotOff_lt_total hf (Nat.mod_lt p hg.pos)
  have hmin : 20 < cfg.S := hg.min
  rw [UInt64.toNat_add, slotPtr_ofNat hg hf]
  exact Nat.mod_eq_of_lt (by omega)

end Address

/-- Segment `m` shows the unbounded memory `u`. -/
structure MemSim (cfg : RingConfig) (m : Memory) (u : UMem) : Prop where
  size : m.size = cfg.total.toNat
  tail : m.load64 0 = some (UInt64.ofNat u.tail)
  head : m.load64 64 = some (UInt64.ofNat u.head)
  state : m.load64 128 = some u.state
  seq : ∀ k, k < cfg.N → m.load64 (cfg.slotOff k) = some (UInt64.ofNat (u.seq k))
  len : ∀ k, k < cfg.N → m.load32 (cfg.slotOff k + 8) = some (u.len k)
  payload : ∀ k, k < cfg.N → ∀ j, j < cfg.S - 16 → m.byte (cfg.slotOff k + 16 + j) = u.payload k j

namespace MemSim

variable {m m' : Memory} {u : UMem}

theorem write_header (h : MemSim cfg m u) {a : Nat} {bs : List UInt8}
    (hw : m.write a bs = some m') (ha : a + bs.length ≤ 192) {u' : UMem}
    (htail : m'.load64 0 = some (UInt64.ofNat u'.tail))
    (hhead : m'.load64 64 = some (UInt64.ofNat u'.head))
    (hstate : m'.load64 128 = some u'.state)
    (hseq : u'.seq = u.seq) (hlen : u'.len = u.len) (hpay : u'.payload = u.payload) :
    MemSim cfg m' u' where
  size := (Memory.write_size hw).trans h.size
  tail := htail
  head := hhead
  state := hstate
  seq := fun k hk => by
    rw [Memory.load64_write hw (by unfold slotOff; omega), hseq, h.seq k hk]
  len := fun k hk => by
    rw [Memory.load32_write hw (by unfold slotOff; omega), hlen, h.len k hk]
  payload := fun k hk j hj => by
    rw [Memory.byte_write hw (by unfold slotOff; omega), hpay, h.payload k hk j hj]

/-- A write inside slot `k` leaves the header and the other slots alone. -/
theorem write_slot (hg : cfg.Admitted) (h : MemSim cfg m u) {a : Nat} {bs : List UInt8}
    (hw : m.write a bs = some m') {k : Nat} (hlo : cfg.slotOff k ≤ a)
    (hhi : a + bs.length ≤ cfg.slotOff k + cfg.S) {u' : UMem}
    (htail : u'.tail = u.tail) (hhead : u'.head = u.head) (hstate : u'.state = u.state)
    (hother : ∀ i, i ≠ k → u'.seq i = u.seq i ∧ u'.len i = u.len i ∧ u'.payload i = u.payload i)
    (hseq : m'.load64 (cfg.slotOff k) = some (UInt64.ofNat (u'.seq k)))
    (hlen : m'.load32 (cfg.slotOff k + 8) = some (u'.len k))
    (hpay : ∀ j, j < cfg.S - 16 → m'.byte (cfg.slotOff k + 16 + j) = u'.payload k j) :
    MemSim cfg m' u' := by
  have hmin : 20 < cfg.S := hg.min
  have hhdr : 192 ≤ a := Nat.le_trans (Nat.le_add_right _ _) hlo
  -- the ranges of another slot end before the write starts or start after it ends
  have hapart : ∀ i, i ≠ k →
      cfg.slotOff i + cfg.S ≤ a ∨ a + bs.length ≤ cfg.slotOff i := by
    intro i hik
    rcases cfg.slotOff_apart hik with hd | hd
    · exact .inl (Nat.le_trans hd hlo)
    · exact .inr (Nat.le_trans hhi hd)
  constructor
  · exact (Memory.write_size hw).trans h.size
  · rw [Memory.load64_write hw (by omega), htail, h.tail]
  · rw [Memory.load64_write hw (by omega), hhead, h.head]
  · rw [Memory.load64_write hw (by omega), hstate, h.state]
  · intro i hi
    by_cases hik : i = k
    · subst hik; exact hseq
    · have hd := hapart i hik
      rw [Memory.load64_write hw (by omega), (hother i hik).1, h.seq i hi]
  · intro i hi
    by_cases hik : i = k
    · subst hik; exact hlen
    · have hd := hapart i hik
      rw [Memory.load32_write hw (by omega), (hother i hik).2.1, h.len i hi]
  · intro i hi j hj
    by_cases hik : i = k
    · subst hik; exact hpay j hj
    · have hd := hapart i hik
      rw [Memory.byte_write hw (by omega), (hother i hik).2.2, h.payload i hi j hj]

theorem size_gt (hf : cfg.Fits) (h : MemSim cfg m u) : 192 ≤ m.size := by
  rw [h.size, total_toNat hf]
  exact Nat.le_add_right _ _

section Stores

variable (hf : cfg.Fits) (h : MemSim cfg m u)
include hf h

theorem storeTail (v : Nat) : ∃ m', m.store64 0 (UInt64.ofNat v) = some m' ∧
    MemSim cfg m' { u with tail := v } := by
  have hsize := h.size_gt hf
  obtain ⟨m', hm⟩ := Option.isSome_iff_exists.mp
    (Memory.store64_isSome (v := UInt64.ofNat v) (show 0 + 8 ≤ m.size by omega))
  refine ⟨m', hm, h.write_header hm (by simp) (Memory.load64_store64 hm) ?_ ?_ rfl rfl rfl⟩
  · rw [Memory.load64_store64_of_disjoint hm (by omega), h.head]
  · rw [Memory.load64_store64_of_disjoint hm (by omega), h.state]

theorem storeHead (v : Nat) : ∃ m', m.store64 64 (UInt64.ofNat v) = some m' ∧
    MemSim cfg m' { u with head := v } := by
  have hsize := h.size_gt hf
  obtain ⟨m', hm⟩ := Option.isSome_iff_exists.mp
    (Memory.store64_isSome (v := UInt64.ofNat v) (show 64 + 8 ≤ m.size by omega))
  refine ⟨m', hm, h.write_header hm (by simp) ?_ (Memory.load64_store64 hm) ?_ rfl rfl rfl⟩
  · rw [Memory.load64_store64_of_disjoint hm (by omega), h.tail]
  · rw [Memory.load64_store64_of_disjoint hm (by omega), h.state]

theorem storeState (v : UInt64) : ∃ m', m.store64 128 v = some m' ∧
    MemSim cfg m' { u with state := v } := by
  have hsize := h.size_gt hf
  obtain ⟨m', hm⟩ := Option.isSome_iff_exists.mp
    (Memory.store64_isSome (v := v) (show 128 + 8 ≤ m.size by omega))
  refine ⟨m', hm, h.write_header hm (by simp) ?_ ?_ (Memory.load64_store64 hm) rfl rfl rfl⟩
  · rw [Memory.load64_store64_of_disjoint hm (by omega), h.tail]
  · rw [Memory.load64_store64_of_disjoint hm (by omega), h.head]

theorem slot_bound {k : Nat} (hk : k < cfg.N) : cfg.slotOff k + cfg.S ≤ m.size := by
  rw [h.size]
  exact (slotOff_lt_total hf hk).1

variable (hg : cfg.Admitted)
include hg

theorem storeSeq {k : Nat} (hk : k < cfg.N) (v : Nat) :
    ∃ m', m.store64 (cfg.slotOff k) (UInt64.ofNat v) = some m' ∧
      MemSim cfg m' { u with seq := Function.update u.seq k v } := by
  have hb := h.slot_bound hf hk
  have hmin : 20 < cfg.S := hg.min
  obtain ⟨m', hm⟩ := Option.isSome_iff_exists.mp
    (Memory.store64_isSome (v := UInt64.ofNat v) (show cfg.slotOff k + 8 ≤ m.size by omega))
  refine ⟨m', hm, h.write_slot hg hm (Nat.le_refl _) (by rw [toLE_length]; omega) rfl rfl rfl
    (fun i hi => ⟨Function.update_of_ne hi _ _, rfl, rfl⟩) ?_ ?_ ?_⟩
  · show _ = some (UInt64.ofNat (Function.update u.seq k v k))
    rw [Memory.load64_store64 hm, Function.update_self]
  · rw [Memory.load32_store64_of_disjoint hm (by omega), h.len k hk]
  · intro j hj
    rw [Memory.byte_write hm (by rw [toLE_length]; omega), h.payload k hk j hj]

theorem storeLen {k : Nat} (hk : k < cfg.N) (v : UInt32) :
    ∃ m', m.store32 (cfg.slotOff k + 8) v = some m' ∧
      MemSim cfg m' { u with len := Function.update u.len k v } := by
  have hb := h.slot_bound hf hk
  have hmin : 20 < cfg.S := hg.min
  obtain ⟨m', hm⟩ := Option.isSome_iff_exists.mp
    (Memory.store32_isSome (w := v) (show cfg.slotOff k + 8 + 4 ≤ m.size by omega))
  refine ⟨m', hm, h.write_slot hg hm (Nat.le_add_right _ _) (by rw [toLE_length]; omega) rfl rfl
    rfl (fun i hi => ⟨rfl, Function.update_of_ne hi _ _, rfl⟩) ?_ ?_ ?_⟩
  · rw [Memory.load64_store32_of_disjoint hm (by omega), h.seq k hk]
  · show _ = some (Function.update u.len k v k)
    rw [Memory.load32_store32 hm, Function.update_self]
  · intro j hj
    rw [Memory.byte_write hm (by rw [toLE_length]; omega), h.payload k hk j hj]

theorem writePayload {k : Nat} (hk : k < cfg.N) {bs : List UInt8} (hbs : bs.length ≤ cfg.S - 16) :
    ∃ m', m.write (cfg.slotOff k + 16) bs = some m' ∧
      MemSim cfg m' { u with
        payload := Function.update u.payload k fun j => bs[j]?.getD (u.payload k j) } := by
  have hb := h.slot_bound hf hk
  have hmin : 20 < cfg.S := hg.min
  obtain ⟨m', hm⟩ := Option.isSome_iff_exists.mp
    (Memory.write_isSome (show cfg.slotOff k + 16 + bs.length ≤ m.size by omega))
  refine ⟨m', hm, h.write_slot hg hm (Nat.le_add_right _ _) (by omega) rfl rfl rfl
    (fun i hi => ⟨rfl, rfl, Function.update_of_ne hi _ _⟩) ?_ ?_ ?_⟩
  · rw [Memory.load64_write hm (by omega), h.seq k hk]
  · rw [Memory.load32_write hm (by omega), h.len k hk]
  · intro j hj
    show _ = Function.update u.payload k _ k j
    rw [Function.update_self]
    by_cases hjb : j < bs.length
    · rw [(Memory.write_eq_some.mp hm).2, Memory.put_byte_of_lt _ hjb]
      simp [hjb]
    · rw [Memory.byte_write hm (by omega), h.payload k hk j hj]
      simp [hjb]

theorem readPayload {k n : Nat} (hk : k < cfg.N) (hn : n ≤ cfg.S - 16) :
    m.read (cfg.slotOff k + 16) n = some ((List.range n).map (u.payload k)) := by
  have hb := h.slot_bound hf hk
  have hmin : 20 < cfg.S := hg.min
  rw [Memory.read, if_pos (by omega)]
  congr 1
  apply List.map_congr_left
  intro j hj
  exact h.payload k hk j (Nat.lt_of_lt_of_le (List.mem_range.mp hj) hn)

end Stores

end MemSim

/-- What `init` leaves shows the starting memory, whatever the mapping held before. -/
theorem memSim_init (hg : cfg.Admitted) {m m' : Memory} (hm : m.size = cfg.total.toNat)
    (h : init cfg m = some m') :
    cfg.Fits ∧ ∃ len payload, MemSim cfg m' (UMem.start cfg.N len payload) := by
  have hf : cfg.Fits := fits_of_init hm h
  have hmin : 20 < cfg.S := hg.min
  obtain ⟨_, m1, m2, m3, h1, h2, h3, h4⟩ := init_eq_some h
  have haddr : ∀ k, k < cfg.N → (cfg.slotPtr (UInt64.ofNat k)).toNat = cfg.slotOff k := by
    intro k hk
    rw [slotPtr_ofNat hg hf, Nat.mod_eq_of_lt hk]
  have hhdr : ∀ a, a + 8 ≤ 192 → m'.load64 a = m3.load64 a := by
    intro a ha
    refine Memory.storeAll_load64_of_disjoint h4 fun i hi => .inl ?_
    rw [haddr i (List.mem_range.mp hi)]
    unfold slotOff
    omega
  refine ⟨hf, fun k => ((m'.load32 (cfg.slotOff k + 8)).getD 0),
    fun k j => m'.byte (cfg.slotOff k + 16 + j), ?_⟩
  have hsize : m'.size = cfg.total.toNat := (init_size h).trans hm
  constructor
  · exact hsize
  · rw [hhdr 0 (by omega), Memory.load64_store64_of_disjoint h3 (by omega),
      Memory.load64_store64_of_disjoint h2 (by omega), Memory.load64_store64 h1]
    rfl
  · rw [hhdr 64 (by omega), Memory.load64_store64_of_disjoint h3 (by omega),
      Memory.load64_store64 h2]
    rfl
  · rw [hhdr 128 (by omega), Memory.load64_store64 h3]
    rfl
  · intro k hk
    have hpair : (List.range cfg.N).Pairwise fun i j =>
        (cfg.slotPtr (UInt64.ofNat i)).toNat + 8 ≤ (cfg.slotPtr (UInt64.ofNat j)).toNat ∨
          (cfg.slotPtr (UInt64.ofNat j)).toNat + 8 ≤ (cfg.slotPtr (UInt64.ofNat i)).toNat := by
      rw [List.pairwise_iff_getElem]
      intro i j hi hj hij
      simp only [List.getElem_range]
      have hi := List.length_range (n := cfg.N) ▸ hi
      have hj := List.length_range (n := cfg.N) ▸ hj
      rw [haddr i hi, haddr j hj]
      have hd := cfg.slotOff_disjoint hij
      have hmin8 : 8 ≤ cfg.slotSize.toNat := Nat.le_trans (by decide) hmin.le
      exact .inl (by omega)
    have hl := Memory.storeAll_load64 h4 hpair (List.mem_range.mpr hk)
    rw [haddr k hk] at hl
    rw [hl]
    simp [UMem.start, hk]
  · intro k hk
    have hb := (slotOff_lt_total hf hk).1
    obtain ⟨v, hv⟩ := Option.isSome_iff_exists.mp
      (Memory.load32_isSome (m := m') (a := cfg.slotOff k + 8) (by omega))
    simp [UMem.start, hv]
  · intro k _ j _
    rfl

end ShmMpsc
