import ShmMpsc.Lib.Footprint
import ShmMpsc.Ring.Fifo

/-!
# Where the slots are and what touches them

The slots as ranges of addresses, their alignment, and the bytes that each access of `init`,
`push` and `try_pop` reads or writes.
-/

namespace ShmMpsc

set_option autoImplicit false

open RingConfig Memory

variable {cfg : RingConfig}

/-- The range of slot `i`. -/
def InSlot (cfg : RingConfig) (i : UInt64) : Nat → Prop :=
  Span (192 + i.toNat % cfg.N * cfg.S) cfg.S

/-- The slots divide what follows the header. -/
structure SlotsPartition (cfg : RingConfig) : Prop where
  start : ∀ i, (cfg.slotPtr i).toNat = 192 + i.toNat % cfg.N * cfg.S
  inside : ∀ i x, InSlot cfg i x → 192 ≤ x ∧ x < cfg.total.toNat
  same : ∀ i j, i.toNat ≡ j.toNat [MOD cfg.N] → ∀ x, InSlot cfg i x ↔ InSlot cfg j x
  apart : ∀ i j, ¬ i.toNat ≡ j.toNat [MOD cfg.N] → ∀ x, ¬ (InSlot cfg i x ∧ InSlot cfg j x)

theorem slotsPartition (hg : cfg.Admitted) (hf : cfg.Fits) : SlotsPartition cfg where
  start := slotPtr_toNat hg hf
  inside := by
    intro i x hx
    have hle := (slotOff_lt_total hf (Nat.mod_lt i.toNat hg.pos)).1
    unfold slotOff at hle
    exact ⟨by have := hx.1; omega, Nat.lt_of_lt_of_le hx.2 hle⟩
  same := by
    intro i j hij x
    have hmod : i.toNat % cfg.N = j.toNat % cfg.N := hij
    rw [InSlot, InSlot, hmod]
  apart := by
    intro i j hij x hx
    obtain ⟨⟨hi1, hi2⟩, ⟨hj1, hj2⟩⟩ := hx
    have hne : i.toNat % cfg.N ≠ j.toNat % cfg.N := hij
    have hapart : 192 + i.toNat % cfg.N * cfg.S + cfg.S ≤ 192 + j.toNat % cfg.N * cfg.S ∨
        192 + j.toNat % cfg.N * cfg.S + cfg.S ≤ 192 + i.toNat % cfg.N * cfg.S :=
      cfg.slotOff_apart hne
    omega

/-! ### Alignment -/

/-- From every page-aligned base, the words of every slot header are aligned: `seq` for an
`AtomicU64`, `len` for a `u32`. -/
structure SlotsAligned (cfg : RingConfig) : Prop where
  seq : ∀ base idx : UInt64, base.toNat % 4096 = 0 → (base + cfg.slotPtr idx).toNat % 8 = 0
  len : ∀ base idx : UInt64, base.toNat % 4096 = 0 → (base + cfg.slotPtr idx + 8).toNat % 4 = 0

/-- Wrapping at 2^64 keeps an address modulo eight. -/
theorem address_mod_eight (hg : cfg.Admitted) (base idx : UInt64) (hbase : base.toNat % 4096 = 0) :
    (base + cfg.slotPtr idx).toNat % 8 = idx.toNat % cfg.N * cfg.S % 8 := by
  rw [slotPtr, UInt64.toNat_add, UInt64.toNat_add, UInt64.toNat_mul, and_mask hg]
  change (base.toNat + (192 + idx.toNat % cfg.N * cfg.S % 2 ^ 64) % 2 ^ 64) % 2 ^ 64 % 8 = _
  generalize idx.toNat % cfg.N * cfg.S = off
  omega

theorem slots_aligned_iff (hc : cfg.check = .ok ()) :
    SlotsAligned cfg ↔ cfg.N = 1 ∨ 8 ∣ cfg.S := by
  have hg := check_iff.mp hc
  constructor
  · intro h
    by_cases hone : cfg.N = 1
    · exact .inl hone
    · right
      have hpos : 0 < cfg.N := hg.pos
      have hmod : (1 : UInt64).toNat % cfg.N = 1 := Nat.mod_eq_of_lt (by change 1 < _; omega)
      have haddr := address_mod_eight hg 0 1 rfl
      rw [hmod, Nat.one_mul, h.seq 0 1 rfl] at haddr
      exact Nat.dvd_of_mod_eq_zero haddr.symm
  · intro h
    have hoff : ∀ idx : UInt64, idx.toNat % cfg.N * cfg.S % 8 = 0 := by
      intro idx
      rcases h with hone | hS
      · rw [hone, Nat.mod_one, Nat.zero_mul]
      · exact Nat.mod_eq_zero_of_dvd (Nat.dvd_mul_left_of_dvd hS _)
    have hseq : ∀ base idx : UInt64, base.toNat % 4096 = 0 →
        (base + cfg.slotPtr idx).toNat % 8 = 0 := by
      intro base idx hbase
      rw [address_mod_eight hg base idx hbase, hoff]
    refine ⟨hseq, ?_⟩
    intro base idx hbase
    have h8 := hseq base idx hbase
    rw [UInt64.toNat_add]
    change ((base + cfg.slotPtr idx).toNat + 8) % 2 ^ 64 % 4 = 0
    omega

theorem slots_aligned_small :
    SlotsAligned Presets.SMALL ↔ Presets.SMALL.N = 1 ∨ 8 ∣ Presets.SMALL.S :=
  slots_aligned_iff (by decide)

/-- Slots of a hundred bytes. -/
def hundred : RingConfig := { numSlots := 2, slotSize := 100 }

theorem hundred_misaligned : hundred.check = .ok () ∧ hundred.Fits ∧
    ((4096 : UInt64) + hundred.slotPtr 1).toNat % 8 = 4 ∧ ¬ SlotsAligned hundred := by
  refine ⟨by decide, by unfold Fits; decide, by decide, ?_⟩
  intro h
  have haddr := h.seq 4096 1 rfl
  exact absurd haddr (by decide)

/-! ### Footprints -/

/-- The step of `push` as an operation on the memory. -/
def pushOp (cfg : RingConfig) (spurious : Bool) (pc : PushPc UInt64) (m : Memory) :
    Option ((PushPc UInt64 × List (PushEvent UInt64)) × Memory) :=
  (pushStep (segOps cfg) spurious pc m).map fun r => ((r.1, r.2.2), r.2.1)

def popOp (cfg : RingConfig) (pc : PopPc UInt64) (m : Memory) :
    Option ((PopPc UInt64 × List (PopEvent UInt64)) × Memory) :=
  (popStep (segOps cfg) pc m).map fun r => ((r.1, r.2.2), r.2.1)

/-- The tail cell, or the slot that the push works on. -/
def PushPc.area (cfg : RingConfig) : PushPc UInt64 → Nat → Prop
  | .loadTail _ | .cas _ _ => Span 0 8
  | .loadSeq _ pos | .writeLen _ pos | .writePayload _ pos | .publish _ pos => InSlot cfg pos
  | .idle | .done _ => fun _ => False

/-- The head cell, or the slot at the head. -/
def PopPc.area (cfg : RingConfig) : PopPc UInt64 → Nat → Prop
  | .loadHead _ | .storeHead _ _ => Span 64 8
  | .loadSeq _ head | .readLen _ head | .readPayload _ head _ | .release _ head => InSlot cfg head
  | .idle | .done _ _ => fun _ => False

/-- The three header cells and the `seq` word of each slot. -/
def initArea (cfg : RingConfig) (x : Nat) : Prop :=
  Span 0 8 x ∨ Span 64 8 x ∨ Span 128 8 x ∨
    ∃ i : UInt64, InSlot cfg i x ∧ Span (192 + i.toNat % cfg.N * cfg.S) 8 x

section Confined

variable (hg : cfg.Admitted) (hf : cfg.Fits)
include hg hf

theorem slotPtr_add_toNat (pos : UInt64) {d : UInt64} (hd : d.toNat ≤ 16) :
    (cfg.slotPtr pos + d).toNat = 192 + pos.toNat % cfg.N * cfg.S + d.toNat := by
  have h := slotPtr_add hg hf pos.toNat hd
  rwa [UInt64.ofNat_toNat] at h

theorem slotPtr_len (pos : UInt64) :
    (cfg.slotPtr pos + 8).toNat = cfg.slotOff (cfg.slotOf pos.toNat) + 8 :=
  slotPtr_add_toNat hg hf pos (by decide)

theorem slotPtr_payload (pos : UInt64) :
    (cfg.slotPtr pos + SLOT_HDR).toNat = cfg.slotOff (cfg.slotOf pos.toNat) + 16 :=
  slotPtr_add_toNat hg hf pos (by decide)

theorem seq_inSlot (pos : UInt64) {x : Nat} (hx : Span (cfg.slotPtr pos).toNat 8 x) :
    InSlot cfg pos x := by
  have hmin : 20 < cfg.S := hg.min
  have hptr : (cfg.slotPtr pos).toNat = 192 + pos.toNat % cfg.N * cfg.S := slotPtr_toNat hg hf pos
  obtain ⟨h1, h2⟩ := hx
  exact ⟨by omega, by omega⟩

theorem len_inSlot (pos : UInt64) {x : Nat} (hx : Span (cfg.slotPtr pos + 8).toNat 4 x) :
    InSlot cfg pos x := by
  have hmin : 20 < cfg.S := hg.min
  have hptr : (cfg.slotPtr pos + 8).toNat = 192 + pos.toNat % cfg.N * cfg.S + 8 :=
    slotPtr_len hg hf pos
  obtain ⟨h1, h2⟩ := hx
  exact ⟨by omega, by omega⟩

theorem payload_inSlot (pos : UInt64) {n x : Nat} (hn : n ≤ cfg.S - 16)
    (hx : Span (cfg.slotPtr pos + SLOT_HDR).toNat n x) : InSlot cfg pos x := by
  have hmin : 20 < cfg.S := hg.min
  have hptr : (cfg.slotPtr pos + SLOT_HDR).toNat = 192 + pos.toNat % cfg.N * cfg.S + 16 :=
    slotPtr_payload hg hf pos
  obtain ⟨h1, h2⟩ := hx
  exact ⟨by omega, by omega⟩

theorem push_confined {spurious : Bool} {pc : PushPc UInt64}
    (hdata : ∀ data, pc.data = some data → data.length ≤ cfg.S - 20) :
    Confined (pc.area cfg) (pushOp cfg spurious pc) := by
  cases pc with
  | idle => exact .none
  | done r => exact .none
  | loadTail data =>
    have h :=
      (confined_load64 0).map
        (g := fun pos => (PushPc.loadSeq data pos, [(.tailLoad : PushEvent UInt64)]))
    exact h.congr fun m => by simp only [pushOp, pushStep, segOps, Option.map_map,
      Function.comp_def]
  | loadSeq data pos =>
    have h := ((confined_load64 (cfg.slotPtr pos).toNat).mono fun _ => seq_inSlot hg hf pos).map
      (g := fun seq =>
        let diff := (segOps cfg).diff seq pos
        if diff = 0 then (PushPc.cas data pos, ([] : List (PushEvent UInt64)))
        else if diff < 0 then (.done (.error .full), [.full])
        else (.loadTail data, []))
    refine h.congr fun m => ?_
    simp only [pushOp, pushStep, Option.map_map]
    apply Option.map_congr
    intro seq _
    simp only [Function.comp_apply]
    split
    · rfl
    · split <;> rfl
  | cas data pos =>
    cases spurious with
    | true =>
      have h := Confined.pure (R := Span 0 8)
        ((.loadTail data, [.casFail true]) : PushPc UInt64 × List (PushEvent UInt64))
      exact h.congr fun m => by simp [pushOp, pushStep]
    | false =>
      have h := (confined_load64 0).bind (g := fun cur m =>
        if cur = pos then (m.store64 0 (pos + 1)).map fun m' =>
          ((PushPc.writeLen data pos, [PushEvent.reserve data pos]), m')
        else some ((.loadTail data, [.casFail false]), m)) (by
          intro cur
          split
          · have hs := (confined_store64 0 (pos + 1)).map
              (g := fun _ => (PushPc.writeLen data pos, [PushEvent.reserve data pos]))
            simpa only [Option.map_map, Function.comp_def] using hs
          · exact .pure _)
      refine h.congr fun m => ?_
      cases hload : m.load64 0 with
      | none => simp [pushOp, pushStep, segOps, hload]
      | some cur =>
        by_cases hcur : cur = pos
        · simp [pushOp, pushStep, segOps, hload, hcur, Function.comp_def]
        · simp [pushOp, pushStep, segOps, hload, hcur]
  | writeLen data pos =>
    have h := ((confined_store32 (cfg.slotPtr pos + 8).toNat (UInt32.ofNat data.length)).mono
      fun _ => len_inSlot hg hf pos).map
      (g := fun _ => (PushPc.writePayload data pos, ([] : List (PushEvent UInt64))))
    exact h.congr fun m => by simp only [pushOp, pushStep, segOps, Option.map_map,
      Function.comp_def]
  | writePayload data pos =>
    have hlen := hdata data rfl
    have h := ((confined_write (cfg.slotPtr pos + SLOT_HDR).toNat data).mono
      fun _ => payload_inSlot hg hf pos (by omega)).map
      (g := fun _ => (PushPc.publish data pos, ([] : List (PushEvent UInt64))))
    exact h.congr fun m => by simp only [pushOp, pushStep, segOps, Option.map_map,
      Function.comp_def]
  | publish data pos =>
    have h := ((confined_store64 (cfg.slotPtr pos).toNat (pos + 1)).mono
      fun _ => seq_inSlot hg hf pos).map
      (g := fun _ => (PushPc.done (.ok pos), [PushEvent.publish pos]))
    exact h.congr fun m => by simp only [pushOp, pushStep, segOps, Option.map_map,
      Function.comp_def]

theorem pop_confined {pc : PopPc UInt64}
    (hlen : ∀ out head len, pc = .readPayload out head len → len ≤ cfg.S - 16) :
    Confined (pc.area cfg) (popOp cfg pc) := by
  cases pc with
  | idle => exact .none
  | done r out => exact .none
  | loadHead out =>
    have h := (confined_load64 64).map
      (g := fun head => (PopPc.loadSeq out head, ([] : List (PopEvent UInt64))))
    exact h.congr fun m => by simp only [popOp, popStep, segOps, Option.map_map, Function.comp_def]
  | loadSeq out head =>
    have h := ((confined_load64 (cfg.slotPtr head).toNat).mono fun _ => seq_inSlot hg hf head).map
      (g := fun seq => if seq ≠ head + 1 then (PopPc.done none out, [(.none out : PopEvent UInt64)])
        else (.readLen out head, []))
    refine h.congr fun m => ?_
    simp only [popOp, popStep, Option.map_map]
    apply Option.map_congr
    intro seq _
    by_cases hseq : seq = head + 1
    · simp [segOps, hseq]
    · simp [segOps, hseq]
  | readLen out head =>
    have h :=
      ((confined_load32 (cfg.slotPtr head + 8).toNat).mono fun _ => len_inSlot hg hf head).map
      (g := fun len => (PopPc.readPayload out head len.toNat, ([] : List (PopEvent UInt64))))
    exact h.congr fun m => by simp only [popOp, popStep, segOps, Option.map_map, Function.comp_def]
  | readPayload out head len =>
    have h := ((confined_read (cfg.slotPtr head + SLOT_HDR).toNat len).mono
      fun _ => payload_inSlot hg hf head (hlen out head len rfl)).map
      (g := fun bs => (PopPc.release bs head, ([] : List (PopEvent UInt64))))
    exact h.congr fun m => by simp only [popOp, popStep, segOps, Option.map_map, Function.comp_def]
  | release out head =>
    have h := ((confined_store64 (cfg.slotPtr head).toNat (head + cfg.numSlots)).mono
      fun _ => seq_inSlot hg hf head).map
      (g := fun _ => (PopPc.storeHead out head, [PopEvent.release head]))
    exact h.congr fun m => by simp only [popOp, popStep, segOps, Option.map_map, Function.comp_def]
  | storeHead out head =>
    have h := (confined_store64 64 (head + 1)).map
      (g := fun _ => (PopPc.done (some head) out, [PopEvent.some head out]))
    exact h.congr fun m => by simp only [popOp, popStep, segOps, Option.map_map, Function.comp_def]

theorem init_confined : Confined (initArea cfg) (fun m => (init cfg m).map fun m' => ((), m')) := by
  have hcheck := check_iff.mpr hg
  have hslots : Confined (initArea cfg) (fun m =>
      (m.storeAll (fun i => (cfg.slotPtr (UInt64.ofNat i)).toNat) UInt64.ofNat
        (List.range cfg.N)).map fun m' => ((), m')) := by
    apply confined_storeAll
    intro i _ x hx
    have hptr : (cfg.slotPtr (UInt64.ofNat i)).toNat =
        192 + (UInt64.ofNat i).toNat % cfg.N * cfg.S := slotPtr_toNat hg hf _
    exact .inr (.inr (.inr ⟨UInt64.ofNat i, seq_inSlot hg hf _ hx, hptr ▸ hx⟩))
  have hcell : ∀ a v, (∀ x, Span a 8 x → initArea cfg x) →
      Confined (initArea cfg) (fun m => (m.store64 a v).map fun m' => ((), m')) :=
    fun a v ha => (confined_store64 a v).mono ha
  have hall := (hcell 0 0 fun _ h => .inl h).bind fun _ =>
    (hcell 64 0 fun _ h => .inr (.inl h)).bind fun _ =>
      (hcell 128 STATE_RUNNING fun _ h => .inr (.inr (.inl h))).bind fun _ => hslots
  simpa only [init, hcheck, Option.bind_map, Option.map_bind, Function.comp_def] using hall

end Confined

end ShmMpsc
