import ShmMpsc.Ring.Layout
import ShmMpsc.Ring.Sequential

/-!
# The length words

`try_pop` reads as many bytes as the length word of a slot says. In every run that word is one
that a `push` has written by then, so that the read ends inside the slot.
-/

namespace ShmMpsc

set_option autoImplicit false

open RingConfig Memory

variable {cfg : RingConfig} {ι : Type}

/-- The length word of slot `k` is one that `push` writes. -/
def Sized (cfg : RingConfig) (m : Memory) (k : Nat) : Prop :=
  ∃ len, m.load32 (cfg.slotOff k + 8) = some len ∧ len.toNat ≤ cfg.S - 20

/-- What a step may do to the words the invariant is about. -/
structure Grows (cfg : RingConfig) (m m' : Memory) : Prop where
  size : m'.size = m.size
  sized : ∀ k, k < cfg.N → Sized cfg m k → Sized cfg m' k
  seq : ∀ k, k < cfg.N → m'.load64 (cfg.slotOff k) = m.load64 (cfg.slotOff k) ∨ Sized cfg m' k
  head : m'.load64 64 = m.load64 64 ∨ ∃ k, k < cfg.N ∧ Sized cfg m' k

namespace Grows

variable {m m' : Memory} {a : Nat} {bs : List UInt8} {pos : UInt64}

theorem refl (m : Memory) : Grows cfg m m :=
  ⟨rfl, fun _ _ h => h, fun _ _ => .inl rfl, .inl rfl⟩

/-- A write that misses the words of a slot, or leaves it sized. -/
theorem of_write (hw : m.write a bs = some m')
    (hslot : ∀ k, k < cfg.N → cfg.slotOff k + 12 ≤ a ∨ a + bs.length ≤ cfg.slotOff k ∨
      Sized cfg m' k)
    (hhead : 72 ≤ a ∨ a + bs.length ≤ 64 ∨ ∃ k, k < cfg.N ∧ Sized cfg m' k) : Grows cfg m m' where
  size := write_size hw
  sized := by
    intro k hk hsized
    rcases hslot k hk with h | h | h
    · rw [Sized, load32_write hw (.inl (by omega))]
      exact hsized
    · rw [Sized, load32_write hw (.inr (by omega))]
      exact hsized
    · exact h
  seq := by
    intro k hk
    rcases hslot k hk with h | h | h
    · exact .inl (load64_write hw (.inl (by omega)))
    · exact .inl (load64_write hw (.inr h))
    · exact .inr h
  head := by
    rcases hhead with h | h | h
    · exact .inl (load64_write hw (.inl h))
    · exact .inl (load64_write hw (.inr h))
    · exact .inr h

theorem of_header {v : UInt64} (hm : m.store64 a v = some m') (ha : a + 8 ≤ 192)
    (hhead : 72 ≤ a ∨ a + 8 ≤ 64 ∨ ∃ k, k < cfg.N ∧ Sized cfg m k) : Grows cfg m m' := by
  have hafter : ∀ k, cfg.slotOff k + 12 ≤ a ∨ a + (toLE 8 v.toNat).length ≤ cfg.slotOff k := by
    intro k
    rw [toLE_length]
    unfold slotOff
    omega
  refine of_write hm (fun k _ => (hafter k).imp_right .inl) ?_
  rcases hhead with h | h | ⟨k, hk, hsized⟩
  · exact .inl h
  · exact .inr (.inl (by rwa [toLE_length]))
  · refine .inr (.inr ⟨k, hk, ?_⟩)
    have ha' := hafter k
    rw [Sized, load32_write hm (by omega)]
    exact hsized

/-- A write inside one slot leaves the others alone. -/
theorem of_slot (hg : cfg.Admitted) (pos : UInt64) (hw : m.write a bs = some m')
    (hlo : cfg.slotOff (cfg.slotOf pos.toNat) ≤ a)
    (hhi : a + bs.length ≤ cfg.slotOff (cfg.slotOf pos.toNat) + cfg.S)
    (hsized : Sized cfg m' (cfg.slotOf pos.toNat)) : Grows cfg m m' := by
  have hmin : 20 < cfg.S := hg.min
  refine of_write hw ?_ (.inr (.inr ⟨_, slotOf_lt hg.pos pos.toNat, hsized⟩))
  intro k _
  by_cases hk : k = cfg.slotOf pos.toNat
  · exact .inr (.inr (hk ▸ hsized))
  · rcases cfg.slotOff_apart hk with h | h
    · have hend : cfg.slotOff k + cfg.S ≤ cfg.slotOff (cfg.slotOf pos.toNat) := h
      exact .inl (by omega)
    · have hend : cfg.slotOff (cfg.slotOf pos.toNat) + cfg.S ≤ cfg.slotOff k := h
      exact .inr (.inl (by omega))

section Slot

variable (hg : cfg.Admitted) (hf : cfg.Fits)
include hg hf

theorem storeSeq {v : UInt64} (hm : m.store64 (cfg.slotPtr pos).toNat v = some m')
    (hsized : Sized cfg m (cfg.slotOf pos.toNat)) : Grows cfg m m' := by
  have hmin : 20 < cfg.S := hg.min
  rw [slotPtr_toNat hg hf] at hm
  refine of_slot hg pos hm (Nat.le_refl _) ?_ ?_
  · rw [toLE_length]
    omega
  · rw [Sized, load32_store64_of_disjoint hm (.inr (by omega))]
    exact hsized

theorem storeLen {data : List UInt8} (hlen : data.length ≤ cfg.S - 20)
    (hm : m.store32 (cfg.slotPtr pos + 8).toNat (UInt32.ofNat data.length) = some m') :
    Grows cfg m m' ∧ Sized cfg m' (cfg.slotOf pos.toNat) := by
  have hmin : 20 < cfg.S := hg.min
  rw [slotPtr_len hg hf] at hm
  have hsized : Sized cfg m' (cfg.slotOf pos.toNat) := by
    refine ⟨_, load32_store32 hm, ?_⟩
    rw [UInt32.toNat_ofNat']
    exact Nat.le_trans (Nat.mod_le _ _) hlen
  refine ⟨of_slot hg pos hm (by omega) ?_ hsized, hsized⟩
  rw [toLE_length]
  omega

theorem writePayload (hlen : bs.length ≤ cfg.S - 20)
    (hw : m.write (cfg.slotPtr pos + SLOT_HDR).toNat bs = some m')
    (hsized : Sized cfg m (cfg.slotOf pos.toNat)) : Grows cfg m m' := by
  have hmin : 20 < cfg.S := hg.min
  rw [slotPtr_payload hg hf] at hw
  refine of_slot hg pos hw (by omega) (by omega) ?_
  rw [Sized, load32_write hw (.inl (by omega))]
  exact hsized

end Slot

end Grows

/-- A push past its length write. -/
def PushPc.sizedAt : PushPc UInt64 → Option UInt64
  | .writePayload _ pos | .publish _ pos => some pos
  | _ => none

/-- A pop past its comparison of `seq`. -/
def PopPc.sizedAt : PopPc UInt64 → Option UInt64
  | .readLen _ head | .readPayload _ head _ | .release _ head | .storeHead _ head => some head
  | _ => none

theorem casTail_won {expected new : UInt64} {m m' : Memory}
    (h : (segOps cfg).casTail expected new m = some (m', true)) : m.store64 0 new = some m' := by
  obtain ⟨cur, _, h⟩ := Option.bind_eq_some_iff.mp h
  split at h
  · obtain ⟨m1, hm, h⟩ := Option.map_eq_some_iff.mp h
    cases h
    exact hm
  · cases h

theorem casTail_lost {expected new : UInt64} {m m' : Memory}
    (h : (segOps cfg).casTail expected new m = some (m', false)) : m' = m := by
  obtain ⟨cur, _, h⟩ := Option.bind_eq_some_iff.mp h
  split at h
  · obtain ⟨m1, _, h⟩ := Option.map_eq_some_iff.mp h
    cases h
  · cases h
    rfl

section Steps

variable {m m' : Memory} (hg : cfg.Admitted) (hf : cfg.Fits)
include hg hf

theorem push_step {spurious : Bool} {pc pc' : PushPc UInt64} {ev : List (PushEvent UInt64)}
    (ht : PushTrans (segOps cfg) spurious pc m pc' m' ev)
    (hdata : ∀ data, pc.data = some data → data.length ≤ cfg.S - 20)
    (hsized : ∀ pos, pc.sizedAt = some pos → Sized cfg m (cfg.slotOf pos.toNat)) :
    Grows cfg m m' ∧ ∀ pos, pc'.sizedAt = some pos → Sized cfg m' (cfg.slotOf pos.toNat) := by
  cases ht with
  | loadTail | free | full | stale | spurious =>
    refine ⟨.refl m, fun pos hpos => ?_⟩
    cases hpos
  | won _ hc =>
    refine ⟨.of_header (casTail_won hc) (by decide) (.inr (.inl (by decide))), fun pos hpos => ?_⟩
    cases hpos
  | lost _ hc =>
    rw [casTail_lost hc]
    refine ⟨.refl m, fun pos hpos => ?_⟩
    cases hpos
  | @writeLen data pos _ _ hm =>
    obtain ⟨hmem, hnew⟩ := Grows.storeLen hg hf (hdata data rfl) hm
    refine ⟨hmem, fun pos' hpos => ?_⟩
    cases hpos
    exact hnew
  | @writePayload data pos _ _ hm =>
    have hold := hsized pos rfl
    have hmem := Grows.writePayload hg hf (hdata data rfl) hm hold
    refine ⟨hmem, fun pos' hpos => ?_⟩
    cases hpos
    exact hmem.sized _ (slotOf_lt hg.pos _) hold
  | @publish data pos _ _ hm =>
    refine ⟨.storeSeq hg hf hm (hsized pos rfl), fun pos' hpos => ?_⟩
    cases hpos

section Pop

variable {pc pc' : PopPc UInt64} {ev : List (PopEvent UInt64)} {out : List UInt8} {head : UInt64}

theorem pop_grows (ht : PopTrans (segOps cfg) pc m pc' m' ev)
    (hsized : ∀ head, pc.sizedAt = some head → Sized cfg m (cfg.slotOf head.toNat)) :
    Grows cfg m m' := by
  cases ht with
  | loadHead | empty | ready | readLen | readPayload => exact .refl m
  | release hm => exact .storeSeq hg hf hm (hsized _ rfl)
  | storeHead hm =>
    exact .of_header hm (by decide) (.inr (.inr ⟨_, slotOf_lt hg.pos _, hsized _ rfl⟩))

omit hf in
theorem pop_sizedAt (ht : PopTrans (segOps cfg) pc m pc' m' ev) (hgrows : Grows cfg m m')
    (hsized : ∀ head, pc.sizedAt = some head → Sized cfg m (cfg.slotOf head.toNat))
    (hready : ∀ out head, pc = .loadSeq out head →
      m.load64 (cfg.slotPtr head).toNat = some (head + 1) → Sized cfg m (cfg.slotOf head.toNat))
    (hpc : pc'.sizedAt = some head) : Sized cfg m' (cfg.slotOf head.toNat) := by
  have hkeep : pc.sizedAt = some head → Sized cfg m' (cfg.slotOf head.toNat) :=
    fun hold => hgrows.sized _ (slotOf_lt hg.pos _) (hsized head hold)
  cases ht with
  | loadHead | empty | storeHead => cases hpc
  | @ready out head' _ hload =>
    cases hpc
    exact hready out head rfl hload
  | readLen | readPayload | release =>
    cases hpc
    exact hkeep rfl

theorem pop_len {len : Nat} (ht : PopTrans (segOps cfg) pc m pc' m' ev)
    (hsized : ∀ head, pc.sizedAt = some head → Sized cfg m (cfg.slotOf head.toNat))
    (hpc : pc' = .readPayload out head len) : len ≤ cfg.S - 20 := by
  cases ht with
  | loadHead | empty | ready | readPayload | release | storeHead => cases hpc
  | @readLen _ _ _ len hload =>
    cases hpc
    obtain ⟨len', hlen', hle⟩ := hsized head rfl
    have hload' : m.load32 (cfg.slotPtr head + 8).toNat = some len := hload
    rw [slotPtr_len hg hf, hlen'] at hload'
    rwa [← Option.some.inj hload']

omit hg hf in
theorem pop_head (ht : PopTrans (segOps cfg) pc m pc' m' ev) (hpc : pc' = .loadSeq out head) :
    m.load64 64 = some head := by
  cases ht with
  | loadHead hload =>
    cases hpc
    exact hload
  | empty | ready | readLen | readPayload | release | storeHead => cases hpc

end Pop

end Steps

/-- Slots are as `init` left them until a push has written their length, and so is the head as
long as that is so for all of them. -/
structure LenInv (cfg : RingConfig) (s : RingState ι UInt64 Memory) : Prop where
  size : s.mem.size = cfg.total.toNat
  data : ∀ i data, (s.push i).data = some data → data.length ≤ cfg.S - 20
  pushed : ∀ i pos, (s.push i).sizedAt = some pos → Sized cfg s.mem (cfg.slotOf pos.toNat)
  popping : ∀ head, s.pop.sizedAt = some head → Sized cfg s.mem (cfg.slotOf head.toNat)
  len : ∀ out head len, s.pop = .readPayload out head len → len ≤ cfg.S - 20
  seq : ∀ k, k < cfg.N → s.mem.load64 (cfg.slotOff k) = some (UInt64.ofNat k) ∨ Sized cfg s.mem k
  head : (s.mem.load64 64 = some 0 ∧ ∀ out head, s.pop = .loadSeq out head → head = 0) ∨
    ∃ k, k < cfg.N ∧ Sized cfg s.mem k

namespace LenInv

variable {s s' : RingState ι UInt64 Memory}

theorem start (hg : cfg.Admitted) {m m' : Memory} (hm : m.size = cfg.total.toNat)
    (h : init cfg m = some m') : LenInv cfg (RingState.start m' : RingState ι UInt64 Memory) := by
  obtain ⟨_, len, payload, hsim⟩ := memSim_init hg hm h
  refine ⟨hsim.size, ?_, ?_, ?_, ?_, ?_, .inl ⟨hsim.head, ?_⟩⟩
  · intro i data hi
    cases hi
  · intro i pos hi
    cases hi
  · intro head hi
    cases hi
  · intro out head len hpc
    cases hpc
  · intro k hk
    refine .inl ((hsim.seq k hk).trans ?_)
    simp [UMem.start, hk]
  · intro out head hpc
    cases hpc

/-- The `seq` word that a pop goes on with is not the one of `init`. -/
theorem sized_of_ready (hg : cfg.Admitted) (hf : cfg.Fits) (h : LenInv cfg s) {out : List UInt8}
    {head : UInt64} (hpc : s.pop = .loadSeq out head)
    (hseq : s.mem.load64 (cfg.slotPtr head).toNat = some (head + 1)) :
    Sized cfg s.mem (cfg.slotOf head.toNat) := by
  have hpos : 0 < cfg.N := hg.pos
  have hlt := slotOf_lt hg.pos head.toNat
  rw [slotPtr_toNat hg hf] at hseq
  rcases h.seq _ hlt with hinit | hsized
  · rw [hseq] at hinit
    have heq : head + 1 = UInt64.ofNat (cfg.slotOf head.toNat) := Option.some.inj hinit
    have hnat := congrArg UInt64.toNat heq
    rw [UInt64.toNat_add, UInt64.toNat_ofNat'] at hnat
    change (head.toNat + 1) % 2 ^ 64 = _ at hnat
    have hslot := congrArg cfg.slotOf hnat
    rw [slotOf_mod hg, slotOf_mod hg] at hslot
    have hsucc : (head.toNat + 1) % cfg.N = head.toNat % cfg.N := by
      have hmm : cfg.slotOf (cfg.slotOf head.toNat) = cfg.slotOf head.toNat := Nat.mod_mod _ _
      exact hslot.trans hmm
    -- one slot only, whose seq word is still 0 and never one more than the head
    have hone : cfg.N = 1 := by
      have hmod : (head.toNat + 1) ≡ head.toNat + 0 [MOD cfg.N] := hsucc
      exact Nat.dvd_one.mp ((Nat.modEq_zero_iff_dvd).mp (Nat.ModEq.add_left_cancel' _ hmod))
    rcases h.head with ⟨_, hhead⟩ | ⟨k, hk, hsized⟩
    · rw [hhead out head hpc] at heq
      have hzero : cfg.slotOf (0 : UInt64).toNat = 0 := Nat.zero_mod _
      rw [hzero] at heq
      exact absurd heq (by decide)
    · have hk0 : k = cfg.slotOf head.toNat := by
        have hlt' : cfg.slotOf head.toNat < cfg.N := hlt
        omega
      exact hk0 ▸ hsized
  · exact hsized

/-- The words keep what they have, the parties need what concerns them. -/
theorem of_grows (hg : cfg.Admitted) (h : LenInv cfg s) (hmem : Grows cfg s.mem s'.mem)
    (hdata : ∀ i data, (s'.push i).data = some data → data.length ≤ cfg.S - 20)
    (hpushed : ∀ i pos, (s'.push i).sizedAt = some pos →
      (s.push i).sizedAt = some pos ∨ Sized cfg s'.mem (cfg.slotOf pos.toNat))
    (hpopping : ∀ head, s'.pop.sizedAt = some head →
      s.pop.sizedAt = some head ∨ Sized cfg s'.mem (cfg.slotOf head.toNat))
    (hlen : ∀ out head len, s'.pop = .readPayload out head len →
      s.pop = .readPayload out head len ∨ len ≤ cfg.S - 20)
    (hhead : ∀ out head, s'.pop = .loadSeq out head →
      s.pop = .loadSeq out head ∨ s.mem.load64 64 = some head) : LenInv cfg s' where
  size := hmem.size.trans h.size
  data := hdata
  pushed := by
    intro i pos hi
    rcases hpushed i pos hi with hold | hnew
    · exact hmem.sized _ (slotOf_lt hg.pos _) (h.pushed i pos hold)
    · exact hnew
  popping := by
    intro head hi
    rcases hpopping head hi with hold | hnew
    · exact hmem.sized _ (slotOf_lt hg.pos _) (h.popping head hold)
    · exact hnew
  len := by
    intro out head len hpc
    rcases hlen out head len hpc with hold | hnew
    · exact h.len out head len hold
    · exact hnew
  seq := by
    intro k hk
    rcases hmem.seq k hk with hkeep | hsized
    · rw [hkeep]
      exact (h.seq k hk).imp_right (hmem.sized k hk)
    · exact .inr hsized
  head := by
    rcases h.head with ⟨hzero, hpc⟩ | ⟨k, hk, hsized⟩
    · rcases hmem.head with hkeep | hsized
      · refine .inl ⟨hkeep.trans hzero, ?_⟩
        intro out head hpc'
        rcases hhead out head hpc' with hold | hload
        · exact hpc out head hold
        · rw [hzero] at hload
          exact (Option.some.inj hload).symm
      · exact .inr hsized
    · exact .inr ⟨k, hk, hmem.sized k hk hsized⟩

section Step

variable [DecidableEq ι] {a : RingAction ι} {ev : List (RingEvent ι UInt64)}

theorem step (hg : cfg.Admitted) (hf : cfg.Fits) (h : LenInv cfg s)
    (hs : ringStep (segOps cfg) s a = some (s', ev)) : LenInv cfg s' := by
  cases ringTrans_of_step hs with
  | @call i data _ =>
    refine of_grows hg h (.refl _) ?_ ?_ (fun _ => .inl) (fun _ _ _ => .inl) (fun _ _ => .inl)
    · intro j d hd
      by_cases hj : j = i
      · subst hj
        simp only [Function.update_self, pushCall] at hd
        split at hd
        · cases hd
        · rename_i hlen
          cases hd
          rw [← maxLen_toNat hg.min]
          exact Nat.le_of_not_lt hlen
      · exact h.data j d (by simpa [hj] using hd)
    · intro j pos hpos
      by_cases hj : j = i
      · subst hj
        simp only [Function.update_self, pushCall] at hpos
        split at hpos <;> cases hpos
      · exact .inl (by simpa [hj] using hpos)
  | @push i spurious pc m pev ht =>
    obtain ⟨hmem, hsized⟩ := push_step hg hf ht (h.data i) (h.pushed i)
    refine of_grows hg h hmem ?_ ?_ (fun _ => .inl) (fun _ _ _ => .inl) (fun _ _ => .inl)
    · intro j d hd
      by_cases hj : j = i
      · subst hj
        exact h.data j d (ht.data_eq (by simpa using hd))
      · exact h.data j d (by simpa [hj] using hd)
    · intro j pos hpos
      by_cases hj : j = i
      · subst hj
        exact .inr (hsized pos (by simpa using hpos))
      · exact .inl (by simpa [hj] using hpos)
  | @popCall out _ =>
    refine of_grows hg h (.refl _) h.data (fun _ _ => .inl) ?_ ?_ ?_
    · intro head hpc
      cases hpc
    · intro o head len hpc
      cases hpc
    · intro o head hpc
      cases hpc
  | @pop pc m pev ht =>
    have hmem := pop_grows hg hf ht h.popping
    exact of_grows hg h hmem h.data (fun _ _ => .inl)
      (fun head hpc => .inr (pop_sizedAt hg ht hmem h.popping
        (fun _ _ => h.sized_of_ready hg hf) hpc))
      (fun out head len hpc => .inr (pop_len hg hf ht h.popping hpc))
      (fun out head hpc => .inr (pop_head ht hpc))
  | @state v m hm =>
    exact of_grows hg h (.of_header hm (by decide) (.inl (by decide))) h.data (fun _ _ => .inl)
      (fun _ => .inl) (fun _ _ _ => .inl) (fun _ _ => .inl)

theorem of_run {as : List (RingAction ι)} {log : List (RingEvent ι UInt64)}
    {G : Machine.Guard (RingState ι UInt64 Memory) (RingAction ι) (RingEvent ι UInt64)}
    (h : InitRun cfg G as s log) : LenInv cfg s := by
  have hg := h.admitted
  have hf := h.fits
  obtain ⟨m, m', hm, hi, hr⟩ := h
  exact hr.invariant (I := fun s _ => LenInv cfg s) (start hg hm hi)
    fun s _ a s' ev hI _ hs => hI.step hg hf hs

end Step

/-! ### Every access is inside the mapping -/

section Moves

variable (hg : cfg.Admitted) (hf : cfg.Fits)
include hg hf

theorem slot_end_le (h : LenInv cfg s) (pos : UInt64) :
    cfg.slotOff (cfg.slotOf pos.toNat) + cfg.S ≤ s.mem.size := by
  rw [h.size]
  exact (slotOff_lt_total hf (slotOf_lt hg.pos _)).1

theorem header_le (h : LenInv cfg s) : 192 ≤ s.mem.size := by
  have hend := h.slot_end_le hg hf 0
  unfold slotOff at hend
  omega

theorem push_moves (h : LenInv cfg s) {i : ι} (hready : (s.push i).ready = false)
    (spurious : Bool) :
    (pushStep (segOps cfg) spurious (s.push i) s.mem).isSome := by
  have hmin : 20 < cfg.S := hg.min
  have hhdr := h.header_le hg hf
  cases hpc : s.push i with
  | idle | done r =>
    rw [hpc] at hready
    cases hready
  | loadTail data =>
    rw [pushStep, Option.isSome_map]
    exact load64_isSome (by omega)
  | loadSeq data pos =>
    have hend := h.slot_end_le hg hf pos
    rw [pushStep, Option.isSome_map]
    refine load64_isSome ?_
    rw [slotPtr_toNat hg hf]
    omega
  | cas data pos =>
    rw [pushStep]
    split
    · rfl
    · obtain ⟨cur, hcur⟩ := Option.isSome_iff_exists.mp
        (load64_isSome (m := s.mem) (a := 0) (by omega))
      rw [Option.isSome_map]
      simp only [segOps, hcur, Option.bind_some]
      split
      · rw [Option.isSome_map]
        exact store64_isSome (by omega)
      · rfl
  | writeLen data pos =>
    have hend := h.slot_end_le hg hf pos
    rw [pushStep, Option.isSome_map]
    refine store32_isSome ?_
    rw [slotPtr_len hg hf]
    omega
  | writePayload data pos =>
    have hend := h.slot_end_le hg hf pos
    have hlen := h.data i data (by rw [hpc]; rfl)
    rw [pushStep, Option.isSome_map]
    refine write_isSome ?_
    rw [slotPtr_payload hg hf]
    omega
  | publish data pos =>
    have hend := h.slot_end_le hg hf pos
    rw [pushStep, Option.isSome_map]
    refine store64_isSome ?_
    rw [slotPtr_toNat hg hf]
    omega

theorem pop_moves (h : LenInv cfg s) (hready : s.pop.ready = false) :
    (popStep (segOps cfg) s.pop s.mem).isSome := by
  have hmin : 20 < cfg.S := hg.min
  have hhdr := h.header_le hg hf
  cases hpc : s.pop with
  | idle | done r out =>
    rw [hpc] at hready
    cases hready
  | loadHead out =>
    rw [popStep, Option.isSome_map]
    exact load64_isSome (by omega)
  | loadSeq out head =>
    have hend := h.slot_end_le hg hf head
    rw [popStep, Option.isSome_map]
    refine load64_isSome ?_
    rw [slotPtr_toNat hg hf]
    omega
  | readLen out head =>
    have hend := h.slot_end_le hg hf head
    rw [popStep, Option.isSome_map]
    refine load32_isSome ?_
    rw [slotPtr_len hg hf]
    omega
  | readPayload out head len =>
    have hend := h.slot_end_le hg hf head
    have hlen := h.len out head len hpc
    rw [popStep, Option.isSome_map]
    refine read_isSome ?_
    rw [slotPtr_payload hg hf]
    omega
  | release out head =>
    have hend := h.slot_end_le hg hf head
    rw [popStep, Option.isSome_map]
    refine store64_isSome ?_
    rw [slotPtr_toNat hg hf]
    omega
  | storeHead out head =>
    rw [popStep, Option.isSome_map]
    exact store64_isSome (by omega)

end Moves

end LenInv

/-! ### Whole calls -/

/-- The slot that a push has reserved. -/
def PushPc.reserved : PushPc UInt64 → Option UInt64
  | .writeLen _ pos | .writePayload _ pos | .publish _ pos | .done (.ok pos) => some pos
  | _ => none

/-- The slot that a pop has given back. -/
def PopPc.released : PopPc UInt64 → Option UInt64
  | .storeHead _ head | .done (some head) _ => some head
  | _ => none

section Calls

variable {m m' : Memory}

theorem pushStep_byte_eq (hg : cfg.Admitted) (hf : cfg.Fits) {spurious : Bool}
    {pc pc' : PushPc UInt64} {ev : List (PushEvent UInt64)}
    (hdata : ∀ data, pc.data = some data → data.length ≤ cfg.S - 20)
    (hs : pushStep (segOps cfg) spurious pc m = some (pc', m', ev)) {x : Nat}
    (hx : ¬ pc.area cfg x) :
    m'.byte x = m.byte x := by
  have hop : pushOp cfg spurious pc m = some ((pc', ev), m') := by
    rw [pushOp, hs]
    rfl
  exact (push_confined hg hf hdata).byte_eq hop hx

/-- Whatever a push alone has changed so far is the tail or in the slot it has reserved. -/
theorem pushSteps_byte_eq (hg : cfg.Admitted) (hf : cfg.Fits) {data : List UInt8}
    {c : PushPc UInt64 × Memory} (h : PushSteps (segOps cfg) (pushCall (segOps cfg) data, m) c) :
    (∀ data, c.1.data = some data → data.length ≤ cfg.S - 20) ∧
    ∀ x, ¬ Span 0 8 x → (∀ pos, c.1.reserved = some pos → ¬ InSlot cfg pos x) →
      c.2.byte x = m.byte x := by
  induction h with
  | refl =>
    refine ⟨?_, fun _ _ _ => rfl⟩
    intro d hd
    simp only [pushCall] at hd
    split at hd
    · cases hd
    · rename_i hlen
      cases hd
      rw [← maxLen_toNat hg.min]
      exact Nat.le_of_not_lt hlen
  | @tail c c' _ hs ih =>
    obtain ⟨hdata, hbyte⟩ := ih
    obtain ⟨spurious, ev, hs⟩ := hs
    obtain ⟨pc, m1⟩ := c
    obtain ⟨pc', m2⟩ := c'
    have ht := pushTrans_of_step hs
    refine ⟨fun d hd => hdata d (ht.data_eq hd), ?_⟩
    intro x hx hslot
    cases ht with
    | loadTail | free | full | stale | spurious =>
      exact hbyte x hx fun pos hpos => by cases hpos
    | won _ _ =>
      have hkeep : m2.byte x = m1.byte x := pushStep_byte_eq hg hf hdata hs hx
      exact hkeep.trans (hbyte x hx fun pos hpos => by cases hpos)
    | lost _ _ =>
      have hkeep : m2.byte x = m1.byte x := pushStep_byte_eq hg hf hdata hs hx
      exact hkeep.trans (hbyte x hx fun pos hpos => by cases hpos)
    | writeLen _ | writePayload _ | publish _ =>
      have hkeep : m2.byte x = m1.byte x := pushStep_byte_eq hg hf hdata hs (hslot _ rfl)
      exact hkeep.trans (hbyte x hx hslot)

/-- Whatever a pop alone has changed so far is the head or in the slot it has released. -/
theorem popSteps_byte_eq (hg : cfg.Admitted) (hf : cfg.Fits) {out : List UInt8}
    {c : PopPc UInt64 × Memory} (h : PopSteps (segOps cfg) (.loadHead out, m) c) {x : Nat}
    (hx : ¬ Span 64 8 x) (hslot : ∀ head, c.1.released = some head → ¬ InSlot cfg head x) :
    c.2.byte x = m.byte x := by
  induction h with
  | refl => rfl
  | @tail c c' _ hs ih =>
    obtain ⟨ev, hs⟩ := hs
    obtain ⟨pc, m1⟩ := c
    obtain ⟨pc', m2⟩ := c'
    cases popTrans_of_step hs with
    | loadHead | empty | ready | readLen | readPayload =>
      apply ih
      intro pos hpos
      cases hpos
    | @release out' head _ _ hm =>
      have hkeep : m2.byte x = m1.byte x := by
        refine byte_write hm ?_
        rw [toLE_length]
        have hout : ¬ Span (cfg.slotPtr head).toNat 8 x :=
          fun hin => hslot head rfl (seq_inSlot hg hf head hin)
        unfold Span at hout
        omega
      refine hkeep.trans (ih fun pos hpos => ?_)
      cases hpos
    | @storeHead out' head _ _ hm =>
      have hkeep : m2.byte x = m1.byte x := by
        refine byte_write hm ?_
        rw [toLE_length]
        unfold Span at hx
        omega
      exact hkeep.trans (ih hslot)

end Calls

/-! ### Accesses stay in their slot, and slots in the mapping -/

/-- What `init`, `push` and `try_pop` touch, step by step in any run and call by call. -/
structure StaysInSlot (cfg : RingConfig) : Prop where
  init : Confined (initArea cfg) fun m => (init cfg m).map fun m' => ((), m')
  push : ∀ (ι : Type) [DecidableEq ι] (as : List (RingAction ι)) s log,
    InitRun cfg Machine.free as s log →
    ∀ i spurious, Confined ((s.push i).area cfg) (pushOp cfg spurious (s.push i))
  pop : ∀ (ι : Type) [DecidableEq ι] (as : List (RingAction ι)) s log,
    InitRun cfg Machine.free as s log → Confined (s.pop.area cfg) (popOp cfg s.pop)
  pushCall : ∀ m m' data pos, Returns (segOps cfg) m (.push data) (.push (.ok pos)) m' →
    ∀ x, ¬ Span 0 8 x → ¬ InSlot cfg pos x → m'.byte x = m.byte x
  popCall : ∀ m m' out pos out', Returns (segOps cfg) m (.pop out) (.pop (some pos) out') m' →
    ∀ x, ¬ Span 64 8 x → ¬ InSlot cfg pos x → m'.byte x = m.byte x

theorem slots_partition (hc : cfg.check = .ok ()) (hb : 192 + cfg.S * cfg.N < 2 ^ 63) :
    SlotsPartition cfg ∧ StaysInSlot cfg := by
  have hg := check_iff.mp hc
  have hf : cfg.Fits := Nat.lt_trans hb (by decide)
  refine ⟨slotsPartition hg hf, init_confined hg hf, ?_, ?_, ?_, ?_⟩
  · intro ι _ as s log h i spurious
    exact push_confined hg hf ((LenInv.of_run h).data i)
  · intro ι _ as s log h
    refine pop_confined hg hf fun out head len hpc => ?_
    have hlen := (LenInv.of_run h).len out head len hpc
    omega
  · intro m m' data pos h x hx hslot
    cases h with
    | push hs =>
      refine (pushSteps_byte_eq hg hf hs).2 x hx fun pos' hpos => ?_
      cases hpos
      exact hslot
  · intro m m' out pos out' h x hx hslot
    cases h with
    | pop hs =>
      refine popSteps_byte_eq hg hf hs hx fun head hhead => ?_
      cases hhead
      exact hslot

theorem slots_partition_small : SlotsPartition Presets.SMALL ∧ StaysInSlot Presets.SMALL :=
  slots_partition (by decide) (by decide)

/-- The mapping of `total()` bytes has room for all slots, and no access leaves it. -/
structure RingInside (cfg : RingConfig) : Prop where
  covers : ∀ i, i < cfg.N → 192 + i * cfg.S + cfg.S ≤ cfg.total.toNat
  init : ∀ m : Memory, m.size = cfg.total.toNat → (init cfg m).isSome
  push : ∀ (ι : Type) [DecidableEq ι] (as : List (RingAction ι)) s log,
    InitRun cfg Machine.free as s log →
    ∀ i spurious, (s.push i).ready = false →
      (pushStep (segOps cfg) spurious (s.push i) s.mem).isSome
  pop : ∀ (ι : Type) [DecidableEq ι] (as : List (RingAction ι)) s log,
    InitRun cfg Machine.free as s log → s.pop.ready = false →
    (popStep (segOps cfg) s.pop s.mem).isSome
  state : ∀ (ι : Type) [DecidableEq ι] (as : List (RingAction ι)) s log,
    InitRun cfg Machine.free as s log → ∀ v, ((segOps cfg).storeState v s.mem).isSome

theorem ring_inside_iff (hc : cfg.check = .ok ()) :
    RingInside cfg ↔ 192 + cfg.S * cfg.N < 2 ^ 64 := by
  have hg := check_iff.mp hc
  have hpos : 0 < cfg.N := hg.pos
  constructor
  · intro h
    have hlast := h.covers (cfg.N - 1) (by omega)
    have hsum : (cfg.N - 1) * cfg.S + cfg.S = cfg.S * cfg.N := by
      rw [← Nat.succ_mul, Nat.succ_eq_add_one, Nat.sub_add_cancel hpos, Nat.mul_comm]
    have htotal := cfg.total.toNat_lt
    omega
  · intro hf
    refine ⟨?_, ?_, ?_, ?_, ?_⟩
    · intro i hi
      exact (slotOff_lt_total hf hi).1
    · intro m hm
      obtain ⟨m', hm'⟩ := init_isSome hg hf hm
      rw [hm']
      rfl
    · intro ι _ as s log h i spurious hready
      exact (LenInv.of_run h).push_moves hg hf hready spurious
    · intro ι _ as s log h hready
      exact (LenInv.of_run h).pop_moves hg hf hready
    · intro ι _ as s log h v
      have hhdr := (LenInv.of_run h).header_le hg hf
      exact store64_isSome (by omega)

theorem ring_inside_small :
    RingInside Presets.SMALL ↔ 192 + Presets.SMALL.S * Presets.SMALL.N < 2 ^ 64 :=
  ring_inside_iff (by decide)

/-- 2^32 slots of 2^32 bytes. -/
def vast : RingConfig := { numSlots := 4294967296, slotSize := 4294967296 }

theorem vast_outside : vast.check = .ok () ∧ vast.total = 192 ∧ ¬ RingInside vast ∧
    ∀ m : Memory, m.size = vast.total.toNat → init vast m = none := by
  refine ⟨by decide, by decide, ?_, ?_⟩
  · intro h
    have hfirst := h.covers 0 (by decide)
    exact absurd hfirst (by decide)
  · intro m hm
    cases hinit : init vast m with
    | none => rfl
    | some m' =>
      have hf := fits_of_init hm hinit
      exact absurd hf (by unfold Fits; decide)

end ShmMpsc
