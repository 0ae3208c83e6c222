import ShmMpsc.Ring.Fifo

/-!
# Who may touch a slot

The slot of each of the next `num_slots` positions is free, owned by the one producer that
reserved it, or published; its `seq` tells which.
-/

namespace ShmMpsc

set_option autoImplicit false

open RingConfig

/-- The position of a `try_pop` between its seq load and its slot-releasing store. -/
def PopPc.reading {W : Type} : PopPc W → Option W
  | .readLen _ head | .readPayload _ head _ | .release _ head => some head
  | .idle | .loadHead _ | .loadSeq _ _ | .storeHead _ _ | .done _ _ => none

theorem PopPc.reading_map {W V : Type} (f : W → V) (pc : PopPc W) :
    (pc.map f).reading = pc.reading.map f := by
  cases pc <;> rfl

theorem PushPc.writing_map {W V : Type} (f : W → V) (pc : PushPc W) :
    (pc.map f).writing = pc.writing.map fun r => (r.1, f r.2) := by
  cases pc <;> rfl

variable {cfg : RingConfig} {ι : Type}

/-- Producer `i` is between its successful CAS on position `p` and its publishing store. -/
def Writes (s : RingState ι UInt64 Memory) (i : ι) (p : Nat) : Prop :=
  ∃ data, (s.push i).writing = some (data, UInt64.ofNat p)

/-- The `seq` word of slot `k`. -/
def seqAt (cfg : RingConfig) (s : RingState ι UInt64 Memory) (k : Nat) : Option UInt64 :=
  s.mem.load64 (cfg.slotOff k)

variable [DecidableEq ι]

namespace Refines

variable {s : RingState ι UInt64 Memory} {log : List (RingEvent ι UInt64)}
  {u : RingState ι Nat UMem} {ulog : List (RingEvent ι Nat)}

theorem writing_eq (h : Refines cfg s log u ulog) (i : ι) :
    (s.push i).writing = (u.push i).writing.map fun r => (r.1, UInt64.ofNat r.2) := by
  rw [h.sim.push i, PushPc.writing_map]

theorem writes_iff (h : Refines cfg s log u ulog) {i : ι} {p : Nat} (hp : p < 2 ^ 63)
    (hb : (reserves log).length < 2 ^ 63) :
    Writes s i p ↔ ∃ data, (u.push i).writing = some (data, p) := by
  rw [h.reserves_length] at hb
  constructor
  · rintro ⟨data, hw⟩
    rw [h.writing_eq i, Option.map_eq_some_iff] at hw
    obtain ⟨⟨d, q⟩, hw, heq⟩ := hw
    have hlt := (h.inv.of_writing hw).2.1
    have hq : UInt64.ofNat q = UInt64.ofNat p := (Prod.mk.inj heq).2
    obtain rfl := (ofNat_inj_of_near (by omega) (by omega)).mp hq
    exact ⟨d, hw⟩
  · rintro ⟨data, hw⟩
    exact ⟨data, by rw [h.writing_eq i, hw]; rfl⟩

theorem seqAt_eq (h : Refines cfg s log u ulog) (hg : cfg.Admitted) (p : Nat) :
    seqAt cfg s (p % cfg.N) = some (UInt64.ofNat (u.mem.seq (p % cfg.N))) :=
  h.sim.mem.seq _ (Nat.mod_lt p hg.pos)

theorem slotOf_ofNat (hg : cfg.Admitted) (p : Nat) :
    cfg.slotOf (UInt64.ofNat p).toNat = p % cfg.N := by
  rw [UInt64.toNat_ofNat', slotOf_mod hg, slotOf]

/-- A writer shares its slot with no other writer and not with the reading consumer. -/
theorem exclusive (h : Refines cfg s log u ulog) (hg : cfg.Admitted) {i : ι} {data : List UInt8}
    {pos : UInt64} (hw : (s.push i).writing = some (data, pos)) :
    (∀ j data' pos', j ≠ i → (s.push j).writing = some (data', pos') →
      cfg.slotOf pos'.toNat ≠ cfg.slotOf pos.toNat) ∧
    (∀ head, s.pop.reading = some head → cfg.slotOf head.toNat ≠ cfg.slotOf pos.toNat) := by
  rw [h.writing_eq i, Option.map_eq_some_iff] at hw
  obtain ⟨⟨d, p⟩, hw, heq⟩ := hw
  obtain ⟨rfl, rfl⟩ := Prod.mk.inj heq
  constructor
  · intro j data' pos' hji hj
    rw [h.writing_eq j, Option.map_eq_some_iff] at hj
    obtain ⟨⟨d', q⟩, hj, heq⟩ := hj
    obtain ⟨rfl, rfl⟩ := Prod.mk.inj heq
    rw [slotOf_ofNat hg, slotOf_ofNat hg]
    exact h.inv.writer_slot_ne hj hw hji
  · intro head hr
    rw [h.sim.pop, PopPc.reading_map, Option.map_eq_some_iff] at hr
    obtain ⟨hd, hr, rfl⟩ := hr
    rw [slotOf_ofNat hg, slotOf_ofNat hg]
    have hok := h.inv.pop_ok
    -- wherever it reads, the consumer reads its own published head
    have hread : hd = u.mem.head ∧ u.mem.seq (hd % cfg.N) = hd + 1 ∧
        ∀ out head, u.pop ≠ .storeHead out head := by
      cases hpc : u.pop with
      | readLen o hd' =>
        rw [hpc] at hr hok
        cases hr
        exact ⟨hok.1, hok.2, by simp⟩
      | readPayload o hd' len =>
        rw [hpc] at hr hok
        cases hr
        exact ⟨hok.1, hok.2.1, by simp⟩
      | release o hd' =>
        rw [hpc] at hr hok
        cases hr
        exact ⟨hok.1, hok.2.1, by simp⟩
      | _ => rw [hpc] at hr; cases hr
    obtain ⟨rfl, hseq, hpop⟩ := hread
    exact (h.inv.writer_slot_ne_head hw (freed_eq_head hpop) hseq).symm

end Refines

/-- The slot invariant: the tail cell stays within one lap of the released positions, every
position in between is being written by exactly one producer or published, every further
position of the lap is free, and nobody writes where somebody else writes or reads. -/
theorem slot_ownership (hN : 2 ≤ cfg.N) {as : List (RingAction ι)}
    {s : RingState ι UInt64 Memory} {log : List (RingEvent ι UInt64)}
    (h : InitRun cfg Machine.free as s log) (hb : (reserves log).length < 2 ^ 63 - cfg.N) :
    ∃ t f, t < 2 ^ 63 ∧ s.mem.load64 0 = some (UInt64.ofNat t) ∧ f = (releases log).length ∧
      f ≤ t ∧ t ≤ f + cfg.N ∧
      ((∀ out head, s.pop ≠ .storeHead out head) → s.mem.load64 64 = some (UInt64.ofNat f)) ∧
      (∀ out head, s.pop = .storeHead out head →
        0 < f ∧ s.mem.load64 64 = some (UInt64.ofNat (f - 1))) ∧
      (∀ p, f ≤ p → p < t →
        (seqAt cfg s (p % cfg.N) = some (UInt64.ofNat p) ∧ ∃! i, Writes s i p) ∨
        (seqAt cfg s (p % cfg.N) = some (UInt64.ofNat (p + 1)) ∧ ∀ i, ¬ Writes s i p)) ∧
      (∀ p, t ≤ p → p < f + cfg.N →
        seqAt cfg s (p % cfg.N) = some (UInt64.ofNat p) ∧ ∀ i, ¬ Writes s i p) ∧
      (∀ i data pos, s.push i = .writeLen data pos ∨ s.push i = .writePayload data pos →
        (∀ j data' pos', j ≠ i → (s.push j).writing = some (data', pos') →
          cfg.slotOf pos'.toNat ≠ cfg.slotOf pos.toNat) ∧
        (∀ head, s.pop.reading = some head → cfg.slotOf head.toNat ≠ cfg.slotOf pos.toNat)) := by
  obtain ⟨u, ulog, hR⟩ := h.refines_of_bound hN hb
  have hg := h.admitted
  have htail := hR.reserves_length
  have hf := hR.inv.freed_le
  have ht := hR.inv.tail_le
  have hwrites : ∀ i p, p < 2 ^ 63 → (Writes s i p ↔ ∃ data, (u.push i).writing = some (data, p)) :=
    fun i p hp => hR.writes_iff hp (by omega)
  refine ⟨u.mem.tail, freed u, by omega, hR.sim.mem.tail, hR.releases_length.symm, hf, ht,
    ?_, ?_, ?_, ?_, ?_⟩
  · intro hpop
    have hupop : ∀ out head, u.pop ≠ .storeHead out head := by
      intro out head heq
      apply hpop out (UInt64.ofNat head)
      rw [hR.sim.pop, heq]
      rfl
    rw [freed_eq_head hupop]
    exact hR.sim.mem.head
  · intro out head hpop
    have hupop : ∃ head, u.pop = .storeHead out head := by
      rw [hR.sim.pop] at hpop
      cases hu : u.pop with
      | storeHead o hd => rw [hu] at hpop; cases hpop; exact ⟨hd, rfl⟩
      | _ => rw [hu] at hpop; cases hpop
    obtain ⟨hd, hu⟩ := hupop
    rw [freed_storeHead hu]
    exact ⟨Nat.succ_pos _, hR.sim.mem.head⟩
  · intro p hp hpt
    rw [hR.seqAt_eq hg]
    simp only [hwrites _ p (by omega)]
    rcases hR.inv.slot p hp (by omega) with ⟨hs, hw⟩ | ⟨hs, _⟩
    · obtain ⟨i, data, hi⟩ := hw hpt
      refine .inl ⟨by rw [hs], i, ⟨data, hi⟩, ?_⟩
      rintro j ⟨data', hj⟩
      exact (hR.inv.writer_unique hj hi).1
    · refine .inr ⟨by rw [hs], ?_⟩
      rintro i ⟨data, hi⟩
      have := (hR.inv.of_writing hi).2.2.2
      omega
  · intro p hp hpf
    rw [hR.seqAt_eq hg]
    simp only [hwrites _ p (by omega)]
    refine ⟨?_, ?_⟩
    · rcases hR.inv.slot p (by omega) hpf with ⟨hs, _⟩ | ⟨_, i, data, hr, _⟩
      · rw [hs]
      · have := hR.inv.reserved_lt hr
        omega
    · rintro i ⟨data, hi⟩
      have := (hR.inv.of_writing hi).2.1
      omega
  · intro i data pos hpc
    have hw : (s.push i).writing = some (data, pos) := by
      rcases hpc with hpc | hpc <;> rw [hpc] <;> rfl
    exact hR.exclusive hg hw

/-- A producer has won position 0 and written nothing yet. -/
def midPush : List (RingAction Bool) := .call true [7] :: List.replicate 3 (.push true false)

theorem midPush_exec : (execInit tiny blank midPush).map (fun c =>
    ((reserves c.2).length, (releases c.2).length, c.1.mem.load64 0, seqAt tiny c.1 0)) =
      some (1, 0, some 1, some 0) := by
  decide +kernel

theorem slot_ownership_tiny : ∃ s log, InitRun tiny Machine.free midPush s log ∧
    ∃! i, Writes s i 0 := by
  obtain ⟨⟨s, log⟩, hc, heq⟩ := Option.map_eq_some_iff.mp midPush_exec
  simp only [Prod.mk.injEq] at heq
  obtain ⟨hres, hrel, htail, hseq⟩ := heq
  have hrun : InitRun tiny Machine.free midPush s log := initRun_of_execInit rfl hc
  obtain ⟨t, f, ht63, ht, hf, _, _, _, _, hslot, _⟩ :=
    slot_ownership (by decide) hrun (by rw [hres]; decide)
  refine ⟨s, log, hrun, ?_⟩
  have ht1 : t = 1 := by
    rw [htail] at ht
    exact ((ofNat_inj_of_near (a := 1) (by omega) (by omega)).mp (Option.some.inj ht)).symm
  rcases hslot 0 (by omega) (by omega) with ⟨_, hw⟩ | ⟨hs, _⟩
  · exact hw
  · exact absurd (hseq.symm.trans hs) (by decide)

end ShmMpsc
