import ShmMpsc.System.Laps

/-!
# A burst of 2^32 messages

One producer hands the consumer a message after the other until the drain counter is back at zero;
and when the counter can be trusted.
-/

namespace ShmMpsc

set_option autoImplicit false

open RingConfig

def flooding : Unit → Job := fun _ => { name := "p0", n := 18446744073709551615, payload := [1] }

abbrev FloodState := System Unit Unit UInt64 Memory

abbrev FloodLog := List (SysEvent Unit UInt64)

/-- In its burst the consumer has popped `n` messages and is about to count the last. -/
structure Flooded (n : Nat) (s : FloodState) (log : FloodLog) (u : RingState Unit Nat UMem) :
    Prop where
  tail : u.mem.tail = n
  head : u.mem.head = n
  state : u.mem.state = STATE_RUNNING
  push : (u.push ()).ready = true
  pop : u.pop.ready = true
  producerPc : (s.producer ()).pc = .encode (UInt64.ofNat n)
  consumerPc : s.consumer.pc = .addEvents (.drain (UInt32.ofNat n))
  popped : (popped log).length = n

/-- The consumer enters its inner loop at `s` and gets to `s'`, where the burst is `n` messages
long. -/
def Flooding (n : Nat) (s : FloodState) (log : FloodLog) (s' : FloodState) (log' : FloodLog) :
    Prop :=
  ∃ as u ulog, (sysMachine tiny plain (sc (segOps tiny)) flooding).Run inDrain s.entered
      (log ++ [.ring (.popCall s.consumer.buf)]) as s' log' ∧
    Refines tiny s'.ring (ringLog log') u ulog ∧ Flooded n s' log' u

theorem inDrain_of_counter {d : UInt32} (s : FloodState) (log : FloodLog)
    (h : s.consumer.pc.counter = some d) : inDrain s log .consumer := by
  rw [inDrain, h]
  rfl

theorem flooding_one : ∃ as s log s' log', ScRun tiny plain flooding Machine.free as s log ∧
    s.consumer.pc = .stop ∧ s.stop = false ∧ popped log = [] ∧ Flooding 1 s log s' log' := by
  obtain ⟨m0, hi⟩ := init_isSome tiny_admitted tiny_fits (m := blank) rfl
  obtain ⟨len, payload, hR⟩ := refines_init (ι := Unit) rfl hi
  have hR0 : Refines tiny (System.start tiny plain m0 : FloodState).ring (ringLog ([] : FloodLog))
      (RingState.start (UMem.start tiny.N len payload)) [] := hR
  obtain ⟨as, s, log, ulog, hrun, hlog, hpub, hR1, hpc, _, hconsumer, hstop⟩ :=
    hR0.deliver (G := Machine.free) plain flooding tiny_admitted tiny_fits (by decide)
      (j := ()) (i := 0)
      rfl Nat.zero_lt_two rfl rfl (by decide) rfl (by decide) fun _ _ _ => trivial
  have hcpc : s.consumer.pc = .stop := congrArg Consumer.pc hconsumer
  obtain ⟨bs, s1, log1, ulog1, hburst, hlog1, hR2, hproducer, _, hc1⟩ :=
    hR1.firstCall (G := inDrain) plain flooding tiny_admitted tiny_fits (by decide) rfl
      (hR1.soloPop_path (by decide) rfl hpub s.consumer.buf) hcpc inDrain_of_counter
  have hnone : popped log = [] := by
    rw [popped, hlog]
    rfl
  refine ⟨as, s, log, s1, log1, ⟨blank, m0, rfl, hi, hrun⟩, hcpc, hstop, hnone, bs, _, _,
    hburst, hR2, ?_⟩
  exact {
    tail := rfl
    head := rfl
    state := rfl
    push := rfl
    pop := rfl
    producerPc := by rw [hproducer]; exact hpc
    consumerPc := by rw [hc1]; rfl
    popped := by
      rw [popped, hlog1, pops_append, List.map_append, ← popped, hnone]
      rfl }

theorem flooding_succ {n : Nat} (hn : n < 18446744073709551615) {s s' : FloodState}
    {log log' : FloodLog} (h : Flooding n s log s' log') :
    ∃ s'' log'', Flooding (n + 1) s log s'' log'' := by
  obtain ⟨as, u, ulog, hrun, hR, h⟩ := h
  have hfreed := freed_of_ready h.pop
  have hN : tiny.N = 2 := rfl
  have htail := h.tail
  have hhead := h.head
  have hevent : UInt64.ofNat n < (flooding ()).n := by
    rw [UInt64.lt_iff_toNat_lt, UInt64.toNat_ofNat', Nat.mod_eq_of_lt (by omega)]
    exact hn
  have hcounter : s'.consumer.pc.counter = some (UInt32.ofNat n) :=
    congrArg ConsumerPc.counter h.consumerPc
  obtain ⟨bs, s1, log1, ulog1, hrun1, hlog1, hpub, hR1, hpc, _, hconsumer, _⟩ :=
    hR.deliver (G := inDrain) plain flooding tiny_admitted tiny_fits (by decide) h.push (by omega)
      h.state h.producerPc hevent rfl (by decide) fun s2 log2 hs2 => by
        rw [inDrain, hs2, hcounter]
        rfl
  have hpub1 : Published ulog1 u.mem.head := (htail.trans hhead.symm) ▸ hpub
  obtain ⟨cs, s2, log2, ulog2, hrun2, hlog2, hR2, hproducer, _, hc2⟩ :=
    hR1.nextCall (G := inDrain) plain flooding tiny_admitted tiny_fits (by decide) h.pop
      (hR1.soloPop_path (by decide) h.pop hpub1 s1.consumer.buf)
      ((congrArg Consumer.pc hconsumer).trans h.consumerPc) inDrain_of_counter
  refine ⟨s2, log2, _, _, _, (hrun.trans hrun1).trans hrun2, hR2, ?_⟩
  exact {
    tail := congrArg (· + 1) h.tail
    head := congrArg (· + 1) h.head
    state := h.state
    push := rfl
    pop := rfl
    producerPc := by rw [hproducer, hpc, ← ofNat_succ]
    consumerPc := by
      rw [hc2, UInt32.ofNat_add]
      rfl
    popped := by
      rw [popped, hlog2, pops_append, List.map_append, hlog1, pops_append,
        List.map_append, ← popped, List.length_append, List.length_append, h.popped]
      rfl }

theorem flooding_until (n : Nat) (hn : n + 1 ≤ 18446744073709551615) : ∃ as s log s' log',
    ScRun tiny plain flooding Machine.free as s log ∧ s.consumer.pc = .stop ∧ s.stop = false ∧
    popped log = [] ∧ Flooding (n + 1) s log s' log' := by
  induction n with
  | zero => exact flooding_one
  | succ n ih =>
    obtain ⟨as, s, log, s', log', hrun, hpc, hstop, hnone, h⟩ := ih (by omega)
    obtain ⟨s'', log'', h'⟩ := flooding_succ (by omega) h
    exact ⟨as, s, log, s'', log'', hrun, hpc, hstop, hnone, h'⟩

/-- A burst as long as the events last. -/
theorem flood_burst (n : Nat) (hn : n + 1 ≤ 18446744073709551615) : ∃ as s log bs s' log',
    ScRun tiny plain flooding Machine.free as s log ∧
    Burst tiny plain (sc (segOps tiny)) flooding Machine.free s log bs (n + 1) s' log' := by
  obtain ⟨as, s, log, s1, log1, hrun, hpc, hstop, hnone, bs, u, ulog, hburst, hR, h⟩ :=
    flooding_until n hn
  obtain ⟨cs, s2, log2, ulog2, hexit, hlog2, _, _, _, hc2⟩ :=
    hR.nextCall (G := inDrain) plain flooding tiny_admitted tiny_fits (by decide) h.pop
      (hR.emptyPop_path (by decide) h.pop (h.head.trans h.tail.symm) s1.consumer.buf) h.consumerPc
      inDrain_of_counter
  have hout : s2.consumer.pc.counter = none := by
    rw [hc2]
    change (if UInt32.ofNat (n + 1) = 0 then ConsumerPc.storeParked else .stop).counter = none
    split <;> rfl
  have hm : (popped log2).length = (popped log).length + (n + 1) := by
    rw [popped, hlog2, pops_append, List.map_append, ← popped, List.length_append, h.popped, hnone,
      List.length_nil, Nat.zero_add]
    rfl
  obtain ⟨ds, hds⟩ := Burst.of_run hpc (enteredTrans tiny plain flooding hpc hstop) rfl
    (hburst.trans hexit) hout hm
  exact ⟨as, s, log, ds, s2, log2, hrun, hds⟩

section Faithful

variable {ι C W M : Type} [DecidableEq ι] [DecidableEq W] {cfg : RingConfig} {codec : Codec C}
  {mm : MemModel ι W M} {jobs : ι → Job} {as : List (SysAction ι)} {s s' : System ι C W M}
  {log log' : List (SysEvent ι W)} {m : Nat}

/-- The loop parks after bursts that are a multiple of 2^32 long, and from 2^32 on the counter
does not fit. -/
theorem drain_faithful_iff (h : Burst cfg codec mm jobs Machine.free s log as m s' log') :
    ((s'.consumer.pc = .storeParked ↔ m = 0) ∧
      Burst cfg codec mm jobs (noPanic cfg codec mm jobs) s log as m s' log' ↔ m < 2 ^ 32) ∧
    (s'.consumer.pc = .storeParked ↔ 2 ^ 32 ∣ m) := by
  refine ⟨⟨fun hboth => h.noPanic_iff.mp hboth.2, fun hlt => ⟨?_, h.noPanic_iff.mpr hlt⟩⟩,
    h.parks_iff⟩
  rw [h.parks_iff]
  constructor
  · intro hdvd
    exact Nat.eq_zero_of_dvd_of_lt hdvd hlt
  · rintro rfl
    exact Nat.dvd_zero _

end Faithful

theorem drain_faithful_one : ∃ as s log bs s' log',
    ScRun tiny plain flooding Machine.free as s log ∧
    ((s'.consumer.pc = .storeParked ↔ 1 = 0) ∧
      Burst tiny plain (sc (segOps tiny)) flooding (noPanic tiny plain (sc (segOps tiny)) flooding)
        s log bs 1 s' log' ↔ 1 < 2 ^ 32) ∧
    (s'.consumer.pc = .storeParked ↔ 2 ^ 32 ∣ 1) := by
  obtain ⟨as, s, log, bs, s', log', hrun, hburst⟩ := flood_burst 0 (by decide)
  exact ⟨as, s, log, bs, s', log', hrun, drain_faithful_iff hburst⟩

/-- After 2^32 messages the loop parks, if it was not a debug build, which has panicked. -/
theorem flood_parks : ∃ as s log bs s' log', ScRun tiny plain flooding Machine.free as s log ∧
    Burst tiny plain (sc (segOps tiny)) flooding Machine.free s log bs (2 ^ 32) s' log' ∧
    s'.consumer.pc = .storeParked ∧
    ¬ Burst tiny plain (sc (segOps tiny)) flooding (noPanic tiny plain (sc (segOps tiny)) flooding)
      s log bs (2 ^ 32) s' log' := by
  obtain ⟨as, s, log, bs, s', log', hrun, hburst⟩ := flood_burst (2 ^ 32 - 1) (by decide)
  refine ⟨as, s, log, bs, s', log', hrun, hburst, hburst.parks_iff.mpr (Nat.dvd_refl _),
    fun hno => ?_⟩
  exact absurd (hburst.noPanic_iff.mp hno) (Nat.lt_irrefl _)

end ShmMpsc
