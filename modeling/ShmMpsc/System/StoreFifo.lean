import ShmMpsc.System.EndToEnd
import ShmMpsc.System.StoreSim

/-!
# Every event once, also behind store buffers

The whole system on the machine with store buffers. What its log says of the events is
what it says without them: late stores make producers wait and let the consumer park, and
lose nothing.
-/

namespace ShmMpsc

set_option autoImplicit false

open RingConfig

variable {ι C : Type} [DecidableEq ι] {cfg : RingConfig} {codec : Codec C} {jobs : ι → Job}

/-- The same parties over the memory `m`. -/
def System.settled {W B M : Type} (s : System ι C W B) (m : M) : System ι C W M where
  ring := { mem := m, push := s.ring.push, pop := s.ring.pop }
  producer := s.producer
  consumer := s.consumer
  stop := s.stop
  token := s.token
  postedCalls := s.postedCalls

/-! ### The ring inside the system -/

/-- The ring is one that runs ahead of its memory. -/
def Late (cfg : RingConfig) (s : RingState ι UInt64 (Buffered (Option ι) (Store UInt64) Memory))
    (log : List (RingEvent ι UInt64)) : Prop :=
  ∃ u ulog w c, LateRefines cfg s log u ulog w c

section Ring

variable {s s' : TsoSystem ι C UInt64 Memory} {log ev : List (SysEvent ι UInt64)}
  (hg : cfg.Admitted) (hf : cfg.Fits) (hN : 2 ≤ cfg.N)
include hg hf hN

theorem producer_late (hcalls : InCalls s) (h : Late cfg s.ring (ringLog log)) {j : ι}
    {now : UInt64} {spurious : Bool} {p : Producer C UInt64} {push : PushPc UInt64}
    {b : Buffered (Option ι) (Store UInt64) Memory}
    (hw : sysWindowed (2 ^ 63 - cfg.N) s log (.producer j now spurious))
    (ht : ProducerTrans cfg codec ((segOps cfg).buffered (some j)) (jobs j) j now spurious
      (s.producer j) (s.ring.push j) s.ring.mem p push b ev) :
    Late cfg (s.setProducer j p push b).ring (ringLog (log ++ ev)) := by
  obtain ⟨u, ulog, w, c, hR⟩ := h
  have hready := hcalls.push j
  have hsame : Late cfg (s.setProducer j p (s.ring.push j) s.ring.mem).ring (ringLog log) := by
    simp only [System.setProducer, Function.update_eq_self]
    exact ⟨u, ulog, w, c, hR⟩
  have hcas : ∀ {b won}, ((segOps cfg).buffered (some j)).casState STATE_PARKED STATE_RUNNING
      s.ring.mem = some (b, won) →
        Late cfg (s.setProducer j p (s.ring.push j) b).ring (ringLog log) := by
    intro b won hc
    obtain ⟨w', hR'⟩ := hR.casState hg hf hc
    simp only [System.setProducer, Function.update_eq_self]
    exact ⟨u, ulog, w', c, hR'⟩
  have hcall (data : List UInt8) (hr : (s.ring.push j).ready = true) :
      Late cfg (s.setProducer j p (pushCall ((segOps cfg).buffered (some j)) data) s.ring.mem).ring
        (ringLog log ++ [.call j data]) := by
    obtain ⟨u', ulog', hR'⟩ := hR.call hg hN hr ((segOps cfg).buffered (some j)) rfl data
    exact ⟨u', ulog', w, c, hR'⟩
  rw [ringLog_append]
  cases ht with
  | encode hpc _ _ =>
    rw [hpc] at hready
    exact hcall _ hready
  | retry hpc =>
    rw [hpc] at hready
    exact hcall _ hready
  | push hpc hr =>
    rw [ringLog_ring]
    obtain ⟨u', ulog', w', hR'⟩ := hR.pushStep hg hf hN
      (fun hd => hw j now spurious rfl (by rw [hpc]; rfl) hd) hr
    exact ⟨u', ulog', w', c, hR'⟩
  | won _ hc => simpa [ringLog] using hcas hc
  | lost _ hc => simpa [ringLog] using hcas hc
  | encodeErr => simpa [ringLog] using hsame
  | finish => simpa [ringLog] using hsame
  | signal => simpa [ringLog] using hsame
  | returned => simpa [ringLog] using hsame

theorem consumer_late (hcalls : InCalls s) (h : Late cfg s.ring (ringLog log)) {stop : Bool}
    {c : Consumer C} {pop : PopPc UInt64} {b : Buffered (Option ι) (Store UInt64) Memory}
    (ht : ConsumerTrans ι codec ((segOps cfg).buffered none) stop s.consumer s.ring.pop s.ring.mem c
      pop b ev) : Late cfg (s.setConsumer c pop b).ring (ringLog (log ++ ev)) := by
  obtain ⟨u, ulog, w, k, hR⟩ := h
  have hready := hcalls.pop
  have hsame : Late cfg s.ring (ringLog log) := ⟨u, ulog, w, k, hR⟩
  have hcall (hr : s.ring.pop.ready = true) :
      Late cfg (s.setConsumer c (.loadHead s.consumer.buf) s.ring.mem).ring
        (ringLog log ++ [.popCall s.consumer.buf]) := by
    obtain ⟨u', ulog', hR'⟩ := hR.popCall hN hr s.consumer.buf
    exact ⟨u', ulog', w, k, hR'⟩
  have hpop {pev : List (PopEvent UInt64)}
      (hr : PopTrans ((segOps cfg).buffered none) s.ring.pop s.ring.mem pop b pev) :
      Late cfg (s.setConsumer c pop b).ring (ringLog log ++ pev.map .pop) := by
    obtain ⟨u', ulog', w', hR'⟩ := hR.popStep hg hf hN hr.step
    exact ⟨u', ulog', w', k, hR'⟩
  have hstore {x : UInt64} {b : Buffered (Option ι) (Store UInt64) Memory}
      (hm : ((segOps cfg).buffered none).storeState x s.ring.mem = some b) :
      Late cfg (s.setConsumer c s.ring.pop b).ring (ringLog log) := by
    obtain ⟨w', hR'⟩ := hR.storeState hm
    exact ⟨u, ulog, w', k, hR'⟩
  rw [ringLog_append]
  cases ht with
  | top hpc _ =>
    rw [hpc] at hready
    exact hcall hready
  | decodeDrain hpc =>
    rw [hpc] at hready
    exact hcall hready
  | drain _ hr =>
    rw [ringLog_ring]
    exact hpop hr
  | recheck _ hr =>
    rw [ringLog_ring]
    exact hpop hr
  | storeParked hpc hm =>
    rw [hpc] at hready
    obtain ⟨w', hR'⟩ := hR.storeState hm
    obtain ⟨u', ulog', hR''⟩ := hR'.popCall hN hready s.consumer.buf
    exact ⟨u', ulog', w', k, hR''⟩
  | storeRunningHit _ hm => simpa [ringLog] using hstore hm
  | storeRunning _ hm => simpa [ringLog] using hstore hm
  | halt => simpa [ringLog, System.setConsumer] using hsame
  | addEvents => simpa [ringLog, System.setConsumer] using hsame
  | addWire => simpa [ringLog, System.setConsumer] using hsame
  | decodeRecheck => simpa [ringLog, System.setConsumer] using hsame
  | unparked => simpa [ringLog, System.setConsumer] using hsame

end Ring

/-! ### The whole system -/

/-- What holds along a run behind store buffers. -/
structure LateOk (cfg : RingConfig) (codec : Codec C) (jobs : ι → Job)
    (s : TsoSystem ι C UInt64 Memory) (log : List (SysEvent ι UInt64)) : Prop where
  calls : InCalls s
  producers : ProducersOk jobs s log
  consumer : ConsumerOk cfg codec (popped log) s.consumer s.consumer.pc
  ring : Late cfg s.ring (ringLog log)

namespace LateOk

variable {s s' : TsoSystem ι C UInt64 Memory} {log ev : List (SysEvent ι UInt64)}

theorem step (hg : cfg.Admitted) (hf : cfg.Fits) (hN : 2 ≤ cfg.N) (h : LateOk cfg codec jobs s log)
    {a : SysAction ι} (hw : sysWindowed (2 ^ 63 - cfg.N) s log a)
    (hs : sysStep cfg codec (tso (segOps cfg)) jobs s a = some (s', ev)) :
    LateOk cfg codec jobs s' (log ++ ev) := by
  have hcalls := h.calls.step hs
  have hprod := h.producers.step hs
  have hkeep (hev : popped ev = []) (hc : s'.consumer = s.consumer) :
      ConsumerOk cfg codec (popped (log ++ ev)) s'.consumer s'.consumer.pc := by
    rw [popped_append, hev, List.append_nil, hc]
    exact h.consumer
  cases sysTrans_of_step hs with
  | @producer j now spurious p push m _ ht =>
    exact ⟨hcalls, hprod, hkeep ht.popped rfl, producer_late hg hf hN h.calls h.ring hw ht⟩
  | @consumer c pop m _ ht =>
    exact ⟨hcalls, hprod, h.consumer.step ht, consumer_late hg hf hN h.calls h.ring ht⟩
  | @send j p _ =>
    exact ⟨hcalls, hprod, hkeep rfl rfl, by simpa using h.ring⟩
  | @serve j p token calls _ hp =>
    have hev : popped ev = [] ∧ ringLog ev = [] := by cases hp <;> exact ⟨rfl, rfl⟩
    exact ⟨hcalls, hprod, hkeep hev.1 rfl, by simpa [hev.2] using h.ring⟩
  | @drop j _ =>
    exact ⟨hcalls, hprod, hkeep rfl rfl, by simpa using h.ring⟩
  | @commit t m hm =>
    obtain ⟨u, ulog, w, c, hR⟩ := h.ring
    obtain ⟨w', c', hR'⟩ := hR.commit hg hf hm
    exact ⟨hcalls, hprod, hkeep rfl rfl, u, ulog, w', c', by simpa using hR'⟩
  | stop =>
    exact ⟨hcalls, hprod, hkeep rfl rfl, by simpa using h.ring⟩

theorem start {m m' : Memory} (hm : m.size = cfg.total.toNat) (hi : init cfg m = some m') :
    LateOk cfg codec jobs (System.start cfg codec (.flushed m')) [] := by
  have hg := check_iff.mp (init_eq_some hi).1
  obtain ⟨_, len, payload, hsim⟩ := memSim_init hg hm hi
  refine ⟨inCalls_start _, producersOk_start _, ⟨rfl, rfl, rfl, rfl⟩, ?_⟩
  exact ⟨_, [], .flushed (UMem.start cfg.N len payload), 0, ⟨hsim, fun _ => rfl⟩, fun _ => rfl, rfl,
    .start _ _ _ _, .start _ _ _ _, rfl⟩

/-- The loops say the same over any memory. -/
theorem loopsOk (h : LateOk cfg codec jobs s log) (m : Memory) :
    LoopsOk cfg codec jobs (s.settled m) log :=
  ⟨⟨h.calls.push, h.calls.pop⟩, h.producers, h.consumer⟩

/-- Once nothing waits the memory is the ring's. -/
theorem refines (h : LateOk cfg codec jobs s log) (hb : ∀ t, s.ring.mem.buf t = []) :
    ∃ u ulog, Refines cfg (s.settled s.ring.mem.mem).ring (ringLog log) u ulog := by
  obtain ⟨u, ulog, w, c, hR⟩ := h.ring
  have hwb : ∀ t, w.buf t = [] := by
    intro t
    have ht := hR.mem.buf t
    rw [hb t] at ht
    exact List.map_eq_nil_iff.mp ht.symm
  have hslot : ∀ k, w.mem.slot k = u.mem.slot k := by
    intro k
    obtain ⟨t, ho⟩ := hR.behind.slot k
    exact ho.mem_of_flushed (hwb t)
  have hmem : w.mem = ⟨u.mem.tail, u.mem.head, w.mem.state, u.mem.seq, u.mem.len,
      u.mem.payload⟩ := by
    have htail := hR.behind.tail
    have hhead : w.mem.head = u.mem.head := hR.behind.head.mem_of_flushed (hwb none)
    have hseq : w.mem.seq = u.mem.seq := funext fun k => congrArg Slot.seq (hslot k)
    have hlen : w.mem.len = u.mem.len := funext fun k => congrArg Slot.len (hslot k)
    have hpayload : w.mem.payload = u.mem.payload := funext fun k => congrArg Slot.payload (hslot k)
    rw [← htail, ← hhead, ← hseq, ← hlen, ← hpayload]
  refine ⟨{ u with mem := { u.mem with state := w.mem.state } }, ulog, ⟨?_, hR.push, hR.pop⟩,
    hR.inv.setState _, hR.log_eq⟩
  exact hmem ▸ hR.mem.mem

/-- The stores that wait can arrive, one after the other, with nothing else happening. -/
theorem arrive [Fintype ι] (hg : cfg.Admitted) (hf : cfg.Fits) (hN : 2 ≤ cfg.N)
    (h : LateOk cfg codec jobs s log) :
    ∃ cs m, (∀ a ∈ cs, ∃ t, a = .commit t) ∧
      (sysMachine cfg codec (tso (segOps cfg)) jobs).Run (sysWindowed (2 ^ 63 - cfg.N)) s log cs
        (s.settled m).flushed log ∧
      ∃ u ulog, Refines cfg (s.settled m).ring (ringLog log) u ulog := by
  induction hn : ∑ t, (s.ring.mem.buf t).length using Nat.strong_induction_on generalizing s with
  | _ n ih =>
    by_cases hb : ∀ t, s.ring.mem.buf t = []
    · refine ⟨[], s.ring.mem.mem, by simp, ?_, h.refines hb⟩
      have hmem : s.ring.mem = .flushed s.ring.mem.mem := by
        have hbuf : s.ring.mem.buf = fun _ => [] := funext hb
        rw [Buffered.flushed, ← hbuf]
      have hs : (s.settled s.ring.mem.mem).flushed = s := by
        rw [System.flushed, System.settled]
        dsimp only
        rw [← hmem]
      rw [hs]
      exact .nil
    · obtain ⟨t, ht⟩ := not_forall.mp hb
      obtain ⟨u, ulog, w, c, hR⟩ := h.ring
      obtain ⟨e, es, hbuf⟩ := List.exists_cons_of_ne_nil ht
      have hwb := hR.mem.buf t
      rw [hbuf] at hwb
      obtain ⟨e', es', hw, rfl, rfl⟩ := List.map_eq_cons_iff.mp hwb.symm
      obtain ⟨m, _, hm, _, _⟩ := store_sim hg hf hR.mem.mem (hR.fits t e' (by simp [hw]))
      have hstep : sysStep cfg codec (tso (segOps cfg)) jobs s (.commit t) =
          some ({ s with ring := { s.ring with mem := {
            mem := m
            buf := Function.update s.ring.mem.buf t (es'.map (Store.map UInt64.ofNat)) } } },
            []) := by
        simp [sysStep, tso, Buffered.commit, hbuf, hm]
      have hguard : sysWindowed (2 ^ 63 - cfg.N) s log (.commit t) := by
        intro j now spurious ha
        cases ha
      have h1 := h.step hg hf hN hguard hstep
      rw [List.append_nil] at h1
      have hlt : ∑ k,
          (Function.update s.ring.mem.buf t (es'.map (Store.map UInt64.ofNat)) k).length <
          n := by
        rw [← hn]
        refine Finset.sum_lt_sum (fun k _ => ?_) ⟨t, Finset.mem_univ t, ?_⟩
        · by_cases hk : k = t
          · subst hk
            simp [hbuf]
          · simp [hk]
        · simp [hbuf]
      obtain ⟨cs, m', hcs, hrun, hrefines⟩ := ih _ hlt h1 rfl
      have hfirst : (sysMachine cfg codec (tso (segOps cfg)) jobs).Run
          (sysWindowed (2 ^ 63 - cfg.N))
          s log [.commit t] _ (log ++ []) := .single hguard hstep
      rw [List.append_nil] at hfirst
      refine ⟨[.commit t] ++ cs, m', ?_, hfirst.trans hrun, hrefines⟩
      intro a ha
      rcases List.mem_append.mp ha with ha | ha
      · exact ⟨t, List.mem_singleton.mp ha⟩
      · exact hcs a ha

end LateOk

section Totals

variable [Fintype ι]

/-- No position is reserved that no event asks for. -/
theorem ProducersOk.reserves_length_le {W M : Type} {s : System ι C W M} {log : List (SysEvent ι W)}
    (h : ProducersOk jobs s log) : (reserves (ringLog log)).length ≤ ∑ j, (jobs j).n.toNat := by
  rw [reserves_length_eq_sum]
  refine Finset.sum_le_sum fun j _ => ?_
  have hb := (h j).booked
  have hl := hb.pushed.1.length_le
  rw [List.length_map] at hl
  exact hl.trans hb.bounded

variable {s : TsoSystem ι C UInt64 Memory} {log : List (SysEvent ι UInt64)}
  {as : List (SysAction ι)}

theorem TsoRun.windowed_of_total {b : Nat} (h : TsoRun cfg codec jobs Machine.free as s log)
    (hb : ∑ j, (jobs j).n.toNat < b) : TsoRun cfg codec jobs (sysWindowed b) as s log := by
  obtain ⟨m, m', hm, hi, hrun⟩ := h
  refine ⟨m, m', hm, hi, hrun.strengthen (I := fun s log => ProducersOk jobs s log)
    (producersOk_start _) (fun _ _ _ _ _ hI _ hs => hI.step hs) ?_⟩
  intro s log a hI _ j _ _ _ _ _
  exact Nat.lt_of_le_of_lt ((reservedSince_le j _).trans hI.reserves_length_le) hb

/-- What the loops and the ring say together. -/
theorem endToEnd_of_refines {s : System ι C UInt64 Memory} (hg : cfg.Admitted) (hf : cfg.Fits)
    (hloops : LoopsOk cfg codec jobs s log) {u : RingState ι Nat UMem}
    {ulog : List (RingEvent ι Nat)} (hR : Refines cfg s.ring (ringLog log) u ulog) :
    EndToEnd cfg codec jobs s log := by
  have hbooked (j : ι) := (hloops.producers j).booked
  have hsent (j : ι) (hj : (s.producer j).pc = .returned) :
      Sent (jobs j).n (encodings j log) (pushes j log) (jobs j).n.toNat := by
    have hok := hloops.producers j
    rwa [hj] at hok
  constructor
  case numbered => exact fun j => (hbooked j).numbered
  case bounded => exact fun j => (hbooked j).bounded
  case pushed => exact fun j => (hbooked j).pushed
  case returned => exact fun j hj => ⟨(hsent j hj).pushed, (hsent j hj).length⟩
  case inOrder => exact processed_prefix hR
  case fifo => exact popped_eq hR
  case counted =>
    intro hacc
    have hb := hloops.consumer.books hacc
    rw [← hb.events, ← hb.wireBytes, ← hb.payloadBytes]
  case events_le =>
    exact (hloops.consumer.events_le.trans (popped_length_le hR)).trans hloops.reserves_length_le
  case drained =>
    intro hall heq
    have hlen : (popped log).length = (reserves (ringLog log)).length := by
      rw [popped, List.length_map, hR.pops_length, hR.reserves_length, head_eq_tail hg hR heq]
    have htotal : (popped log).length = ∑ j, (jobs j).n.toNat := by
      rw [hlen, reserves_length_eq_sum]
      refine Finset.sum_congr rfl fun j _ => ?_
      rw [(hsent j (hall j)).pushed, List.length_map, (hsent j (hall j)).length]
    refine ⟨htotal, fun j => ?_, fun hacc => ?_⟩
    · rw [processed_all hR hlen, (hsent j (hall j)).pushed]
    · rw [(hloops.consumer.books hacc).events, htotal]
  case empty =>
    intro hall hpop hpub
    have hready (j : ι) : (s.ring.push j).ready = true := by
      rw [hloops.calls.push, hall j]
      rfl
    have heq := drained_of_unpublished hg hf hR hready hpop hpub
    show s.ring.mem.load64 64 = s.ring.mem.load64 0
    rw [hR.sim.mem.head, hR.sim.mem.tail, heq]

/-- Behind store buffers, too, every event is encoded, pushed, popped and counted once: whatever
waits at a point of a run can arrive with nothing else happening, and then the log is as the
accounting without buffers has it. -/
theorem stores_end_to_end (hN : 2 ≤ cfg.N)
    (h : TsoRun cfg codec jobs (sysWindowed (2 ^ 63 - cfg.N)) as s log) :
    ∃ cs m, (∀ a ∈ cs, ∃ t, a = .commit t) ∧
      TsoRun cfg codec jobs (sysWindowed (2 ^ 63 - cfg.N)) (as ++ cs) (s.settled m).flushed log ∧
      EndToEnd cfg codec jobs (s.settled m) log := by
  obtain ⟨m, m', hm, hi, hrun⟩ := h
  have hg := check_iff.mp (init_eq_some hi).1
  have hf := fits_of_init hm hi
  have hok := hrun.invariant (I := LateOk cfg codec jobs) (.start hm hi)
    fun _ _ _ _ _ hI hw hs => hI.step hg hf hN hw hs
  obtain ⟨cs, m1, hcs, hrun', u, ulog, hR⟩ := hok.arrive hg hf hN
  exact ⟨cs, m1, hcs, ⟨m, m', hm, hi, hrun.trans hrun'⟩,
    endToEnd_of_refines hg hf (hok.loopsOk m1) hR⟩

end Totals

/-- The consumer parks on a message that is late, comes back by the timeout and takes it; its
release still waits. -/
def lateDelivery : List (SysAction Unit) :=
  List.replicate 6 .consumer ++ List.replicate 10 (.producer () 0 false) ++
    List.replicate 12 .consumer

theorem lateDelivery_exec :
    ((init tiny blank).bind fun m =>
      (sysMachine tiny plain (tso (segOps tiny)) oneEvent).exec
        (System.start tiny plain (.flushed m), []) lateDelivery).map (fun c =>
      decide ((c.1.ring.mem.buf none).length = 4 ∧ popped c.2 = [[7]] ∧
        c.1.consumer.pc.accounting = false)) = some true := by
  decide +kernel

theorem stores_end_to_end_lateDelivery : ∃ s log m,
    TsoRun tiny plain oneEvent Machine.free lateDelivery s log ∧
    EndToEnd tiny plain oneEvent (s.settled m) log ∧ popped log = [[7]] ∧
    s.consumer.stats = { events := 1, wireBytes := 1, payloadBytes := 1 } := by
  obtain ⟨c, hc, hd⟩ := Option.map_eq_some_iff.mp lateDelivery_exec
  obtain ⟨m, hi, hrun⟩ := Option.bind_eq_some_iff.mp hc
  obtain ⟨_, hpopped, hacc⟩ := of_decide_eq_true hd
  have hrun : TsoRun tiny plain oneEvent Machine.free lateDelivery c.1 c.2 :=
    ⟨blank, m, rfl, hi, Machine.run_of_exec hrun⟩
  obtain ⟨_, m1, _, _, hend⟩ := stores_end_to_end (by decide) (hrun.windowed_of_total (by decide))
  refine ⟨c.1, c.2, m1, hrun, hend, hpopped, ?_⟩
  have hcounted := hend.counted hacc
  rw [hpopped] at hcounted
  exact hcounted

end ShmMpsc
