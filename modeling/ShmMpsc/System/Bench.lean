import ShmMpsc.System.Completion

/-!
# `run_inner`

The bench around the system: it awaits the producers one after the other, polls the consumer's
counter, stores `stop`, and loads the counters for its report, while everybody else goes on.
-/

namespace ShmMpsc

set_option autoImplicit false

open RingConfig

variable {C : Type} {n : Nat}

structure BenchReport where
  producers : Nat
  eventsPerProducer : UInt64
  events : UInt64
  wireBytes : UInt64
  payloadBytes : UInt64
  postedCalls : UInt64
  deriving DecidableEq

/-- Where `run_inner` stands once the producers are spawned. -/
inductive BenchPc where
  /-- Before `t.await??` of producer `i`. -/
  | await (i : Nat)
  /-- Before `events.load` in the `while`. -/
  | poll
  | sleep
  /-- Before `stop.store(true)`. -/
  | stop
  /-- From `server_task.abort()` to the end of the last sleep. -/
  | abort
  | loadEvents
  | loadWire (events : UInt64)
  | loadPayload (events wireBytes : UInt64)
  | loadPosted (events wireBytes payloadBytes : UInt64)
  | done (r : BenchReport)
  | failed (err : String)
  deriving DecidableEq

/-- `stop` is stored. -/
def BenchPc.stopped : BenchPc → Bool
  | .abort | .loadEvents | .loadWire _ | .loadPayload _ _ | .loadPosted _ _ _ | .done _ => true
  | _ => false

structure Bench (n : Nat) (C : Type) where
  sys : System (Fin n) C UInt64 Memory
  pc : BenchPc

inductive BenchAction (n : Nat) where
  | sys (a : SysAction (Fin n))
  /-- The next step of `run_inner`. -/
  | bench

/-- What `spawn_producer` is called with. -/
def benchJobs (n : Nat) (events : UInt64) (payload : List UInt8) (i : Fin n) : Job where
  name := s!"p{i.val}"
  n := events
  payload := payload

/-- `target` -/
def benchTarget (n : Nat) (events : UInt64) : UInt64 := UInt64.ofNat n * events

/-- One step of `run_inner`. -/
def benchNext (events : UInt64) (b : Bench n C) : Option (Bench n C) :=
  match b.pc with
  | .await i =>
    if h : i < n then
      match (b.sys.producer ⟨i, h⟩).pc with
      | .returned => some { b with pc := .await (i + 1) }
      | .failed e => some { b with pc := .failed e }
      | _ => none
    else some { b with pc := .poll }
  | .poll =>
    some { b with
      pc := if b.sys.consumer.stats.events < benchTarget n events then .sleep else .stop }
  | .sleep => some { b with pc := .poll }
  | .stop => some { sys := { b.sys with stop := true }, pc := .abort }
  | .abort => some { b with pc := .loadEvents }
  | .loadEvents => some { b with pc := .loadWire b.sys.consumer.stats.events }
  | .loadWire e => some { b with pc := .loadPayload e b.sys.consumer.stats.wireBytes }
  | .loadPayload e w => some { b with pc := .loadPosted e w b.sys.consumer.stats.payloadBytes }
  | .loadPosted e w p => some { b with
      pc := .done {
        producers := n
        eventsPerProducer := events
        events := e
        wireBytes := w
        payloadBytes := p
        postedCalls := b.sys.postedCalls } }
  | .done _ => none
  | .failed _ => none

/-- `stop` is nobody's but the bench's. -/
def benchStep (cfg : RingConfig) (codec : Codec C) (events : UInt64) (payload : List UInt8)
    (b : Bench n C) : BenchAction n → Option (Bench n C × List (SysEvent (Fin n) UInt64))
  | .sys .stop => none
  | .sys a =>
    (sysStep cfg codec (sc (segOps cfg)) (benchJobs n events payload) b.sys a).map fun r =>
      ({ b with sys := r.1 }, r.2)
  | .bench => (benchNext events b).map (·, [])

def benchMachine (n : Nat) (cfg : RingConfig) (codec : Codec C) (events : UInt64)
    (payload : List UInt8) : Machine (Bench n C) (BenchAction n) (SysEvent (Fin n) UInt64) where
  step := benchStep cfg codec events payload

def Bench.start (cfg : RingConfig) (codec : Codec C) (m : Memory) : Bench n C where
  sys := System.start cfg codec m
  pc := .await 0

/-- All that one step of `run_inner` can do. -/
inductive BenchTrans (events : UInt64) (b : Bench n C) : Bench n C → Prop where
  | returned {i} (h : i < n) : b.pc = .await i → (b.sys.producer ⟨i, h⟩).pc = .returned →
      BenchTrans events b { b with pc := .await (i + 1) }
  | producerFailed {i e} (h : i < n) : b.pc = .await i → (b.sys.producer ⟨i, h⟩).pc = .failed e →
      BenchTrans events b { b with pc := .failed e }
  | joined {i} : b.pc = .await i → n ≤ i → BenchTrans events b { b with pc := .poll }
  | short : b.pc = .poll → b.sys.consumer.stats.events < benchTarget n events →
      BenchTrans events b { b with pc := .sleep }
  | reached : b.pc = .poll → ¬ b.sys.consumer.stats.events < benchTarget n events →
      BenchTrans events b { b with pc := .stop }
  | slept : b.pc = .sleep → BenchTrans events b { b with pc := .poll }
  | stop : b.pc = .stop → BenchTrans events b { sys := { b.sys with stop := true }, pc := .abort }
  | aborted : b.pc = .abort → BenchTrans events b { b with pc := .loadEvents }
  | loadEvents : b.pc = .loadEvents →
      BenchTrans events b { b with pc := .loadWire b.sys.consumer.stats.events }
  | loadWire {e} : b.pc = .loadWire e →
      BenchTrans events b { b with pc := .loadPayload e b.sys.consumer.stats.wireBytes }
  | loadPayload {e w} : b.pc = .loadPayload e w →
      BenchTrans events b { b with pc := .loadPosted e w b.sys.consumer.stats.payloadBytes }
  | loadPosted {e w p} : b.pc = .loadPosted e w p →
      BenchTrans events b { b with pc := .done {
        producers := n, eventsPerProducer := events, events := e, wireBytes := w,
        payloadBytes := p, postedCalls := b.sys.postedCalls } }

theorem benchTrans_of_next {events : UInt64} {b b' : Bench n C} (h : benchNext events b = some b') :
    BenchTrans events b b' := by
  unfold benchNext at h
  split at h
  · rename_i i hpc
    split at h
    · rename_i hi
      split at h
      · rename_i hret
        cases h
        exact .returned hi hpc hret
      · rename_i e hfail
        cases h
        exact .producerFailed hi hpc hfail
      · cases h
    · rename_i hi
      cases h
      exact .joined hpc (Nat.le_of_not_lt hi)
  · rename_i hpc
    cases h
    split
    · rename_i hlt
      exact .short hpc hlt
    · rename_i hlt
      exact .reached hpc hlt
  · rename_i hpc
    cases h
    exact .slept hpc
  · rename_i hpc
    cases h
    exact .stop hpc
  · rename_i hpc
    cases h
    exact .aborted hpc
  · rename_i hpc
    cases h
    exact .loadEvents hpc
  · rename_i hpc
    cases h
    exact .loadWire hpc
  · rename_i hpc
    cases h
    exact .loadPayload hpc
  · rename_i hpc
    cases h
    exact .loadPosted hpc
  · cases h
  · cases h

/-! ### What the counters show -/

/-- All messages, or all but the last. -/
def Near (total : List (List UInt8) → Nat) (raws : List (List UInt8)) (v : UInt64) : Prop :=
  v = UInt64.ofNat (total raws) ∨ v = UInt64.ofNat (total raws.dropLast)

theorem ofNat_length_ne {α : Type} {l l' : List α} {a : α} (h : l = l' ++ [a]) :
    UInt64.ofNat l'.length ≠ UInt64.ofNat l.length := by
  intro heq
  have hl : l.length = l'.length + 1 := by rw [h, List.length_append]; rfl
  have heq := (ofNat_inj_of_near (by omega) (by omega)).mp heq
  omega

/-- A consumer that has counted all its messages is at most behind with the bytes of the last. -/
theorem ConsumerOk.near {cfg : RingConfig} {codec : Codec C} {raws : List (List UInt8)}
    {c : Consumer C} {pc : ConsumerPc} (h : ConsumerOk cfg codec raws c pc)
    (hev : c.stats.events = UInt64.ofNat raws.length) :
    Near wireTotal raws c.stats.wireBytes ∧
      Near (payloadTotal cfg codec) raws c.stats.payloadBytes := by
  have hlast {raws' : List (List UInt8)} (hr : raws = raws' ++ [c.buf]) :
      raws' = raws.dropLast := by
    rw [hr, List.dropLast_concat]
  cases pc with
  | storeRunningHit | addEvents =>
    obtain ⟨raws', hr, hb⟩ := h
    exact absurd (hb.events.symm.trans hev) (ofNat_length_ne hr)
  | addWire =>
    obtain ⟨raws', hr, hb⟩ := h
    exact ⟨.inr (hlast hr ▸ hb.wireBytes), .inr (hlast hr ▸ hb.payloadBytes)⟩
  | decode =>
    obtain ⟨raws', hr, hb⟩ := h
    exact ⟨.inl hb.wireBytes, .inr (hlast hr ▸ hb.payloadBytes)⟩
  | stop | drain | storeParked | recheck | park | storeRunning | returned =>
    exact ⟨.inl h.wireBytes, .inl h.payloadBytes⟩

theorem ConsumerTrans.events {ι W M : Type} {codec : Codec C} {ops : SegOps W M} {stop : Bool}
    {c c' : Consumer C} {pop pop' : PopPc W} {m m' : M} {ev : List (SysEvent ι W)}
    (h : ConsumerTrans ι codec ops stop c pop m c' pop' m' ev) :
    c'.stats.events = c.stats.events ∨ ∃ site, c.pc = .addEvents site := by
  have hpop (hit miss : ConsumerPc) : (afterPop hit miss c pop').stats.events = c.stats.events := by
    unfold afterPop
    split <;> rfl
  cases h with
  | addEvents hpc => exact .inr ⟨_, hpc⟩
  | drain | recheck => exact .inl (hpop _ _)
  | halt | top | storeParked | storeRunningHit | addWire | decodeDrain | decodeRecheck | unparked
  | storeRunning => exact .inl rfl

section AllIn

variable {ι : Type} [Fintype ι] [DecidableEq ι] {cfg : RingConfig} {codec : Codec C}
  {jobs : ι → Job}
  {s s' : System ι C UInt64 Memory} {log ev : List (SysEvent ι UInt64)}

/-- Every producer has returned, and every event is popped and counted. -/
structure AllIn (jobs : ι → Job) (s : System ι C UInt64 Memory) (log : List (SysEvent ι UInt64)) :
    Prop where
  returned : ∀ j, (s.producer j).pc = .returned
  popped : (popped log).length = ∑ j, (jobs j).n.toNat
  events : s.consumer.stats.events = UInt64.ofNat (∑ j, (jobs j).n.toNat)

theorem AllIn.step (h : AllIn jobs s log)
    (hloops : LoopsOk cfg codec jobs s log)
    (hle : (ShmMpsc.popped (log ++ ev)).length ≤ ∑ j, (jobs j).n.toNat) {a : SysAction ι}
    (hs : sysStep cfg codec (sc (segOps cfg)) jobs s a = some (s', ev)) :
    AllIn jobs s' (log ++ ev) := by
  have hmono := popped_length_mono (List.prefix_append log ev)
  have hlen := h.popped
  refine ⟨fun j => returned_step hs (h.returned j), by omega, ?_⟩
  by_cases ha : (Task.consumer : Task ι).Acts a
  · cases sysTrans_of_step hs with
    | producer | send | serve | drop | commit | stop => exact ha.elim
    | @consumer c pop m _ ht =>
      rcases ht.events with heq | ⟨site, hpc⟩
      · exact heq.trans h.events
      · -- a message that is still to be counted would be one too many
        have hok := hloops.consumer
        rw [hpc] at hok
        obtain ⟨raws', hr, hb⟩ := hok
        have hne := ofNat_length_ne hr
        rw [h.popped, ← h.events] at hne
        exact absurd hb.events.symm hne
  · rw [(consumer_kept hs ha).1]
    exact h.events

theorem AllIn.near (h : AllIn jobs s log)
    (hloops : LoopsOk cfg codec jobs s log) :
    Near wireTotal (ShmMpsc.popped log) s.consumer.stats.wireBytes ∧
      Near (payloadTotal cfg codec) (ShmMpsc.popped log) s.consumer.stats.payloadBytes :=
  hloops.consumer.near (by rw [h.events, h.popped])

end AllIn

/-! ### Runs of the bench -/

section Runs

variable {cfg : RingConfig} {codec : Codec C} {events : UInt64} {payload : List UInt8}
  {b b' : Bench n C} {log ev : List (SysEvent (Fin n) UInt64)} {as : List (BenchAction n)}

/-- A run of the bench, with a segment that `init` prepared. -/
def BenchRun (cfg : RingConfig) (codec : Codec C) (events : UInt64) (payload : List UInt8)
    (as : List (BenchAction n)) (b : Bench n C) (log : List (SysEvent (Fin n) UInt64)) : Prop :=
  ∃ m m', m.size = cfg.total.toNat ∧ init cfg m = some m' ∧
    (benchMachine n cfg codec events payload).Run Machine.free
      (Bench.start cfg codec m') [] as b log

/-- What `run_inner` reports of the messages popped. -/
structure Reported (cfg : RingConfig) (codec : Codec C) (events : UInt64)
    (log : List (SysEvent (Fin n) UInt64)) (r : BenchReport) : Prop where
  producers : r.producers = n
  eventsPerProducer : r.eventsPerProducer = events
  events : r.events.toNat = n * events.toNat
  wireBytes : Near wireTotal (popped log) r.wireBytes
  payloadBytes : Near (payloadTotal cfg codec) (popped log) r.payloadBytes
  postedCalls : r.postedCalls.toNat ≤ (winners log).length

/-- What holds where `run_inner` stands. -/
def BenchOk (cfg : RingConfig) (codec : Codec C) (events : UInt64) (payload : List UInt8)
    (s : System (Fin n) C UInt64 Memory) (log : List (SysEvent (Fin n) UInt64)) : BenchPc → Prop
  | .await i => ∀ j : Fin n, j.val < i → (s.producer j).pc = .returned
  | .poll | .sleep => ∀ j, (s.producer j).pc = .returned
  | .stop | .abort | .loadEvents => AllIn (benchJobs n events payload) s log
  | .loadWire e => AllIn (benchJobs n events payload) s log ∧ e.toNat = n * events.toNat
  | .loadPayload e w => AllIn (benchJobs n events payload) s log ∧ e.toNat = n * events.toNat ∧
      Near wireTotal (popped log) w
  | .loadPosted e w p => AllIn (benchJobs n events payload) s log ∧ e.toNat = n * events.toNat ∧
      Near wireTotal (popped log) w ∧ Near (payloadTotal cfg codec) (popped log) p
  | .done r => AllIn (benchJobs n events payload) s log ∧ Reported cfg codec events log r
  | .failed e => ∃ j, (s.producer j).pc = .failed e

@[simp] theorem sum_benchJobs (n : Nat) (events : UInt64) (payload : List UInt8) :
    ∑ j, (benchJobs n events payload j).n.toNat = n * events.toNat := by
  simp [benchJobs]

theorem benchTarget_toNat (h : n * events.toNat < 2 ^ 63) :
    (benchTarget n events).toNat = n * events.toNat := by
  rw [benchTarget, UInt64.toNat_mul, UInt64.toNat_ofNat', Nat.mod_mul_mod]
  exact Nat.mod_eq_of_lt (by omega)

/-- What holds in every run of the system within the bench. -/
structure Within (cfg : RingConfig) (codec : Codec C) (events : UInt64) (payload : List UInt8)
    (s : System (Fin n) C UInt64 Memory) (log : List (SysEvent (Fin n) UInt64)) : Prop where
  loops : LoopsOk cfg codec (benchJobs n events payload) s log
  notes : NotifyInv (segOps cfg) s log
  ring : ∃ u ulog, Refines cfg s.ring (ringLog log) u ulog

theorem ScRun.within (hN : 2 ≤ cfg.N) (hsum : n * events.toNat < 2 ^ 63 - cfg.N)
    {as : List (SysAction (Fin n))} {s : System (Fin n) C UInt64 Memory}
    (h : ScRun cfg codec (benchJobs n events payload) Machine.free as s log) :
    Within cfg codec events payload s log := by
  obtain ⟨bs, hinit⟩ := (h.windowed_of_total (by rwa [sum_benchJobs])).initRun
  exact ⟨h.loopsOk, h.notifyInv, hinit.refines hN⟩

theorem Within.popped_le {s : System (Fin n) C UInt64 Memory}
    (h : Within cfg codec events payload s log) : (popped log).length ≤ n * events.toNat := by
  obtain ⟨u, ulog, hR⟩ := h.ring
  have hle := (popped_length_le hR).trans h.loops.reserves_length_le
  rwa [sum_benchJobs] at hle

theorem stop_kept {s s' : System (Fin n) C UInt64 Memory} {a : SysAction (Fin n)}
    {jobs : Fin n → Job} (hs : sysStep cfg codec (sc (segOps cfg)) jobs s a = some (s', ev))
    (ha : a ≠ .stop) :
    s'.stop = s.stop := by
  cases sysTrans_of_step hs with
  | stop => exact absurd rfl ha
  | _ => rfl

theorem failed_step {s s' : System (Fin n) C UInt64 Memory} {a : SysAction (Fin n)}
    {jobs : Fin n → Job} (hs : sysStep cfg codec (sc (segOps cfg)) jobs s a = some (s', ev))
    {j : Fin n} {e : String} (hpc : (s.producer j).pc = .failed e) :
    (s'.producer j).pc = .failed e := by
  by_cases ha : (Task.run j).Acts a
  · cases sysTrans_of_step hs with
    | @producer k now spurious p push m _ ht =>
      obtain rfl : k = j := ha
      cases ht with
      | encodeErr hp | encode hp | finish hp | push hp | retry hp | won hp | lost hp | signal hp
      | returned hp =>
        rw [hp] at hpc
        cases hpc
    | send | serve | drop | consumer | commit | stop => exact ha.elim
  · rw [(producer_kept hs ha).1, hpc]

/-- A step of the system leaves what holds. -/
theorem BenchOk.sys {s s' : System (Fin n) C UInt64 Memory} {pc : BenchPc} {a : SysAction (Fin n)}
    (h : BenchOk cfg codec events payload s log pc) (hw : Within cfg codec events payload s log)
    (hw' : Within cfg codec events payload s' (log ++ ev))
    (hs : sysStep cfg codec (sc (segOps cfg)) (benchJobs n events payload) s a = some (s', ev)) :
    BenchOk cfg codec events payload s' (log ++ ev) pc := by
  have hstep (hall : AllIn (benchJobs n events payload) s log) :
      AllIn (benchJobs n events payload) s' (log ++ ev) ∧ popped (log ++ ev) = popped log := by
    have hall' := hall.step hw.loops (by rw [sum_benchJobs]; exact hw'.popped_le) hs
    have hlen := hall'.popped
    rw [popped_append, List.length_append, hall.popped] at hlen
    have hnil : popped ev = [] := List.length_eq_zero_iff.mp (by omega)
    exact ⟨hall', by rw [popped_append, hnil, List.append_nil]⟩
  cases pc with
  | await i => exact fun j hj => returned_step hs (h j hj)
  | poll | sleep => exact fun j => returned_step hs (h j)
  | stop | abort | loadEvents => exact (hstep h).1
  | loadWire => exact ⟨(hstep h.1).1, h.2⟩
  | loadPayload =>
    obtain ⟨hall, he, hwire⟩ := h
    obtain ⟨hall', hsame⟩ := hstep hall
    exact ⟨hall', he, hsame ▸ hwire⟩
  | loadPosted =>
    obtain ⟨hall, he, hwire, hpay⟩ := h
    obtain ⟨hall', hsame⟩ := hstep hall
    exact ⟨hall', he, hsame ▸ hwire, hsame ▸ hpay⟩
  | done r =>
    obtain ⟨hall, hrep⟩ := h
    obtain ⟨hall', hsame⟩ := hstep hall
    have hposted := hrep.postedCalls
    refine ⟨hall', hrep.producers, hrep.eventsPerProducer, hrep.events, hsame ▸ hrep.wireBytes,
      hsame ▸ hrep.payloadBytes, ?_⟩
    rw [winners_append, List.length_append]
    omega
  | failed e =>
    obtain ⟨j, hj⟩ := h
    exact ⟨j, failed_step hs hj⟩

/-- So does a step of `run_inner`, where it goes. -/
theorem BenchOk.bench (hsum : n * events.toNat < 2 ^ 63)
    (h : BenchOk cfg codec events payload b.sys log b.pc)
    (hw : Within cfg codec events payload b.sys log) (ht : BenchTrans events b b') :
    BenchOk cfg codec events payload b'.sys log b'.pc := by
  cases ht with
  | returned hi hpc hret =>
    rw [hpc] at h
    intro j hj
    rcases Nat.lt_succ_iff_lt_or_eq.mp hj with hlt | heq
    · exact h j hlt
    · obtain rfl : j = ⟨_, hi⟩ := Fin.ext heq
      exact hret
  | producerFailed hi hpc hfail =>
    rw [hpc] at h
    exact ⟨_, hfail⟩
  | joined hpc hi =>
    rw [hpc] at h
    exact fun j => h j (by omega)
  | short hpc | slept hpc =>
    rw [hpc] at h
    exact h
  | reached hpc hge =>
    rw [hpc] at h
    have htarget := benchTarget_toNat hsum
    have hle := hw.loops.consumer.events_le
    have hle' := hw.popped_le
    rw [UInt64.lt_iff_toNat_lt, htarget] at hge
    refine ⟨h, ?_, ?_⟩
    · rw [sum_benchJobs]
      omega
    · rw [sum_benchJobs]
      have hevents : b.sys.consumer.stats.events.toNat = n * events.toNat := by omega
      exact (UInt64.ofNat_toNat.symm.trans (congrArg UInt64.ofNat hevents))
  | stop hpc =>
    rw [hpc] at h
    exact ⟨h.returned, h.popped, h.events⟩
  | aborted hpc =>
    rw [hpc] at h
    exact h
  | loadEvents hpc =>
    rw [hpc] at h
    refine ⟨h, ?_⟩
    have he := h.events
    rw [sum_benchJobs] at he
    rw [he, UInt64.toNat_ofNat']
    omega
  | loadWire hpc =>
    rw [hpc] at h
    exact ⟨h.1, h.2, (h.1.near hw.loops).1⟩
  | loadPayload hpc =>
    rw [hpc] at h
    exact ⟨h.1, h.2.1, h.2.2, (h.1.near hw.loops).2⟩
  | loadPosted hpc =>
    rw [hpc] at h
    obtain ⟨hall, he, hwire, hpay⟩ := h
    have hcounts := hw.notes.counts_le
    have hcalls := congrArg UInt64.toNat hw.notes.calls
    rw [UInt64.toNat_ofNat'] at hcalls
    have hmod := Nat.mod_le (counted log).length (2 ^ 64)
    refine ⟨hall, rfl, rfl, he, hwire, hpay, ?_⟩
    show b.sys.postedCalls.toNat ≤ _
    omega

theorem benchStep_sys {a : SysAction (Fin n)} (ha : a ≠ .stop) :
    benchStep cfg codec events payload b (.sys a) =
      (sysStep cfg codec (sc (segOps cfg)) (benchJobs n events payload) b.sys a).map fun r =>
        ({ b with sys := r.1 }, r.2) := by
  cases a with
  | stop => exact absurd rfl ha
  | _ => rfl

theorem benchStep_eq_none {a : SysAction (Fin n)} (ha : a ≠ .stop) :
    benchStep cfg codec events payload b (.sys a) = none ↔
      sysStep cfg codec (sc (segOps cfg)) (benchJobs n events payload) b.sys a = none := by
  rw [benchStep_sys ha, Option.map_eq_none_iff]

theorem benchStep_cases {a : BenchAction n}
    (hs : benchStep cfg codec events payload b a = some (b', ev)) :
    (∃ a', a = .sys a' ∧ a' ≠ .stop ∧ b'.pc = b.pc ∧
      sysStep cfg codec (sc (segOps cfg)) (benchJobs n events payload) b.sys a' =
        some (b'.sys, ev)) ∨
    a = .bench ∧ BenchTrans events b b' ∧ ev = [] := by
  cases a with
  | bench =>
    obtain ⟨r, hr, h⟩ := Option.map_eq_some_iff.mp hs
    cases h
    exact .inr ⟨rfl, benchTrans_of_next hr, rfl⟩
  | sys a =>
    by_cases ha : a = .stop
    · subst ha
      cases hs
    · rw [benchStep_sys ha] at hs
      obtain ⟨r, hr, h⟩ := Option.map_eq_some_iff.mp hs
      cases h
      exact .inl ⟨a, rfl, ha, rfl, hr⟩

/-- The bench's own steps leave the system alone, but for `stop`. -/
theorem BenchTrans.sys_eq (h : BenchTrans events b b') :
    b'.sys = if b.pc = .stop then { b.sys with stop := true } else b.sys := by
  cases h with
  | stop hpc => rw [if_pos hpc]
  | returned _ hpc | producerFailed _ hpc | joined hpc | short hpc | reached hpc | slept hpc
  | aborted hpc | loadEvents hpc | loadWire hpc | loadPayload hpc | loadPosted hpc =>
    rw [if_neg (by rw [hpc]; nofun)]

/-- What the system does in an instant of the bench. -/
def sysAct (pc : BenchPc) : Option (BenchAction n) → Option (SysAction (Fin n))
  | some (.sys a) => some a
  | some .bench => if pc = .stop then some .stop else none
  | none => none

theorem benchStep_next {G : Machine.Guard (System (Fin n) C UInt64 Memory) (SysAction (Fin n))
      (SysEvent (Fin n) UInt64)} (hG : ∀ a, (a = .stop → b.pc = .stop) → G b.sys log a)
    {a : BenchAction n} (hs : benchStep cfg codec events payload b a = some (b', ev)) :
    Machine.Next (sysMachine cfg codec (sc (segOps cfg)) (benchJobs n events payload)) G b.sys log
      (sysAct b.pc (some a)) b'.sys (log ++ ev) := by
  rcases benchStep_cases hs with ⟨a, rfl, ha, _, hstep⟩ | ⟨rfl, ht, rfl⟩
  · exact .step (hG a fun heq => absurd heq ha) hstep
  · rw [ht.sys_eq, sysAct]
    split
    · rename_i hpc
      exact .step (hG .stop fun _ => hpc) rfl
    · rw [List.append_nil]
      exact .rest

/-- The system within the bench is the system. -/
theorem BenchRun.scRun (h : BenchRun cfg codec events payload as b log) :
    ∃ bs, ScRun cfg codec (benchJobs n events payload) Machine.free bs b.sys log := by
  obtain ⟨m, m', hm, hi, hrun⟩ := h
  have hsys : ∃ bs,
      (sysMachine cfg codec (sc (segOps cfg)) (benchJobs n events payload)).Run Machine.free
      (System.start cfg codec m') [] bs b.sys log := by
    induction hrun with
    | nil => exact ⟨[], .nil⟩
    | snoc _ _ hs ih =>
      obtain ⟨bs, hr⟩ := ih
      exact hr.next (benchStep_next (fun _ _ => trivial) hs)
  obtain ⟨bs, hr⟩ := hsys
  exact ⟨bs, m, m', hm, hi, hr⟩

theorem BenchOk.late (h : BenchOk cfg codec events payload b.sys log b.pc) {a : SysAction (Fin n)}
    (ha : a = .stop → b.pc = .stop) : stoppedLate (benchJobs n events payload) b.sys log a := by
  intro hstop
  rw [ha hstop] at h
  exact h.popped.ge

theorem BenchRun.ok (hN : 2 ≤ cfg.N) (hsum : n * events.toNat < 2 ^ 63 - cfg.N)
    (h : BenchRun cfg codec events payload as b log) :
    Within cfg codec events payload b.sys log ∧
      BenchOk cfg codec events payload b.sys log b.pc := by
  obtain ⟨m, m', hm, hi, hrun⟩ := h
  have hwithin {as : List (BenchAction n)} {b : Bench n C} {log : List (SysEvent (Fin n) UInt64)}
      (hr : (benchMachine n cfg codec events payload).Run Machine.free
        (Bench.start cfg codec m') [] as
        b log) : Within cfg codec events payload b.sys log := by
    obtain ⟨bs, hsc⟩ := BenchRun.scRun ⟨m, m', hm, hi, hr⟩
    exact hsc.within hN hsum
  refine ⟨hwithin hrun, ?_⟩
  induction hrun with
  | nil => exact fun j hj => absurd hj (Nat.not_lt_zero _)
  | snoc hr hg hs ih =>
    have hw' := hwithin (hr.snoc hg hs)
    rcases benchStep_cases hs with ⟨a, rfl, _, hpc, hstep⟩ | ⟨rfl, ht, rfl⟩
    · rw [hpc]
      exact ih.sys (hwithin hr) hw' hstep
    · rw [List.append_nil]
      exact ih.bench (by omega) (hwithin hr) ht

/-- Within the bench `stop` is stored late. -/
theorem BenchRun.late (hN : 2 ≤ cfg.N) (hsum : n * events.toNat < 2 ^ 63 - cfg.N)
    (h : BenchRun cfg codec events payload as b log) :
    ∃ bs, ScRun cfg codec (benchJobs n events payload) (stoppedLate (benchJobs n events payload)) bs
      b.sys log := by
  obtain ⟨m, m', hm, hi, hrun⟩ := h
  have hsys : ∃ bs, (sysMachine cfg codec (sc (segOps cfg)) (benchJobs n events payload)).Run
      (stoppedLate (benchJobs n events payload)) (System.start cfg codec m') [] bs b.sys log := by
    induction hrun with
    | nil => exact ⟨[], .nil⟩
    | snoc hr _ hs ih =>
      obtain ⟨bs, hr'⟩ := ih
      obtain ⟨_, hok⟩ := BenchRun.ok hN hsum ⟨m, m', hm, hi, hr⟩
      exact hr'.next (benchStep_next (fun _ => hok.late) hs)
  obtain ⟨bs, hr⟩ := hsys
  exact ⟨bs, m, m', hm, hi, hr⟩

/-- `stop` is what the place of `run_inner` says. -/
theorem BenchRun.stop_eq (h : BenchRun cfg codec events payload as b log) :
    b.sys.stop = b.pc.stopped := by
  obtain ⟨m, m', _, _, hrun⟩ := h
  refine hrun.invariant (I := fun b _ => b.sys.stop = b.pc.stopped)
    rfl fun b _ a b' ev hI _ hs => ?_
  rcases benchStep_cases hs with ⟨a, rfl, ha, hpc, hstep⟩ | ⟨rfl, ht, rfl⟩
  · rw [stop_kept hstep ha, hpc]
    exact hI
  · cases ht with
    | stop => rfl
    | returned _ hpc | producerFailed _ hpc | joined hpc | short hpc | reached hpc | slept hpc
    | aborted hpc | loadEvents hpc | loadWire hpc | loadPayload hpc | loadPosted hpc =>
      rw [hpc] at hI
      exact hI

theorem BenchOk.allIn {s : System (Fin n) C UInt64 Memory} {pc : BenchPc}
    (h : BenchOk cfg codec events payload s log pc) (hstop : pc.stopped = true) :
    AllIn (benchJobs n events payload) s log := by
  cases pc with
  | await | poll | sleep | stop | failed => cases hstop
  | abort | loadEvents => exact h
  | loadWire | loadPayload | loadPosted | done => exact h.1

theorem BenchRun.halted (h : BenchRun cfg codec events payload as b log)
    (hret : b.sys.consumer.pc = .returned) : b.sys.stop = true := by
  obtain ⟨bs, m, m', _, _, hrun⟩ := h.scRun
  exact hrun.invariant (I := fun s _ => s.consumer.pc = .returned → s.stop = true)
    (fun h => by cases h)
    (fun _ _ _ _ _ hI _ hs => halted_step hI hs) hret

/-- Everything that was sent is processed when all is in. -/
theorem AllIn.delivered {s : System (Fin n) C UInt64 Memory}
    (h : AllIn (benchJobs n events payload) s log) (hw : Within cfg codec events payload s log)
    (j : Fin n) : processed j log = ((encodings j log).map Prod.snd).map truncated := by
  obtain ⟨u, ulog, hR⟩ := hw.ring
  have hsent (j : Fin n) : Sent (benchJobs n events payload j).n (encodings j log) (pushes j log)
      (benchJobs n events payload j).n.toNat := by
    have hok := hw.loops.producers j
    rw [h.returned j] at hok
    exact hok
  have hle := hw.loops.reserves_length_le
  have hle' := popped_length_le hR
  have hpopped := h.popped
  rw [processed_all hR (by omega), (hsent j).pushed]

/-- In every interleaving: the report has every event, once, and at most the bytes of the last one
are missing; `stop` comes after everything; a consumer that has returned has accounted for all of
it; and an error is one of a producer. -/
theorem report_exact (hN : 2 ≤ cfg.N) (hsum : n * events.toNat < 2 ^ 63 - cfg.N)
    (h : BenchRun cfg codec events payload as b log) :
    (∀ r, b.pc = .done r → Reported cfg codec events log r) ∧
    (b.sys.stop = true → AllIn (benchJobs n events payload) b.sys log ∧
      ∀ j, processed j log = ((encodings j log).map Prod.snd).map truncated) ∧
    (b.sys.consumer.pc = .returned → b.sys.consumer.stats = {
      events := UInt64.ofNat (n * events.toNat)
      wireBytes := UInt64.ofNat (wireTotal (popped log))
      payloadBytes := UInt64.ofNat (payloadTotal cfg codec (popped log)) }) ∧
    (∀ e, b.pc = .failed e → b.sys.stop = false ∧ ∃ j, (b.sys.producer j).pc = .failed e) := by
  obtain ⟨hw, hok⟩ := h.ok hN hsum
  refine ⟨fun r hpc => ?_, fun hstop => ?_, fun hret => ?_, fun e hpc => ?_⟩
  · rw [hpc] at hok
    exact hok.2
  · have hall := hok.allIn (h.stop_eq.symm.trans hstop)
    exact ⟨hall, hall.delivered hw⟩
  · have hall := hok.allIn (h.stop_eq.symm.trans (h.halted hret))
    have hbooks := hw.loops.consumer.books (by rw [hret]; rfl)
    have hevents := hall.events
    rw [sum_benchJobs] at hevents
    rw [← hevents, ← hbooks.wireBytes, ← hbooks.payloadBytes]
  · have hstop := h.stop_eq
    rw [hpc] at hok hstop
    exact ⟨hstop, hok⟩

/-- Two producers with two events each, through the two slots twice. The bench looks at the counters
when the last event is counted and its bytes are not; then the consumer thread returns. -/
def twoBench : List (BenchAction 2) :=
  List.replicate 4 (.sys (.producer 0 0 false)) ++ List.replicate 9 (.sys (.producer 1 0 false)) ++
    List.replicate 5 (.sys (.producer 0 0 false)) ++ List.replicate 21 (.sys .consumer) ++
    List.replicate 9 (.sys (.producer 1 0 false)) ++ List.replicate 9
      (.sys (.producer 0 0 false)) ++
    List.replicate 17 (.sys .consumer) ++ List.replicate 10 .bench ++
    List.replicate 5 (.sys .consumer)

theorem twoBench_exec :
    ((init tiny blank).bind fun m =>
      (benchMachine 2 tiny plain 2 [7]).exec (Bench.start tiny plain m, []) twoBench).map (fun c =>
        decide (c.1.pc = .done {
          producers := 2, eventsPerProducer := 2, events := 4, wireBytes := 3, payloadBytes := 3,
          postedCalls := 0 } ∧ c.1.sys.consumer.pc = .returned ∧
            popped c.2 = List.replicate 4 [7])) = some true := by
  decide +kernel

theorem report_exact_twoBench :
    ∃ b log r, BenchRun tiny plain 2 [7] twoBench b log ∧ b.pc = .done r ∧
    Reported tiny plain 2 log r ∧ r.wireBytes = 3 ∧
    b.sys.consumer.stats = { events := 4, wireBytes := 4, payloadBytes := 4 } := by
  obtain ⟨c, hc, hd⟩ := Option.map_eq_some_iff.mp twoBench_exec
  obtain ⟨m, hi, hrun⟩ := Option.bind_eq_some_iff.mp hc
  obtain ⟨hdone, hret, hpopped⟩ := of_decide_eq_true hd
  have hrun : BenchRun tiny plain 2 [7] twoBench c.1 c.2 :=
    ⟨blank, m, rfl, hi, Machine.run_of_exec hrun⟩
  obtain ⟨hrep, _, hstats, _⟩ := report_exact (by decide) (by decide) hrun
  refine ⟨c.1, c.2, _, hrun, hdone, hrep _ hdone, rfl, ?_⟩
  rw [hstats hret, hpopped]
  rfl

end Runs

end ShmMpsc
