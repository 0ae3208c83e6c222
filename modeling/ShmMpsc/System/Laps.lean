import ShmMpsc.Ring.Stalled
import ShmMpsc.System.Drain
import ShmMpsc.System.EndToEnd

/-!
# Two laps of 2^64 under a stale CAS

Undisturbed calls of the ring as steps of the loops, and a run of three producers in which
the consumer processes an event that its producer never pushed there.
-/

namespace ShmMpsc

set_option autoImplicit false

open RingConfig

section Lift

variable {ι C W M : Type} {cfg : RingConfig} {codec : Codec C} {ops : SegOps W M} {jobs : ι → Job}

theorem PushTrans.afterPush {spurious : Bool} {pc pc' : PushPc W} {m m' : M}
    {ev : List (PushEvent W)} (h : PushTrans ops spurious pc m pc' m' ev) (cfg : RingConfig)
    (scratch : List UInt8) (i : UInt64) : afterPush cfg scratch i pc = .push i := by
  cases h <;> rfl

theorem PopTrans.afterPop {pc pc' : PopPc W} {m m' : M} {ev : List (PopEvent W)}
    (h : PopTrans ops pc m pc' m' ev) (hit miss : ConsumerPc) (c : Consumer C) :
    afterPop hit miss c pc = c := by
  cases h <;> rfl

variable [DecidableEq ι] [DecidableEq W] {s : System ι C W M} {log ev : List (SysEvent ι W)}
  {G : Machine.Guard (System ι C W M) (SysAction ι) (SysEvent ι W)}

theorem ProducerTrans.run {j : ι} {now : UInt64} {spurious : Bool} {p : Producer C W}
    {push : PushPc W} {m : M}
    (h : ProducerTrans cfg codec ops (jobs j) j now spurious (s.producer j) (s.ring.push j)
      s.ring.mem p push m ev) (hG : G s log (.producer j now spurious)) :
    (sysMachine cfg codec (sc ops) jobs).Run G s log [.producer j now spurious]
      (s.setProducer j p push m) (log ++ ev) :=
  .single hG (by simp [sysMachine, sysStep, sc, h.step])

theorem ConsumerTrans.run {c : Consumer C} {pop : PopPc W} {m : M}
    (h : ConsumerTrans ι codec ops s.stop s.consumer s.ring.pop s.ring.mem c pop m ev)
    (hG : G s log .consumer) :
    (sysMachine cfg codec (sc ops) jobs).Run G s log [.consumer]
      (s.setConsumer c pop m) (log ++ ev) :=
  .single hG (by simp [sysMachine, sysStep, sc, h.step])

variable (cfg codec jobs) in
theorem PushPath.sysRun {near : M → PushPc W → Prop} {pc pc' : PushPc W} {m m' : M}
    {evs : List (PushEvent W)} (h : PushPath ops near pc m evs pc' m') {j : ι} {i : UInt64}
    (s : System ι C W M) (log : List (SysEvent ι W)) (hpush : s.ring.push j = pc)
    (hm : s.ring.mem = m)
    (hpc : (s.producer j).pc = afterPush cfg (s.producer j).scratch i pc)
    (hG : ∀ s' log', s'.consumer = s.consumer → G s' log' (.producer j 0 false)) :
    ∃ as, (sysMachine cfg codec (sc ops) jobs).Run G s log as
      (s.setProducer j
        { s.producer j with pc := afterPush cfg (s.producer j).scratch i pc' } pc' m')
      (log ++ evs.map fun e => .ring (.push j e)) := by
  induction h generalizing s log with
  | nil =>
    subst hpush hm
    refine ⟨[], ?_⟩
    rw [List.map_nil, List.append_nil, ← hpc]
    simpa [System.setProducer] using Machine.Run.nil
  | @cons pc m ev pc1 m1 evs pc2 m2 _ ht _ ih =>
    subst hpush hm
    rw [ht.afterPush] at hpc
    have hone : ProducerTrans cfg codec ops (jobs j) j 0 false (s.producer j) (s.ring.push j)
        s.ring.mem
          { s.producer j with pc := ShmMpsc.afterPush cfg (s.producer j).scratch i pc1 } pc1
        m1 (ev.map fun e => .ring (.push j e)) := .push hpc ht.step
    obtain ⟨as, hrun⟩ := ih (s.setProducer j { s.producer j with
        pc := ShmMpsc.afterPush cfg (s.producer j).scratch i pc1 } pc1 m1)
      (log ++ ev.map fun e => .ring (.push j e)) (Function.update_self ..) rfl
      (by simp [System.setProducer]) fun s' log' hs' => hG s' log' hs'
    exact ⟨_, by simpa [System.setProducer] using (hone.run (hG s log rfl)).trans hrun⟩

/-- Where the drain loop goes on once `try_pop` has returned. -/
def afterDrain (drained : UInt32) (c : Consumer C) : PopPc W → Consumer C :=
  afterPop (.addEvents (.drain (drained + 1))) (if drained = 0 then .storeParked else .stop) c

omit [DecidableEq ι] [DecidableEq W] in
/-- After a burst the loop goes round again. -/
theorem afterDrain_none {drained : UInt32} (h : drained ≠ 0) (c : Consumer C) (out : List UInt8) :
    (afterDrain drained c (.done none out : PopPc W)).pc = .stop :=
  if_neg h

theorem PopTrans.sysRun {drained : UInt32} {pop : PopPc W} {m : M} {ev : List (PopEvent W)}
    (h : PopTrans ops s.ring.pop s.ring.mem pop m ev) (hc : s.consumer.pc = .drain drained)
    (hG : G s log .consumer) :
    (sysMachine cfg codec (sc ops) jobs).Run G s log [.consumer]
      { s with ring := { mem := m, push := s.ring.push, pop := pop }
               consumer := afterDrain drained s.consumer pop }
      (log ++ ev.map fun e => .ring (.pop e)) := by
  have hone : ConsumerTrans ι codec ops s.stop s.consumer s.ring.pop s.ring.mem
      (afterDrain drained s.consumer pop) pop m (ev.map fun e => .ring (.pop e)) := .drain hc h
  simpa [System.setConsumer, afterDrain, hc] using hone.run hG

variable (cfg codec jobs) in
theorem PopPath.sysRun {near : M → PopPc W → Prop} {pop pop' : PopPc W} {m m' : M}
    {evs : List (PopEvent W)} (h : PopPath ops near pop m evs pop' m') (drained : UInt32)
    (c : Consumer C) (hc : c.pc = .drain drained) (s : System ι C W M) (log : List (SysEvent ι W))
    (hpop : s.ring.pop = pop) (hm : s.ring.mem = m) (hs : s.consumer = afterDrain drained c pop)
    (hG : ∀ s' log', s'.consumer.pc.counter = some drained → G s' log' .consumer) :
    ∃ as, (sysMachine cfg codec (sc ops) jobs).Run G s log as
      { s with ring := { mem := m', push := s.ring.push, pop := pop' }
               consumer := afterDrain drained c pop' }
      (log ++ evs.map fun e => .ring (.pop e)) := by
  induction h generalizing s log with
  | nil =>
    subst hpop hm
    refine ⟨[], ?_⟩
    rw [List.map_nil, List.append_nil, ← hs]
    exact .nil
  | @cons pc m ev pc1 m1 evs pc2 m2 _ ht _ ih =>
    subst hpop hm
    rw [afterDrain, ht.afterPop] at hs
    subst hs
    obtain ⟨as, hrun⟩ := ih { s with
        ring := { mem := m1, push := s.ring.push, pop := pc1 }
        consumer := afterDrain drained s.consumer pc1 }
      (log ++ ev.map fun e => .ring (.pop e)) rfl rfl rfl
    have hin : s.consumer.pc.counter = some drained := congrArg ConsumerPc.counter hc
    exact ⟨_, by simpa using (ht.sysRun hc (hG s log hin)).trans hrun⟩

variable (cfg codec jobs log) in
/-- An event is encoded and its push goes on undisturbed. -/
theorem PushPath.encodeRun {near : M → PushPc W → Prop} {j : ι} {i : UInt64} {c : C}
    {data : List UInt8} {pc' : PushPc W} {m' : M} {evs : List (PushEvent W)}
    (h : PushPath ops near (.loadTail data) s.ring.mem evs pc' m')
    (hpc : (s.producer j).pc = .encode i) (hi : i < (jobs j).n)
    (he : codec.encode (s.producer j).codec i 0 (jobs j).name .metric (jobs j).payload [] =
      .ok (c, data)) (hlen : data.length ≤ ops.maxLen)
    (hG : ∀ s' log', s'.consumer = s.consumer → G s' log' (.producer j 0 false)) :
    ∃ as, (sysMachine cfg codec (sc ops) jobs).Run G s log as
      (s.setProducer j
        { (s.producer j).encoded (jobs j) c data with pc := ShmMpsc.afterPush cfg data i pc' }
        pc' m')
      (log ++ .encode j i 0 data :: .ring (.call j data) ::
        evs.map fun e => .ring (.push j e)) := by
  have hcall : pushCall ops data = .loadTail data := if_neg (Nat.not_lt.mpr hlen)
  have hone : ProducerTrans cfg codec ops (jobs j) j 0 false (s.producer j) (s.ring.push j)
      s.ring.mem { (s.producer j).encoded (jobs j) c data with
        pc := ShmMpsc.afterPush cfg data i (pushCall ops data) } (pushCall ops data) s.ring.mem
      [.encode j i 0 data, .ring (.call j data)] := .encode hpc hi he
  rw [hcall] at hone
  obtain ⟨as, hrun⟩ := h.sysRun cfg codec jobs (j := j) (i := i)
    (s.setProducer j { (s.producer j).encoded (jobs j) c data with
        pc := ShmMpsc.afterPush cfg data i (.loadTail data : PushPc W) }
      (.loadTail data) s.ring.mem)
    (log ++ [.encode j i 0 data, .ring (.call j data)]) (Function.update_self ..) rfl
    (by simp [System.setProducer, Producer.encoded]) fun s' log' hs' => hG s' log' hs'
  have hall := (hone.run (hG s log rfl)).trans hrun
  exact ⟨_, by simpa [System.setProducer, Producer.encoded] using hall⟩

/-- `try_pop` is called for the first message of a burst. -/
def System.entered (s : System ι C W M) : System ι C W M :=
  s.setConsumer { s.consumer with pc := .drain 0 } (.loadHead s.consumer.buf) s.ring.mem

variable (cfg codec jobs) in
theorem enteredTrans (hpc : s.consumer.pc = .stop) (hstop : s.stop = false) :
    sysStep cfg codec (sc ops) jobs s .consumer =
      some (s.entered, [.ring (.popCall s.consumer.buf)]) := by
  simp [sysStep, consumerStep, hpc, hstop, enterPop, System.entered]

variable (cfg codec jobs log) in
theorem PopPath.enteredRun {near : M → PopPc W → Prop} {pop' : PopPc W} {m' : M}
    {evs : List (PopEvent W)}
    (h : PopPath ops near (.loadHead s.consumer.buf) s.ring.mem evs pop' m')
    (hpc : s.consumer.pc = .stop)
    (hG : ∀ s' log', s'.consumer.pc.counter = some 0 → G s' log' .consumer) :
    ∃ as, (sysMachine cfg codec (sc ops) jobs).Run G s.entered
      (log ++ [.ring (.popCall s.consumer.buf)]) as
      { s with ring := { mem := m', push := s.ring.push, pop := pop' }
               consumer := afterDrain 0 { s.consumer with pc := .drain 0 } pop' }
      (log ++ .ring (.popCall s.consumer.buf) :: evs.map fun e => .ring (.pop e)) := by
  obtain ⟨as, hrun⟩ := h.sysRun cfg codec jobs 0 { s.consumer with pc := .drain 0 } rfl
    s.entered (log ++ [.ring (.popCall s.consumer.buf)]) rfl rfl rfl hG
  exact ⟨as, by simpa [System.entered, System.setConsumer, hpc] using hrun⟩

variable (cfg codec jobs log) in
theorem PopPath.topRun {near : M → PopPc W → Prop} {pop' : PopPc W} {m' : M}
    {evs : List (PopEvent W)}
    (h : PopPath ops near (.loadHead s.consumer.buf) s.ring.mem evs pop' m')
    (hpc : s.consumer.pc = .stop) (hstop : s.stop = false) :
    ∃ as, (sysMachine cfg codec (sc ops) jobs).Run Machine.free s log as
      { s with ring := { mem := m', push := s.ring.push, pop := pop' }
               consumer := afterDrain 0 { s.consumer with pc := .drain 0 } pop' }
      (log ++ .ring (.popCall s.consumer.buf) :: evs.map fun e => .ring (.pop e)) := by
  obtain ⟨as, hrun⟩ := h.enteredRun (G := Machine.free) cfg codec jobs log hpc fun _ _ _ => trivial
  have hone : (sysMachine cfg codec (sc ops) jobs).Run Machine.free s log [.consumer] s.entered
      (log ++ [.ring (.popCall s.consumer.buf)]) :=
    .single trivial (enteredTrans cfg codec jobs hpc hstop)
  exact ⟨_, hone.trans hrun⟩

/-- The statistics of a consumer that has counted the message in `buf` and its length. -/
def Consumer.counted (c : Consumer C) : Consumer C :=
  { c with stats := { c.stats with
      events := c.stats.events + 1
      wireBytes := c.stats.wireBytes + UInt64.ofNat c.buf.length } }

/-- And the message decoded, and `try_pop` called for the next one. -/
def System.accounted (codec : Codec C) (drained : UInt32) (s : System ι C W M) : System ι C W M :=
  { s with
    ring := { s.ring with pop := .loadHead s.consumer.buf }
    consumer := { s.consumer.counted.decode codec with pc := .drain drained } }

theorem accountRun {drained : UInt32} (hpc : s.consumer.pc = .addEvents (.drain drained))
    (hG : ∀ s' log', s'.consumer.pc.counter = some drained → G s' log' .consumer) :
    (sysMachine cfg codec (sc ops) jobs).Run G s log [.consumer, .consumer, .consumer]
      (s.accounted codec drained) (log ++ [.ring (.popCall s.consumer.buf)]) := by
  have hexec : (sysMachine cfg codec (sc ops) jobs).execWith
      (fun s _ a => match a with
        | .consumer => s.consumer.pc.counter = some drained
        | _ => false) (s, log) [.consumer, .consumer, .consumer] =
      some (s.accounted codec drained, log ++ [.ring (.popCall s.consumer.buf)]) := by
    simp [Machine.execWith, sysMachine, sysStep, consumerStep, System.setConsumer, enterPop, hpc,
      System.accounted, Consumer.counted, Consumer.decode, ConsumerPc.counter, Site.counter]
  refine Machine.run_of_execWith ?_ hexec
  intro s' log' a ha
  cases a with
  | consumer => exact hG s' log' (by simpa using ha)
  | producer | send | serve | drop | commit | stop => cases ha

variable (cfg codec jobs s log) in
theorem PopPath.nextRun {near : M → PopPc W → Prop} {pop' : PopPc W} {m' : M}
    {evs : List (PopEvent W)} {drained : UInt32}
    (h : PopPath ops near (.loadHead s.consumer.buf) s.ring.mem evs pop' m')
    (hpc : s.consumer.pc = .addEvents (.drain drained))
    (hG : ∀ s' log', s'.consumer.pc.counter = some drained → G s' log' .consumer) :
    ∃ as, (sysMachine cfg codec (sc ops) jobs).Run G s log as
      { s with ring := { mem := m', push := s.ring.push, pop := pop' }
               consumer := afterDrain drained (s.accounted codec drained).consumer pop' }
      (log ++ .ring (.popCall s.consumer.buf) :: evs.map fun e => .ring (.pop e)) := by
  obtain ⟨as, hrun⟩ := h.sysRun cfg codec jobs drained (s.accounted codec drained).consumer rfl
    (s.accounted codec drained)
    (log ++ [.ring (.popCall s.consumer.buf)]) rfl rfl rfl hG
  have hall := (accountRun hpc hG).trans hrun
  rw [List.append_assoc] at hall
  exact ⟨_, hall⟩

end Lift

/-! ### Rounds -/

section Rounds

variable {ι C : Type} [DecidableEq ι] {cfg : RingConfig} {codec : Codec C} {jobs : ι → Job}
  {s : System ι C UInt64 Memory} {log : List (SysEvent ι UInt64)} {u : RingState ι Nat UMem}
  {ulog : List (RingEvent ι Nat)}
  {G : Machine.Guard (System ι C UInt64 Memory) (SysAction ι) (SysEvent ι UInt64)}

theorem lostRun {j : ι} {i seq : UInt64} (hpc : (s.producer j).pc = .casState i seq)
    (hstate : s.ring.mem.load64 128 = some STATE_RUNNING) (hG : G s log (.producer j 0 false)) :
    (sysMachine cfg codec (sc (segOps cfg)) jobs).Run G s log [.producer j 0 false]
      { s with
        producer := Function.update s.producer j { s.producer j with pc := .encode (i + 1) } }
      (log ++ [.casState j false]) := by
  have hlost : ProducerTrans cfg codec (segOps cfg) (jobs j) j 0 false (s.producer j)
      (s.ring.push j) s.ring.mem { s.producer j with pc := .encode (i + 1) } (s.ring.push j)
      s.ring.mem [.casState j false] := .lost hpc (casState_running hstate)
  simpa [System.setProducer] using hlost.run hG

variable (codec jobs) (hg : cfg.Admitted) (hf : cfg.Fits) (hN : 2 ≤ cfg.N)
include hg hf hN

/-- A producer handles one event and nobody else moves. -/
theorem Refines.deliver (h : Refines cfg s.ring (ringLog log) u ulog) {j : ι} {i : UInt64} {c : C}
    {data : List UInt8} (hready : (u.push j).ready = true)
    (hroom : u.mem.tail < freed u + cfg.N) (hstate : u.mem.state = STATE_RUNNING)
    (hpc : (s.producer j).pc = .encode i) (hi : i < (jobs j).n)
    (he : codec.encode (s.producer j).codec i 0 (jobs j).name .metric (jobs j).payload [] =
      .ok (c, data)) (hlen : data.length ≤ cfg.S - 20)
    (hG : ∀ s' log', s'.consumer = s.consumer → G s' log' (.producer j 0 false)) :
    ∃ as s' log' ulog', (sysMachine cfg codec (sc (segOps cfg)) jobs).Run G s log as s' log' ∧
      ringLog log' = ringLog log ++ [.call j data, .push j .tailLoad,
        .push j (.reserve data (UInt64.ofNat u.mem.tail)),
        .push j (.publish (UInt64.ofNat u.mem.tail))] ∧
      Published ulog' u.mem.tail ∧
      Refines cfg s'.ring (ringLog log')
        { mem := u.mem.pushed cfg.N data
          push := Function.update u.push j (.done (.ok u.mem.tail))
          pop := u.pop } ulog' ∧
      (s'.producer j).pc = .encode (i + 1) ∧ (∀ k, k ≠ j → s'.producer k = s.producer k) ∧
      s'.consumer = s.consumer ∧ s'.stop = s.stop := by
  obtain ⟨m', hseg, hR⟩ := h.pushPath hg hf hN hready hlen
    (soloPush_path hlen (h.inv.seq_tail hroom))
  have hmax : data.length ≤ (segOps cfg).maxLen := hlen.trans_eq (maxLen_toNat hg.min).symm
  obtain ⟨as, hrun⟩ := hseg.encodeRun cfg codec jobs log hpc hi he hmax hG
  have hst : m'.load64 128 = some STATE_RUNNING := hR.sim.mem.state.trans (congrArg some hstate)
  have hpc' (push : PushPc UInt64) : ((s.setProducer j { (s.producer j).encoded (jobs j) c data with
      pc := .casState i (UInt64.ofNat u.mem.tail) } push m').producer j).pc =
      .casState i (UInt64.ofNat u.mem.tail) := by
    simp [System.setProducer]
  have hall := hrun.trans (lostRun (hpc' _) hst (hG _ _ rfl))
  have hlog : ringLog (log ++ .encode j i 0 data :: .ring (.call j data) ::
      ([.tailLoad, .reserve data u.mem.tail, .publish u.mem.tail].map
        (PushEvent.map UInt64.ofNat)).map
        (fun e => .ring (.push j e)) ++ [.casState j false]) = ringLog log ++ .call j data ::
      [.tailLoad, .reserve data u.mem.tail, .publish u.mem.tail].map
        (fun e => .push j (PushEvent.map UInt64.ofNat e)) := by
    simp [ringLog]
  refine ⟨_, _, _, _, hall, hlog, published_append.mpr (.inr ⟨j, by simp⟩), hlog ▸ hR, ?_⟩
  simp +contextual [System.setProducer]

/-- The first `try_pop` of a burst. -/
theorem Refines.firstCall (h : Refines cfg s.ring (ringLog log) u ulog)
    (hready : u.pop.ready = true) {evs : List (PopEvent Nat)} {pc : PopPc Nat} {m : UMem}
    (hpath : PopPath (unbounded cfg) (PopNear cfg) (.loadHead s.consumer.buf) u.mem evs pc m)
    (hpc : s.consumer.pc = .stop)
    (hG : ∀ s' log', s'.consumer.pc.counter = some 0 → G s' log' .consumer) :
    ∃ as s' log' ulog', (sysMachine cfg codec (sc (segOps cfg)) jobs).Run G s.entered
        (log ++ [.ring (.popCall s.consumer.buf)]) as s' log' ∧
      ringLog log' = ringLog log ++ .popCall s.consumer.buf ::
        evs.map (fun e => .pop (e.map UInt64.ofNat)) ∧
      Refines cfg s'.ring (ringLog log') { mem := m, push := u.push, pop := pc } ulog' ∧
      s'.producer = s.producer ∧ s'.stop = s.stop ∧
      s'.consumer = afterDrain 0 { s.consumer with pc := .drain 0 } (pc.map UInt64.ofNat) := by
  obtain ⟨m', hseg, hR⟩ := h.popPath hg hf hN hready hpath
  obtain ⟨as, hrun⟩ := hseg.enteredRun cfg codec jobs log hpc hG
  have hlog : ringLog (log ++ .ring (.popCall s.consumer.buf) ::
      (evs.map (PopEvent.map UInt64.ofNat)).map fun e => .ring (.pop e)) = ringLog log ++
      .popCall s.consumer.buf :: evs.map (fun e => .pop (e.map UInt64.ofNat)) := by
    rw [ringLog_append, List.map_map]
    exact congrArg (ringLog log ++ ·) (congrArg (_ :: ·) (ringLog_ring _ evs))
  exact ⟨as, _, _, _, hrun, hlog, hlog ▸ hR, rfl, rfl, rfl⟩

/-- And every next one, after the message before has been accounted. -/
theorem Refines.nextCall (h : Refines cfg s.ring (ringLog log) u ulog) (hready : u.pop.ready = true)
    {evs : List (PopEvent Nat)} {pc : PopPc Nat} {m : UMem} {drained : UInt32}
    (hpath : PopPath (unbounded cfg) (PopNear cfg) (.loadHead s.consumer.buf) u.mem evs pc m)
    (hpc : s.consumer.pc = .addEvents (.drain drained))
    (hG : ∀ s' log', s'.consumer.pc.counter = some drained → G s' log' .consumer) :
    ∃ as s' log' ulog', (sysMachine cfg codec (sc (segOps cfg)) jobs).Run G s log as s' log' ∧
      ringLog log' = ringLog log ++ .popCall s.consumer.buf ::
        evs.map (fun e => .pop (e.map UInt64.ofNat)) ∧
      Refines cfg s'.ring (ringLog log') { mem := m, push := u.push, pop := pc } ulog' ∧
      s'.producer = s.producer ∧ s'.stop = s.stop ∧
      s'.consumer = afterDrain drained (s.accounted codec drained).consumer
        (pc.map UInt64.ofNat) := by
  obtain ⟨m', hseg, hR⟩ := h.popPath hg hf hN hready hpath
  obtain ⟨as, hrun⟩ := PopPath.nextRun cfg codec jobs s log hseg hpc hG
  have hlog : ringLog (log ++ .ring (.popCall s.consumer.buf) ::
      (evs.map (PopEvent.map UInt64.ofNat)).map fun e => .ring (.pop e)) = ringLog log ++
      .popCall s.consumer.buf :: evs.map (fun e => .pop (e.map UInt64.ofNat)) := by
    rw [ringLog_append, List.map_map]
    exact congrArg (ringLog log ++ ·) (congrArg (_ :: ·) (ringLog_ring _ evs))
  exact ⟨as, _, _, _, hrun, hlog, hlog ▸ hR, rfl, rfl, rfl⟩

/-- The consumer handles the one message of the ring and nobody else moves. -/
theorem Refines.consume (h : Refines cfg s.ring (ringLog log) u ulog) (hready : u.pop.ready = true)
    (hpub : Published ulog u.mem.head) (htail : u.mem.tail = u.mem.head + 1)
    (hpc : s.consumer.pc = .stop) (hstop : s.stop = false) :
    ∃ as s' log' ulog' out,
      (sysMachine cfg codec (sc (segOps cfg)) jobs).Run Machine.free s log as s' log' ∧
      ringLog log' = ringLog log ++ [.popCall s.consumer.buf,
        .pop (.release (UInt64.ofNat u.mem.head)), .pop (.some (UInt64.ofNat u.mem.head) out),
        .popCall out, .pop (.none out)] ∧
      Refines cfg s'.ring (ringLog log')
        { mem := u.mem.popped cfg.N, push := u.push, pop := .done none out } ulog' ∧
      s'.producer = s.producer ∧ s'.consumer.pc = .stop ∧ s'.stop = s.stop := by
  obtain ⟨as, s1, log1, ulog1, hrun1, hlog1, hR1, hprod1, hstop1, hc1⟩ :=
    h.firstCall (G := Machine.free) codec jobs hg hf hN hready
      (h.soloPop_path hN hready hpub s.consumer.buf) hpc fun _ _ _ => trivial
  have hbuf : s1.consumer.buf = headBytes cfg u.mem := congrArg Consumer.buf hc1
  obtain ⟨bs, s2, log2, ulog2, hrun2, hlog2, hR2, hprod2, hstop2, hc2⟩ :=
    hR1.nextCall (G := Machine.free) codec jobs hg hf hN rfl
      (hR1.emptyPop_path hN rfl htail.symm s1.consumer.buf) (congrArg Consumer.pc hc1)
      fun _ _ _ => trivial
  have hone : (sysMachine cfg codec (sc (segOps cfg)) jobs).Run Machine.free s log
      [.consumer] s.entered (log ++ [.ring (.popCall s.consumer.buf)]) :=
    .single trivial (enteredTrans cfg codec jobs hpc hstop)
  rw [hbuf] at hlog2 hR2
  refine ⟨_, s2, log2, ulog2, headBytes cfg u.mem, (hone.trans hrun1).trans hrun2, ?_, hR2,
    hprod2.trans hprod1, ?_, hstop2.trans hstop1⟩
  · rw [hlog2, hlog1, List.append_assoc]
    rfl
  · rw [hc2]
    exact afterDrain_none (W := UInt64) (by decide) _ _

end Rounds

/-! ### Two laps -/

/-- The worker's events take all positions below 2^64 but the last, which the stalled producer
takes; by then the stale one still holds position 0. -/
def overlapping : Party → Job
  | .stale => { name := "stale", n := 1, payload := [9] }
  | .worker => { name := "worker", n := 18446744073709551615, payload := [1] }
  | .stalled => { name := "stalled", n := 1, payload := [] }

abbrev LapState := System Party Unit UInt64 Memory

abbrev LapLog := List (SysEvent Party UInt64)

/-- The worker is through with `n` events, and so is the consumer. -/
structure Lapping (n : Nat) (s : LapState) (log : LapLog) (u : RingState Party Nat UMem) :
    Prop where
  tail : u.mem.tail = n
  head : u.mem.head = n
  state : u.mem.state = STATE_RUNNING
  stale : u.push .stale = .cas [9] 0
  worker : (u.push .worker).ready = true
  stalled : (u.push .stalled).ready = true
  pop : u.pop.ready = true
  stalePc : (s.producer .stale).pc = .push 0
  workerPc : (s.producer .worker).pc = .encode (UInt64.ofNat n)
  stalledPc : (s.producer .stalled).pc = .encode 0
  consumerPc : s.consumer.pc = .stop
  stop : s.stop = false
  pushes : ∀ d ∈ pushes .worker log, d = [1]

theorem lapping_zero : ∃ as s log u ulog, ScRun tiny plain overlapping Machine.free as s log ∧
    Refines tiny s.ring (ringLog log) u ulog ∧ Lapping 0 s log u := by
  obtain ⟨m0, hi⟩ := init_isSome tiny_admitted tiny_fits (m := blank) rfl
  obtain ⟨len, payload, hR⟩ := refines_init (ι := Party) rfl hi
  have hlen : ([9] : List UInt8).length ≤ tiny.S - 20 := by decide
  obtain ⟨m', hseg, hR'⟩ := hR.pushPath tiny_admitted tiny_fits (by decide) (i := .stale) rfl hlen
    (cas_path rfl)
  obtain ⟨as, hrun⟩ := hseg.encodeRun (G := Machine.free) tiny plain overlapping []
    (s := (System.start tiny plain m0 : LapState)) (j := .stale) (i := 0) rfl (by decide) rfl
    (by decide) fun _ _ _ => trivial
  refine ⟨as, _, _, _, _, ⟨blank, m0, rfl, hi, hrun⟩, hR', ?_⟩
  exact {
    tail := rfl
    head := rfl
    state := rfl
    stale := rfl
    worker := rfl
    stalled := rfl
    pop := rfl
    stalePc := rfl
    workerPc := rfl
    stalledPc := rfl
    consumerPc := rfl
    stop := rfl
    pushes := fun d hd => absurd hd List.not_mem_nil }

theorem lapping_succ {n : Nat} (hn : n < 18446744073709551615) {s : LapState} {log : LapLog}
    {u : RingState Party Nat UMem} {ulog : List (RingEvent Party Nat)}
    (hR : Refines tiny s.ring (ringLog log) u ulog) (h : Lapping n s log u) :
    ∃ as s' log' u' ulog',
      (sysMachine tiny plain (sc (segOps tiny)) overlapping).Run Machine.free s log as s' log' ∧
      Refines tiny s'.ring (ringLog log') u' ulog' ∧ Lapping (n + 1) s' log' u' := by
  have hfreed := freed_of_ready h.pop
  have hN : tiny.N = 2 := rfl
  have htail := h.tail
  have hhead := h.head
  have hevent : UInt64.ofNat n < (overlapping .worker).n := by
    rw [UInt64.lt_iff_toNat_lt, UInt64.toNat_ofNat', Nat.mod_eq_of_lt (by omega)]
    exact hn
  obtain ⟨as, s1, log1, ulog1, hrun1, hlog1, hpub, hR1, hworker, hothers, hconsumer, hstop⟩ :=
    hR.deliver (G := Machine.free) plain overlapping tiny_admitted tiny_fits (by decide)
      h.worker (by omega) h.state h.workerPc hevent rfl (by decide) fun _ _ _ => trivial
  have hsame : u.mem.tail = u.mem.head := htail.trans hhead.symm
  have hpub1 : Published ulog1 u.mem.head := hsame ▸ hpub
  have hone : pushes .worker log1 = pushes .worker log ++ [[1]] := by
    rw [pushes, hlog1, reserves_append, List.filterMap_append]
    rfl
  obtain ⟨bs, s2, log2, ulog2, out, hrun2, hlog2, hR2, hproducer, hpc, hstop2⟩ :=
    hR1.consume plain overlapping tiny_admitted tiny_fits (by decide) h.pop
      hpub1 (congrArg (· + 1) hsame) (by rw [hconsumer]; exact h.consumerPc)
        (by rw [hstop]; exact h.stop)
  refine ⟨_, s2, log2, _, _, hrun1.trans hrun2, hR2, ?_⟩
  exact {
    tail := congrArg (· + 1) h.tail
    head := congrArg (· + 1) h.head
    state := h.state
    stale := h.stale
    worker := rfl
    stalled := h.stalled
    pop := rfl
    stalePc := by rw [hproducer, hothers .stale (by decide)]; exact h.stalePc
    workerPc := by rw [hproducer, hworker, ← ofNat_succ]
    stalledPc := by rw [hproducer, hothers .stalled (by decide)]; exact h.stalledPc
    consumerPc := hpc
    stop := by rw [hstop2, hstop, h.stop]
    pushes := fun d hd => by
      have hnone : pushes .worker log2 = pushes .worker log1 := by
        rw [pushes, hlog2, reserves_append, List.filterMap_append]
        exact List.append_nil _
      rw [hnone, hone] at hd
      rcases List.mem_append.mp hd with hd | hd
      · exact h.pushes d hd
      · exact List.mem_singleton.mp hd }

theorem lapping {n : Nat} (hn : n ≤ 18446744073709551615) : ∃ as s log u ulog,
    ScRun tiny plain overlapping Machine.free as s log ∧
    Refines tiny s.ring (ringLog log) u ulog ∧ Lapping n s log u := by
  induction n with
  | zero => exact lapping_zero
  | succ n ih =>
    obtain ⟨as, s, log, u, ulog, ⟨m, m0, hm, hi, hrun⟩, hR, h⟩ := ih (by omega)
    obtain ⟨bs, s', log', u', ulog', hrun', hR', h'⟩ := lapping_succ (by omega) hR h
    exact ⟨_, s', log', u', ulog', ⟨m, m0, hm, hi, hrun.trans hrun'⟩, hR', h'⟩

/-- The tail cell shows 0 again, the stale producer expects that, and the worker's last message
waits in the slot of position 0. -/
structure Overlapped (s : LapState) (log : LapLog) (u : UMem) : Prop where
  tail : u.tail = 2 ^ 64
  head : u.head = lastButOne
  seq : u.seq 0 = lastButOne + 1
  stale : s.ring.push .stale = .cas [9] 0
  stalePc : (s.producer .stale).pc = .push 0
  consumerPc : s.consumer.pc = .stop
  stop : s.stop = false
  pushes : ∀ d ∈ pushes .worker log, d = [1]
  reserved : (reserves (ringLog log))[lastButOne]? = some (.worker, [1], UInt64.ofNat lastButOne)
  popped : (popped log).length = lastButOne

theorem overlapped : ∃ as s log u, ScRun tiny plain overlapping Machine.free as s log ∧
    MemSim tiny s.ring.mem u ∧ Overlapped s log u := by
  have hlast : lastButOne = 18446744073709551614 := by decide
  have hN : tiny.N = 2 := rfl
  obtain ⟨as, s, log, u, ulog, ⟨m, m0, hm, hi, hrun⟩, hR, h⟩ := lapping (n := lastButOne) (by omega)
  have hfreed := freed_of_ready h.pop
  have htail := h.tail
  have hhead := h.head
  obtain ⟨as1, s1, log1, ulog1, hrun1, hlog1, _, hR1, _, hothers, hconsumer, hstop⟩ :=
    hR.deliver (G := Machine.free) plain overlapping tiny_admitted tiny_fits (by decide)
      h.worker (by omega) h.state h.workerPc (by decide) rfl (by decide) fun _ _ _ => trivial
  -- the stalled producer gets past its CAS
  have hroom : u.mem.tail + 1 < freed u + tiny.N := by omega
  have hfree : (u.mem.pushed tiny.N [1]).seq ((u.mem.tail + 1) % tiny.N) = u.mem.tail + 1 :=
    hR1.inv.seq_tail hroom
  have hlen : ([] : List UInt8).length ≤ tiny.S - 20 := by decide
  obtain ⟨m2, hseg2, hR2⟩ := hR1.pushPath tiny_admitted tiny_fits (by decide) (i := .stalled)
    h.stalled hlen (reserve_path hfree)
  have hstalled : s1.producer .stalled = s.producer .stalled := hothers .stalled (by decide)
  obtain ⟨as2, hrun2⟩ := hseg2.encodeRun (G := Machine.free) tiny plain overlapping log1 (i := 0)
    (hstalled ▸ h.stalledPc) (by decide) rfl (by decide) fun _ _ _ => trivial
  have hres : (reserves (ringLog log)).length = lastButOne := by rw [hR.reserves_length, htail]
  have hpops : (pops (ringLog log)).length = lastButOne := by rw [hR.pops_length, hhead]
  have hone : pushes .worker log1 = pushes .worker log ++ [[1]] := by
    rw [pushes, hlog1, reserves_append, List.filterMap_append]
    rfl
  refine ⟨_, _, _, _, ⟨m, m0, hm, hi, (hrun.trans hrun1).trans hrun2⟩, hR2.sim.mem, ?_⟩
  exact {
    tail := by
      show u.mem.tail + 1 + 1 = 2 ^ 64
      omega
    head := hhead
    seq := by
      show Function.update u.mem.seq (u.mem.tail % 2) (u.mem.tail + 1) 0 = lastButOne + 1
      have hslot : u.mem.tail % 2 = 0 := by omega
      rw [hslot, Function.update_self, htail]
    stale := (hR2.sim.push .stale).trans (congrArg (PushPc.map UInt64.ofNat) h.stale)
    stalePc := by
      show (s1.producer .stale).pc = .push 0
      rw [hothers .stale (by decide), h.stalePc]
    consumerPc := by
      show s1.consumer.pc = .stop
      rw [hconsumer, h.consumerPc]
    stop := hstop.trans h.stop
    pushes := fun d hd => by
      rw [pushes_append, hone] at hd
      rcases List.mem_append.mp hd with hd | hd
      · rcases List.mem_append.mp hd with hd | hd
        · exact h.pushes d hd
        · exact List.mem_singleton.mp hd
      · exact absurd hd List.not_mem_nil
    reserved := by
      have hres1 : reserves (ringLog log1) =
          reserves (ringLog log) ++ [(.worker, [1], UInt64.ofNat u.mem.tail)] := by
        rw [hlog1, reserves_append]
        rfl
      rw [ringLog_append, reserves_append, hres1, List.append_assoc,
        List.getElem?_append_right (by omega), hres, Nat.sub_self, htail]
      rfl
    popped := by
      rw [popped_append, List.length_append, popped, List.length_map, hlog1, pops_append,
        List.length_append, hpops]
      rfl }

/-- Who reserved the position that a message was popped from. -/
theorem mem_processed {ι W : Type} [DecidableEq ι] {log : List (SysEvent ι W)} {j : ι} {k : Nat}
    {data out : List UInt8} {pos : W} (hr : (reserves (ringLog log))[k]? = some (j, data, pos))
    (hp : (popped log)[k]? = some out) : out ∈ processed j log := by
  refine List.mem_filterMap.mpr ⟨((j, data, pos), out), ?_, if_pos rfl⟩
  exact List.mem_of_getElem? (List.getElem?_zip_eq_some.mpr ⟨hr, hp⟩)

instance : Fintype Party where
  elems := {.stale, .worker, .stalled}
  complete := fun p => by cases p <;> decide

/-- The stale CAS succeeds, and the consumer pops the stale producer's message from the position
of the worker's last one. -/
theorem overlapping_misdelivers : ∃ as s log,
    ScRun tiny plain overlapping Machine.free as s log ∧ s.stop = false ∧
    (∀ d ∈ pushes .worker log, d = [1]) ∧ [9] ∈ processed .worker log ∧
    ¬ EndToEnd tiny plain overlapping s log := by
  obtain ⟨as, s, log, u, ⟨m, m0, hm, hi, hrun⟩, hmem, h⟩ := overlapped
  obtain ⟨m1, hm1, hseg1⟩ := (stale_path h.tail).sim tiny_admitted tiny_fits s.ring.mem hmem
  obtain ⟨m2, hm2, hseg2⟩ := (overwritten_path h.head h.seq s.consumer.buf).sim tiny_admitted
    tiny_fits m1 hm1
  obtain ⟨as1, hrun1⟩ :=
    hseg1.sysRun (G := Machine.free) tiny plain overlapping (j := .stale) (i := 0) s log h.stale
    rfl h.stalePc fun _ _ _ => trivial
  generalize hs1 : s.setProducer .stale _ _ m1 = s1 at hrun1
  have hconsumer : s1.consumer = s.consumer := by rw [← hs1]; rfl
  have hmem1 : s1.ring.mem = m1 := by rw [← hs1]; rfl
  have hstop : s1.stop = false := by rw [← hs1]; exact h.stop
  rw [← hconsumer, ← hmem1] at hseg2
  obtain ⟨as2, hrun2⟩ := hseg2.topRun tiny plain overlapping
    (log ++ ([.reserve [9] (2 ^ 64)].map (PushEvent.map UInt64.ofNat)).map fun e =>
      .ring (.push .stale e)) (hconsumer ▸ h.consumerPc) hstop
  have hall := (hrun.trans hrun1).trans hrun2
  generalize hlog : log ++ _ ++ _ = log2 at hall
  have hpushes : pushes .worker log2 = pushes .worker log := by
    rw [← hlog, pushes_append, pushes_append, List.append_assoc]
    exact List.append_nil _
  have hreserved : (reserves (ringLog log2))[lastButOne]? =
      some (.worker, [1], UInt64.ofNat lastButOne) := by
    rw [← hlog, ringLog_append, ringLog_append, List.append_assoc]
    exact reserves_getElem_append h.reserved
  have hpopped : (popped log2)[lastButOne]? = some [9] := by
    rw [← hlog, popped_append, popped_append, List.append_assoc,
      List.getElem?_append_right (by rw [h.popped]), h.popped, Nat.sub_self]
    rfl
  have hones : ∀ d ∈ pushes .worker log2, d = [1] := fun d hd => h.pushes d (hpushes ▸ hd)
  have hmem9 := mem_processed hreserved hpopped
  refine ⟨_, _, log2, ⟨m, m0, hm, hi, hall⟩, hstop, hones, hmem9, fun hend => ?_⟩
  obtain ⟨d, hd, hcut⟩ := List.mem_map.mp ((hend.inOrder .worker).subset hmem9)
  rw [hones d hd] at hcut
  exact absurd hcut (by decide)

end ShmMpsc
