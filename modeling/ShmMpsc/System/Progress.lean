import ShmMpsc.Ring.LockFree
import ShmMpsc.System.EndToEnd
import ShmMpsc.System.Flush

/-!
# What every task can always do

In a state that a run reaches no task that is not done is stuck, and every step it takes
brings it nearer to its next deed: a producer to its next CAS on `tail`, the consumer to the
release of a message it can see.
-/

namespace ShmMpsc

set_option autoImplicit false

open RingConfig

variable {ι C W M : Type}

/-! ### Jobs that cannot fail -/

/-- Every event of the job has an encoding that fits a slot, whatever the codec did before. -/
def Sendable (cfg : RingConfig) (codec : Codec C) (job : Job) : Prop :=
  ∀ c i now, codec.Used cfg c → i < job.n → ∃ c' data,
    codec.encode c i now job.name .metric job.payload [] = .ok (c', data) ∧
      data.length ≤ cfg.maxLen.toNat

structure Unfailing (cfg : RingConfig) (codec : Codec C) (p : Producer C W) : Prop where
  used : codec.Used cfg p.codec
  fitting : Fitting cfg.maxLen.toNat p
  running : p.pc.isFailed = false

theorem ProducerPc.not_failed_of_not_over {pc : ProducerPc W} (h : pc.isOver = false) :
    pc.isFailed = false := by
  cases pc <;> first | rfl | cases h

theorem pushCall_of_le {ops : SegOps W M} {data : List UInt8} (h : data.length ≤ ops.maxLen) :
    pushCall ops data = .loadTail data :=
  if_neg (Nat.not_lt.mpr h)

theorem ProducerTrans.unfailing {cfg : RingConfig} {codec : Codec C} {ops : SegOps W M} {job : Job}
    {j : ι} {now : UInt64} {spurious : Bool} {p p' : Producer C W}
    {push push' : PushPc W} {m m' : M} {ev : List (SysEvent ι W)} (hjob : Sendable cfg codec job)
    (hmax : ops.maxLen = cfg.maxLen.toNat) (h : Unfailing cfg codec p)
    (ht : ProducerTrans cfg codec ops job j now spurious p push m p' push' m' ev) :
    Unfailing cfg codec p' := by
  have hfit : Fitting cfg.maxLen.toNat p' := hmax ▸ ht.fitting (hmax ▸ h.fitting)
  cases ht with
  | encodeErr hpc hi he =>
    obtain ⟨_, _, hok, _⟩ := hjob _ _ now h.used hi
    rw [he] at hok
    cases hok
  | encode hpc hi he =>
    obtain ⟨_, _, hok, hlen⟩ := hjob _ _ now h.used hi
    rw [he] at hok
    cases hok
    refine ⟨.encode h.used he, hfit, ?_⟩
    rw [pushCall_of_le (hmax ▸ hlen)]
    rfl
  | push hpc hr =>
    refine ⟨h.used, hfit, ProducerPc.not_failed_of_not_over ?_⟩
    exact afterPush_not_over (pushTrans_of_step hr).not_tooBig
  | retry hpc =>
    refine ⟨h.used, hfit, ?_⟩
    rw [pushCall_of_le (hmax ▸ h.fitting _ (.inr hpc))]
    rfl
  | finish | won | lost | signal | returned => exact ⟨h.used, hfit, rfl⟩

/-! ### One step and the others -/

/-- The tasks of a bench: `producer::run` and its writer task, `serve`, and the consumer. -/
inductive Task (ι : Type) where
  | run (j : ι)
  | writer (j : ι)
  | serve (j : ι)
  | consumer

def Task.Acts : Task ι → SysAction ι → Prop
  | .run j, .producer k _ _ | .writer j, .send k | .serve j, .serve k => k = j
  | .consumer, .consumer => True
  | _, _ => False

theorem Task.Acts.ne_stop {task : Task ι} {a : SysAction ι} (h : task.Acts a) : a ≠ .stop := by
  rintro rfl
  cases task <;> exact h.elim

/-- Only `run` has more than one action: one for every answer of the clock. -/
theorem Task.acts_eq {task : Task ι} (htask : ∀ j, task ≠ .run j) {a b : SysAction ι}
    (ha : task.Acts a) (hb : task.Acts b) : a = b := by
  cases task with
  | run j => exact absurd rfl (htask j)
  | writer | serve | consumer =>
    cases a <;> first
      | exact ha.elim
      | cases b <;> first
        | exact hb.elim
        | rfl
        | (cases ha; cases hb; rfl)

section Frames

variable [DecidableEq ι] [DecidableEq W] {cfg : RingConfig} {codec : Codec C} {mm : MemModel ι W M}
  {jobs : ι → Job} {s s' : System ι C W M} {a : SysAction ι} {ev : List (SysEvent ι W)}

/-- Only its own steps move a producer. -/
theorem producer_kept (hs : sysStep cfg codec mm jobs s a = some (s', ev)) {j : ι}
    (ha : ¬ (Task.run j).Acts a) :
    (s'.producer j).pc = (s.producer j).pc ∧ s'.ring.push j = s.ring.push j := by
  have hrelay {k : ι} {p : Producer C W} (hp : p.pc = (s.producer k).pc) :
      (Function.update s.producer k p j).pc = (s.producer j).pc := by
    by_cases hk : j = k
    · subst hk
      rw [Function.update_self, hp]
    · rw [Function.update_of_ne hk]
  cases sysTrans_of_step hs with
  | @producer k now spurious p push m _ _ =>
    have hk : j ≠ k := fun h => ha h.symm
    simp [System.setProducer, hk]
  | @send k p hp => exact ⟨hrelay hp.pc, rfl⟩
  | @serve k p token calls _ hp => exact ⟨hrelay hp.pc, rfl⟩
  | @drop k _ => exact ⟨hrelay rfl, rfl⟩
  | consumer | commit | stop => exact ⟨rfl, rfl⟩

theorem consumer_kept (hs : sysStep cfg codec mm jobs s a = some (s', ev))
    (ha : ¬ (Task.consumer : Task ι).Acts a) :
    s'.consumer = s.consumer ∧ s'.ring.pop = s.ring.pop := by
  cases sysTrans_of_step hs with
  | consumer => exact absurd trivial ha
  | producer | send | serve | drop | commit | stop => exact ⟨rfl, rfl⟩

/-- Only the writer task touches the queue of a `run` that neither signals nor has failed. -/
theorem queue_kept (hs : sysStep cfg codec mm jobs s a = some (s', ev)) {j : ι}
    (hfail : (s.producer j).pc.isFailed = false) (hsig : (s.producer j).pc.signalling = false)
    (ha : ¬ (Task.writer j).Acts a) : (s'.producer j).queue = (s.producer j).queue := by
  cases sysTrans_of_step hs with
  | @producer k now spurious p push m _ ht =>
    by_cases hk : j = k
    · subst hk
      simp only [System.setProducer, Function.update_self]
      cases ht with
      | signal hpc =>
        rw [hpc] at hsig
        cases hsig
      | _ => rfl
    · simp [System.setProducer, hk]
  | @send k p hp =>
    have hk : j ≠ k := fun h => ha h.symm
    simp [hk]
  | @serve k p token calls _ hp =>
    by_cases hk : j = k
    · subst hk
      simpa using hp.moves.2
    · simp [hk]
  | @drop k hk =>
    have hne : j ≠ k := by
      rintro rfl
      rw [hfail] at hk
      cases hk
    simp [hne]
  | consumer | commit | stop => rfl

/-- A step of `run` inside `push` is that step of the ring. -/
theorem ringStep_of_inPush (h : InCalls s) {j : ι} (hready : (s.ring.push j).ready = false)
    {now : UInt64} {spurious : Bool}
    (hs : sysStep cfg codec mm jobs s (.producer j now spurious) = some (s', ev)) :
    ringStep (mm.producer j) s.ring (.push j spurious) = some (s'.ring, ringLog ev) := by
  have hcall := h.push j
  rw [hready] at hcall
  cases sysTrans_of_step hs with | producer ht
  cases ht with
  | push hpc hr => simp [ringStep, hr, System.setProducer]
  | encodeErr hpc | encode hpc | finish hpc | retry hpc | won hpc | lost hpc | signal hpc
  | returned hpc =>
    rw [hpc] at hcall
    cases hcall

omit [DecidableEq W] in
theorem pushCall_writing (ops : SegOps W M) (data : List UInt8) :
    (pushCall ops data).writing = none := by
  unfold pushCall
  split <;> rfl

theorem writing_step (hs : sysStep cfg codec mm jobs s a = some (s', ev)) {j : ι}
    (hw : (s.ring.push j).writing = none) :
    (s'.ring.push j).writing = none ∨ (reserves (ringLog ev)).length = 1 := by
  by_cases ha : (Task.run j).Acts a
  · cases sysTrans_of_step hs with
    | @producer k now spurious p push m _ ht =>
      obtain rfl : k = j := ha
      simp only [System.setProducer, Function.update_self]
      cases ht with
      | push hpc hr =>
        rw [ringLog_ring]
        have htr := pushTrans_of_step hr
        generalize s.ring.push k = pc at hw htr
        cases htr with
        | won => exact .inr rfl
        | writeLen | writePayload => cases hw
        | _ => exact .inl rfl
      | encode | retry => exact .inl (pushCall_writing _ _)
      | _ => exact .inl hw
    | send | serve | drop | consumer | commit | stop => exact ha.elim
  · rw [(producer_kept hs ha).2]
    exact .inl hw

end Frames

/-- The loop of `run` is through. -/
def ProducerPc.through : ProducerPc W → Bool
  | .shutdown | .returned => true
  | _ => false

section Ends

variable [DecidableEq ι] [DecidableEq W] {cfg : RingConfig} {codec : Codec C} {mm : MemModel ι W M}
  {jobs : ι → Job} {s s' : System ι C W M} {a : SysAction ι} {ev : List (SysEvent ι W)} {j : ι}

theorem return_step (hs : sysStep cfg codec mm jobs s a = some (s', ev)) (ha : (Task.run j).Acts a)
    (hpc : (s.producer j).pc.through = true) : (s'.producer j).pc = .returned := by
  cases sysTrans_of_step hs with
  | @producer k now spurious p push m _ ht =>
    obtain rfl : k = j := ha
    simp only [System.setProducer, Function.update_self]
    cases ht with
    | returned => rfl
    | encodeErr hp | encode hp | finish hp | push hp | retry hp | won hp | lost hp | signal hp =>
      rw [hp] at hpc
      cases hpc
  | send | serve | drop | consumer | commit | stop => exact ha.elim

theorem through_step (hs : sysStep cfg codec mm jobs s a = some (s', ev))
    (hpc : (s.producer j).pc.through = true) : (s'.producer j).pc.through = true := by
  by_cases ha : (Task.run j).Acts a
  · rw [return_step hs ha hpc]
    rfl
  · rw [(producer_kept hs ha).1]
    exact hpc

theorem returned_step (hs : sysStep cfg codec mm jobs s a = some (s', ev))
    (hpc : (s.producer j).pc = .returned) : (s'.producer j).pc = .returned := by
  by_cases ha : (Task.run j).Acts a
  · exact return_step hs ha (by rw [hpc]; rfl)
  · rw [(producer_kept hs ha).1, hpc]

omit [DecidableEq W] in
theorem ProducerPc.through_not {pc : ProducerPc W} (h : pc.through = true) :
    pc.isFailed = false ∧ pc.signalling = false := by
  cases pc <;> first | exact ⟨rfl, rfl⟩ | cases h

theorem queue_sent (hs : sysStep cfg codec mm jobs s a = some (s', ev))
    (ha : (Task.writer j).Acts a) :
    (s'.producer j).queue.length < (s.producer j).queue.length := by
  cases sysTrans_of_step hs with
  | @send k p hp =>
    obtain rfl : k = j := ha
    obtain ⟨hq⟩ := hp
    simp [hq]
  | producer | serve | drop | consumer | commit | stop => exact ha.elim

theorem socket_kept (hs : sysStep cfg codec mm jobs s a = some (s', ev))
    (hq : (s.producer j).queue = []) (ha : ¬ (Task.serve j).Acts a) :
    (s'.producer j).socket = (s.producer j).socket ∧
      (s'.producer j).counted = (s.producer j).counted := by
  cases sysTrans_of_step hs with
  | @producer k now spurious p push m _ ht =>
    by_cases hk : j = k
    · subst hk
      simp only [System.setProducer, Function.update_self]
      cases ht <;> exact ⟨rfl, rfl⟩
    · simp [System.setProducer, hk]
  | @send k p hp =>
    have hk : j ≠ k := by
      rintro rfl
      exact hp.queue_ne_nil hq
    simp [hk]
  | @serve k p token calls _ hp =>
    have hk : j ≠ k := fun h => ha h.symm
    simp [hk]
  | @drop k _ =>
    by_cases hk : j = k
    · subst hk
      simp
    · simp [hk]
  | consumer | commit | stop => exact ⟨rfl, rfl⟩

/-- The steps of `serve` on what is in the socket. -/
def Producer.unserved (p : Producer C W) : Nat := 2 * p.socket.length - p.counted.toNat

theorem unserved_lt (hs : sysStep cfg codec mm jobs s a = some (s', ev))
    (ha : (Task.serve j).Acts a) :
    (s'.producer j).unserved < (s.producer j).unserved := by
  cases sysTrans_of_step hs with
  | @serve k p token calls _ hp =>
    obtain rfl : k = j := ha
    simp only [Function.update_self, Producer.unserved]
    cases hp with
    | count hsocket hc | unpark hsocket hc =>
      simp only [hsocket, hc, List.length_cons, Bool.toNat_true, Bool.toNat_false]
      omega
  | producer | send | drop | consumer | commit | stop => exact ha.elim

end Ends

/-! ### Sound states -/

/-- `stop` is stored when every event has been popped. -/
def stoppedLate [Fintype ι] (jobs : ι → Job) :
    Machine.Guard (System ι C W M) (SysAction ι) (SysEvent ι W) := fun _ log a =>
  a = .stop → ∑ j, (jobs j).n.toNat ≤ (popped log).length

section Sound

variable [Fintype ι] [DecidableEq ι] {cfg : RingConfig} {codec : Codec C} {jobs : ι → Job}
  {s s' : System ι C UInt64 Memory} {log ev : List (SysEvent ι UInt64)} {as : List (SysAction ι)}

/-- What holds in every run of jobs that cannot fail. -/
structure Sound (cfg : RingConfig) (codec : Codec C) (jobs : ι → Job)
    (s : System ι C UInt64 Memory) (log : List (SysEvent ι UInt64)) : Prop where
  loops : LoopsOk cfg codec jobs s log
  ring : ∃ u ulog, Refines cfg s.ring (ringLog log) u ulog
  notes : NotifyInv (segOps cfg) s log
  unfailing : ∀ j, Unfailing cfg codec (s.producer j)
  stopped : s.stop = true → ∑ j, (jobs j).n.toNat ≤ (popped log).length
  halted : s.consumer.pc = .returned → s.stop = true

omit [Fintype ι] in
theorem unfailing_step (hsend : ∀ j, Sendable cfg codec (jobs j)) {a : SysAction ι}
    (h : ∀ j, Unfailing cfg codec (s.producer j))
    (hs : sysStep cfg codec (sc (segOps cfg)) jobs s a = some (s', ev)) (j : ι) :
    Unfailing cfg codec (s'.producer j) := by
  have hupdate {k : ι} {p : Producer C UInt64} (hp : Unfailing cfg codec p) :
      Unfailing cfg codec (Function.update s.producer k p j) := by
    by_cases hk : j = k
    · subst hk
      rwa [Function.update_self]
    · rw [Function.update_of_ne hk]
      exact h j
  cases sysTrans_of_step hs with
  | @producer k now spurious p push m _ ht => exact hupdate (ht.unfailing (hsend k) rfl (h k))
  | @send k p hp =>
    refine hupdate ⟨?_, hp.fitting (h k).fitting, hp.pc ▸ (h k).running⟩
    cases hp
    exact (h k).used
  | @serve k p token calls _ hp =>
    refine hupdate ⟨?_, hp.fitting (h k).fitting, hp.pc ▸ (h k).running⟩
    cases hp <;> exact (h k).used
  | @drop k _ => exact hupdate ⟨(h k).used, (h k).fitting, (h k).running⟩
  | consumer | commit | stop => exact h j

omit [Fintype ι] in
theorem halted_step {a : SysAction ι} (h : s.consumer.pc = .returned → s.stop = true)
    (hs : sysStep cfg codec (sc (segOps cfg)) jobs s a = some (s', ev))
    (hret : s'.consumer.pc = .returned) : s'.stop = true := by
  cases sysTrans_of_step hs with
  | @consumer c pop m _ ht =>
    have hpop {hit miss : ConsumerPc} (heq : (afterPop hit miss s.consumer pop).pc = .returned)
        (hhit : hit ≠ .returned) (hmiss : miss ≠ .returned) : s.stop = true := by
      rcases afterPop_pc hit miss s.consumer pop with hpc | hpc | hpc
      · exact absurd (hpc ▸ heq) hhit
      · exact absurd (hpc ▸ heq) hmiss
      · exact h (hpc ▸ heq)
    cases ht with
    | halt _ hstop => exact hstop
    | drain => exact hpop hret nofun (by split <;> simp)
    | recheck => exact hpop hret nofun nofun
    | _ => cases hret
  | producer | send | serve | drop | commit => exact h hret
  | stop => rfl

theorem ScRun.sound (hN : 2 ≤ cfg.N) (hsum : ∑ j, (jobs j).n.toNat < 2 ^ 63 - cfg.N)
    (hsend : ∀ j, Sendable cfg codec (jobs j))
    (h : ScRun cfg codec jobs (stoppedLate jobs) as s log) : Sound cfg codec jobs s log := by
  have hfree : ScRun cfg codec jobs Machine.free as s log := by
    obtain ⟨m, m', hm, hi, hrun⟩ := h
    exact ⟨m, m', hm, hi, hrun.mono fun _ _ _ _ => trivial⟩
  obtain ⟨bs, hinit⟩ := (hfree.windowed_of_total hsum).initRun
  obtain ⟨m, m', _, _, hrun⟩ := h
  have hI : (∀ j, Unfailing cfg codec (s.producer j)) ∧
      (s.stop = true → ∑ j, (jobs j).n.toNat ≤ (popped log).length) ∧
      (s.consumer.pc = .returned → s.stop = true) := by
    refine hrun.invariant (I := fun s log => (∀ j, Unfailing cfg codec (s.producer j)) ∧
      (s.stop = true → ∑ j, (jobs j).n.toNat ≤ (popped log).length) ∧
      (s.consumer.pc = .returned → s.stop = true)) ⟨fun j => ?_, fun h => (by cases h),
        fun h => (by cases h)⟩ ?_
    · exact ⟨.new, fun i hi => (by rcases hi with hi | hi <;> cases hi), rfl⟩
    · rintro s log a s' ev ⟨hun, hstop, hhalt⟩ hg hs
      refine ⟨unfailing_step hsend hun hs, ?_, halted_step hhalt hs⟩
      have hkeep (hsame : s'.stop = s.stop) (h' : s'.stop = true) :
          ∑ j, (jobs j).n.toNat ≤ (popped (log ++ ev)).length := by
        rw [popped_append, List.length_append]
        exact (hstop (hsame ▸ h')).trans (Nat.le_add_right _ _)
      cases sysTrans_of_step hs with
      | stop =>
        intro _
        rw [List.append_nil]
        exact hg rfl
      | producer | consumer | send | serve | drop | commit => exact hkeep rfl
  exact ⟨hfree.loopsOk, hinit.refines hN, hfree.notifyInv, hI.1, hI.2.1, hI.2.2⟩

omit [Fintype ι] in
/-- In its loop `run` can always go on. -/
theorem Refines.loop_isSome (hg : cfg.Admitted) (hf : cfg.Fits) (hN : 2 ≤ cfg.N)
    {r : RingState ι UInt64 Memory} {rlog : List (RingEvent ι UInt64)} {u : RingState ι Nat UMem}
    {ulog : List (RingEvent ι Nat)} (h : Refines cfg r rlog u ulog) {j : ι} {spurious : Bool}
    (hw : windowed (2 ^ 63 - cfg.N) r rlog (.push j spurious)) {job : Job}
    {p : Producer C UInt64} (hcalls : (r.push j).ready = !p.pc.inPush)
    (hpc : p.pc.awaits = false) (now : UInt64) :
    (producerStep cfg codec ((sc (segOps cfg)).producer j) job j now spurious p (r.push j)
      r.mem).isSome := by
  unfold producerStep
  cases heq : p.pc with
  | encode i =>
    dsimp only
    split
    · split <;> rfl
    · rfl
  | push i =>
    rw [heq] at hcalls
    have hsome := h.push_isSome hg hf hN hw hcalls
    simpa [ringStep, sc] using hsome
  | casState i seq =>
    obtain ⟨m, hstore, _⟩ := h.sim.mem.storeState hf STATE_RUNNING
    have hload : r.mem.load64 128 = some u.mem.state := h.sim.mem.state
    have hstore : r.mem.store64 128 STATE_RUNNING = some m := hstore
    by_cases hparked : u.mem.state = STATE_PARKED
    · simp [sc, segOps, hload, hstore, hparked]
    · simp [sc, segOps, hload, hparked]
  | signal i seq => rfl
  | sleep | shutdown | returned | failed =>
    rw [heq] at hpc
    cases hpc

namespace Sound

theorem windowed (h : Sound cfg codec jobs s log) (hsum : ∑ j, (jobs j).n.toNat < 2 ^ 63 - cfg.N)
    (a : RingAction ι) : ShmMpsc.windowed (2 ^ 63 - cfg.N) s.ring (ringLog log) a :=
  fun i _ _ _ => Nat.lt_of_le_of_lt ((reservedSince_le i _).trans h.loops.reserves_length_le) hsum

theorem storeState_isSome (hf : cfg.Fits) (h : Sound cfg codec jobs s log) (v : UInt64) :
    ∃ m, (segOps cfg).storeState v s.ring.mem = some m := by
  obtain ⟨u, _, hR⟩ := h.ring
  obtain ⟨m, hm, _⟩ := hR.sim.mem.storeState hf v
  exact ⟨m, hm⟩

variable (hg : cfg.Admitted) (hf : cfg.Fits) (hN : 2 ≤ cfg.N)
  (hsum : ∑ j, (jobs j).n.toNat < 2 ^ 63 - cfg.N)
include hg hf hN hsum

/-- A producer waits for nothing but its writer task, in `shutdown`. -/
theorem producer_open (h : Sound cfg codec jobs s log) {j : ι}
    (hret : (s.producer j).pc ≠ .returned)
    (hq : (s.producer j).pc = .shutdown → (s.producer j).queue = []) (now : UInt64)
    (spurious : Bool) :
    (sysStep cfg codec (sc (segOps cfg)) jobs s (.producer j now spurious)).isSome := by
  simp only [sysStep, Option.isSome_map]
  have hrun := (h.unfailing j).running
  cases hpc : (s.producer j).pc with
  | encode | push | casState | signal =>
    obtain ⟨u, ulog, hR⟩ := h.ring
    exact hR.loop_isSome hg hf hN (h.windowed hsum (.push j spurious)) (h.loops.calls.push j)
      (by rw [hpc]; rfl) now
  | sleep i => simp [producerStep, hpc]
  | shutdown => simp [producerStep, hpc, hq hpc]
  | returned => exact absurd hpc hret
  | failed e =>
    rw [hpc] at hrun
    cases hrun

/-- Whether a producer can take a step is no matter of the clock or of luck. -/
theorem producer_alike (h : Sound cfg codec jobs s log) {j : ι} {now now' : UInt64}
    {spurious spurious' : Bool}
    (hnone : sysStep cfg codec (sc (segOps cfg)) jobs s (.producer j now spurious) = none) :
    sysStep cfg codec (sc (segOps cfg)) jobs s (.producer j now' spurious') = none := by
  by_contra hne
  obtain ⟨⟨s', ev⟩, hs⟩ := Option.ne_none_iff_exists'.mp hne
  have hsome := h.producer_open hg hf hN hsum (j := j) (fun hpc => ?_) (fun hpc => ?_) now spurious
  · rw [hnone] at hsome
    cases hsome
  · cases sysTrans_of_step hs with | producer ht
    cases ht with
    | encodeErr hp | encode hp | finish hp | push hp | retry hp | won hp | lost hp | signal hp
    | returned hp =>
      rw [hp] at hpc
      cases hpc
  · cases sysTrans_of_step hs with | producer ht
    cases ht with
    | returned _ hq => exact hq
    | encodeErr hp | encode hp | finish hp | push hp | retry hp | won hp | lost hp | signal hp =>
      rw [hp] at hpc
      cases hpc

theorem push_open (h : Sound cfg codec jobs s log) {j : ι} (hready : (s.ring.push j).ready = false)
    (now : UInt64) (spurious : Bool) :
    (sysStep cfg codec (sc (segOps cfg)) jobs s (.producer j now spurious)).isSome := by
  have hcall := h.loops.calls.push j
  rw [hready] at hcall
  refine h.producer_open hg hf hN hsum (fun hpc => ?_) (fun hpc => ?_) now spurious
  · rw [hpc] at hcall
    cases hcall
  · rw [hpc] at hcall
    cases hcall

omit hsum in
/-- The consumer waits for nobody. -/
theorem consumer_open (h : Sound cfg codec jobs s log) (hret : s.consumer.pc ≠ .returned) :
    (sysStep cfg codec (sc (segOps cfg)) jobs s .consumer).isSome := by
  simp only [sysStep, Option.isSome_map]
  have hready := h.loops.calls.pop
  obtain ⟨u, ulog, hR⟩ := h.ring
  have hpop (hr : s.ring.pop.ready = false) :
      (popStep (sc (ι := ι) (segOps cfg)).consumer s.ring.pop s.ring.mem).isSome := by
    have hsome := hR.pop_isSome hg hf hN hr
    simpa [ringStep, sc] using hsome
  have hstore (v : UInt64) :
      ∃ m, (sc (ι := ι) (segOps cfg)).consumer.storeState v s.ring.mem = some m :=
    h.storeState_isSome hf v
  unfold consumerStep
  cases hpc : s.consumer.pc with
  | stop =>
    dsimp only
    split <;> rfl
  | drain drained =>
    rw [hpc] at hready
    simpa using hpop hready
  | storeParked =>
    obtain ⟨m, hm⟩ := hstore STATE_PARKED
    simp [hm]
  | recheck =>
    rw [hpc] at hready
    simpa using hpop hready
  | storeRunningHit =>
    obtain ⟨m, hm⟩ := hstore STATE_RUNNING
    simp [hm]
  | storeRunning =>
    obtain ⟨m, hm⟩ := hstore STATE_RUNNING
    simp [hm]
  | decode site => cases site <;> rfl
  | addEvents site => rfl
  | addWire site => rfl
  | park => rfl
  | returned => exact absurd hpc hret

end Sound

end Sound

/-! ### What a step brings nearer -/

/-- The steps of the consumer up to the end of its next pop, with a message to pop. -/
def ConsumerPc.left (pop : PopPc W) : ConsumerPc → Nat
  | .drain _ | .recheck => pop.left
  | .stop | .storeParked => 7
  | .storeRunning | .decode _ => 8
  | .park | .addWire _ => 9
  | .addEvents _ => 10
  | .storeRunningHit => 11
  | .returned => 0

/-- The steps of a producer up to its next CAS on `tail`, with room in the ring; `stale` is how far
the tail has moved since its tail load. -/
def ProducerPc.left (stale : Nat) (push : PushPc W) : ProducerPc W → Nat
  | .push _ => stepsLeft stale push
  | .sleep _ => 7
  | .encode _ => 9
  | .signal _ _ => 10
  | .casState _ _ => 11
  | .shutdown | .returned | .failed _ => 0

section Ranks

variable {ops : SegOps W M} {m m' : M}

/-- A `try_pop` that finds its slot published gets on with the pop. -/
theorem PopTrans.nearer {pop pop' : PopPc W} {pev : List (PopEvent W)}
    (h : PopTrans ops pop m pop' m' pev) (hsees : ∀ out head seq, pop = .loadSeq out head →
      ops.loadSeq head m = some seq → seq = ops.next head) :
    ShmMpsc.popped (pev.map fun e => (.ring (.pop e) : SysEvent ι W)) ≠ [] ∨
      (∀ r out, pop' ≠ .done r out) ∧ pop'.left < pop.left := by
  cases h with
  | empty hq hne => exact absurd (hsees _ _ _ rfl hq) hne
  | storeHead => exact .inl (List.cons_ne_nil _ _)
  | loadHead | ready | readLen | readPayload | release => exact .inr ⟨nofun, by simp [PopPc.left]⟩

/-- Only a pop gives the consumer something to account for. -/
theorem ConsumerTrans.accounting {codec : Codec C} {stop : Bool} {c c' : Consumer C}
    {pop pop' : PopPc W} {ev : List (SysEvent ι W)}
    (h : ConsumerTrans ι codec ops stop c pop m c' pop' m' ev) (hc : c.pc.accounting = false) :
    ShmMpsc.popped ev ≠ [] ∨ c'.pc.accounting = false := by
  have hpop {hit miss : ConsumerPc} {pev : List (PopEvent W)} (hr : PopTrans ops pop m pop' m' pev)
      (hmiss : miss.accounting = false) :
      ShmMpsc.popped (pev.map fun e => (.ring (.pop e) : SysEvent ι W)) ≠ [] ∨
        (afterPop hit miss c pop').pc.accounting = false := by
    rcases hr.popped (ι := ι) with ⟨head, out, rfl, hp⟩ | ⟨hne, hp⟩
    · exact .inl (by simp [hp])
    · unfold afterPop
      split
      · exact absurd rfl (hne _ _)
      · exact .inr hmiss
      · exact .inr hc
  cases h with
  | drain _ hr => exact hpop hr (by split <;> rfl)
  | recheck _ hr => exact hpop hr rfl
  | storeRunningHit hpc | addEvents hpc | addWire hpc =>
    rw [hpc] at hc
    cases hc
  | halt | top | storeParked | decodeDrain | decodeRecheck | unparked | storeRunning =>
    exact .inr rfl

theorem afterPop_of_not_done {pop : PopPc W} (h : ∀ r out, pop ≠ .done r out)
    (hit miss : ConsumerPc) (c : Consumer C) : afterPop hit miss c pop = c := by
  unfold afterPop
  split
  · exact absurd rfl (h _ _)
  · exact absurd rfl (h _ _)
  · rfl

theorem ConsumerTrans.nearer {codec : Codec C} {stop : Bool} {c c' : Consumer C}
    {pop pop' : PopPc W} {ev : List (SysEvent ι W)}
    (h : ConsumerTrans ι codec ops stop c pop m c' pop' m' ev)
    (hsees : ∀ out head seq, pop = .loadSeq out head → ops.loadSeq head m = some seq →
      seq = ops.next head) : ShmMpsc.popped ev ≠ [] ∨ c'.pc.left pop' < c.pc.left pop := by
  cases h with
  | drain hpc hr =>
    rcases hr.nearer (ι := ι) hsees with hp | ⟨hnot, hlt⟩
    · exact .inl hp
    · rw [afterPop_of_not_done hnot, hpc]
      exact .inr hlt
  | recheck hpc hr =>
    rcases hr.nearer (ι := ι) hsees with hp | ⟨hnot, hlt⟩
    · exact .inl hp
    · rw [afterPop_of_not_done hnot, hpc]
      exact .inr hlt
  | halt hpc | top hpc | storeParked hpc | storeRunningHit hpc | addEvents hpc | addWire hpc
  | decodeDrain hpc | decodeRecheck hpc | unparked hpc | storeRunning hpc =>
    rw [hpc]
    exact .inr (by simp [ConsumerPc.left, PopPc.left])

/-- Only the CAS of `push` may fail for no reason. -/
theorem PushTrans.honest {spurious : Bool} {push push' : PushPc W} {pev : List (PushEvent W)}
    (h : PushTrans ops spurious push m push' m' pev) (hcas : ∀ data pos, push ≠ .cas data pos) :
    PushTrans ops false push m push' m' pev := by
  cases h with
  | loadTail hp => exact .loadTail hp
  | free hq hd => exact .free hq hd
  | full hq hd => exact .full hq hd
  | stale hq hd => exact .stale hq hd
  | spurious | won | lost => exact absurd rfl (hcas _ _)
  | writeLen hm => exact .writeLen hm
  | writePayload hm => exact .writePayload hm
  | publish hm => exact .publish hm

end Ranks

section Drained

variable [Fintype ι] [DecidableEq ι] {cfg : RingConfig} {codec : Codec C} {jobs : ι → Job}
  {s s' : System ι C UInt64 Memory} {log ev : List (SysEvent ι UInt64)}

/-- The consumer has popped all that was reserved. -/
def Drained (log : List (SysEvent ι UInt64)) : Prop :=
  (popped log).length = (reserves (ringLog log)).length

omit [Fintype ι] in
theorem Drained.head_eq_tail (hd : Drained log) {u : RingState ι Nat UMem}
    {ulog : List (RingEvent ι Nat)} (h : Refines cfg s.ring (ringLog log) u ulog) :
    u.mem.head = u.mem.tail := by
  rw [← h.pops_length, ← h.reserves_length, ← hd, popped, List.length_map]

omit [Fintype ι] in
theorem Drained.not_writing (hd : Drained log) {u : RingState ι Nat UMem}
    {ulog : List (RingEvent ι Nat)} (h : Refines cfg s.ring (ringLog log) u ulog) (j : ι) :
    (s.ring.push j).writing = none := by
  have hhead := hd.head_eq_tail h
  have hfreed : u.mem.head ≤ freed u := head_le_freed u
  rw [h.sim.push j, PushPc.writing_map, Option.map_eq_none_iff]
  by_contra hne
  obtain ⟨⟨data, pos⟩, hw⟩ := Option.ne_none_iff_exists'.mp hne
  obtain ⟨hle, hlt, _⟩ := h.inv.of_writing hw
  omega

omit [Fintype ι] in
theorem Drained.not_full (hg : cfg.Admitted) (hf : cfg.Fits) (hN : 2 ≤ cfg.N) (hd : Drained log)
    {u : RingState ι Nat UMem} {ulog : List (RingEvent ι Nat)}
    (h : Refines cfg s.ring (ringLog log) u ulog) {j : ι}
    (hw : windowed (2 ^ 63 - cfg.N) s.ring (ringLog log) (.push j false))
    {r : RingState ι UInt64 Memory} {rev : List (RingEvent ι UInt64)}
    (hs : ringStep (segOps cfg) s.ring (.push j false) = some (r, rev)) :
    r.push j ≠ .done (.error .full) := by
  intro hfull
  obtain ⟨u', pev, ht, hR, -⟩ := h.pushTrans hg hf hN hw hs
  have hok := h.inv.push_ok j
  have hhead := hd.head_eq_tail h
  have hfreed : u.mem.head ≤ freed u := head_le_freed u
  rw [hR.sim.push j] at hfull
  generalize u.push j = pc at ht hok
  generalize u'.push j = pc' at ht hfull
  generalize u'.mem = m' at ht
  cases ht with
  | @full data pos _ seq hl hd =>
    obtain rfl : u.mem.seq (pos % cfg.N) = seq := Option.some.inj hl
    have hd : (u.mem.seq (pos % cfg.N) : Int) - pos < 0 := hd
    have hok : pos + reservedSince j ulog = u.mem.tail := hok
    have hall := h.inv.tail_of_full hg.pos (show pos ≤ u.mem.tail by omega) (by omega)
    omega
  | loadTail | free | stale | spurious | won | lost | writeLen | writePayload | publish =>
    cases hfull

/-- With all popped, a producer that is not at its CAS comes nearer to it, or is done. -/
theorem Sound.producer_nearer (hg : cfg.Admitted) (hf : cfg.Fits) (hN : 2 ≤ cfg.N)
    (hsum : ∑ j, (jobs j).n.toNat < 2 ^ 63 - cfg.N) (h : Sound cfg codec jobs s log)
    (h' : Sound cfg codec jobs s' (log ++ ev)) (hd : Drained log) {j : ι} {now : UInt64}
    {spurious : Bool} (hcas : ∀ data pos, s.ring.push j ≠ .cas data pos)
    (hpc : (s.producer j).pc ≠ .shutdown)
    (hs : sysStep cfg codec (sc (segOps cfg)) jobs s (.producer j now spurious) = some (s', ev)) :
    (s'.producer j).pc = .shutdown ∨
      (s'.producer j).pc.left (reservedSince j (ringLog (log ++ ev))) (s'.ring.push j) <
        (s.producer j).pc.left (reservedSince j (ringLog log)) (s.ring.push j) := by
  obtain ⟨u, ulog, hR⟩ := h.ring
  have hrun' := (h'.unfailing j).running
  have hidle := hd.not_writing hR j
  cases sysTrans_of_step hs with | @producer _ _ _ p push m _ ht
  simp only [System.setProducer, Function.update_self] at hrun' ⊢
  cases ht with
  | encodeErr => cases hrun'
  | @encode i c data hpc =>
    rcases pushCall_fits (segOps cfg) data with hfits | hbig
    · have hcall : pushCall ((sc (segOps cfg)).producer j) data = .loadTail data :=
        pushCall_of_le hfits
      rw [hpc, hcall]
      exact .inr (by simp [ProducerPc.left, afterPush, stepsLeft])
    · have hcall : pushCall ((sc (segOps cfg)).producer j) data = .done (.error .tooBig) := hbig
      rw [hcall] at hrun'
      cases hrun'
  | finish => exact .inl rfl
  | @push i _ _ pev hpc hr =>
    -- neither at its CAS nor writing, it is on its way to a CAS
    have htr := (pushTrans_of_step hr).honest hcas
    have hw := h.windowed hsum (.push j false)
    have hring : ringStep (segOps cfg) s.ring (.push j false) =
        some ({ s.ring with mem := m, push := Function.update s.ring.push j push },
          pev.map (.push j)) := by
      have hstep : pushStep (segOps cfg) false (s.ring.push j) s.ring.mem = some (push, m, pev) :=
        htr.step
      simp [ringStep, hstep]
    have hleft := hR.stepsLeft_step hg hf hN hw hring
    have hfull := hd.not_full hg hf hN hR hw hring
    simp only [Function.update_self] at hleft hfull
    rw [ringLog_append, ringLog_ring, hpc]
    cases hpush : s.ring.push j with
    | loadTail =>
      rw [hpush] at htr hleft
      cases htr
      refine .inr ?_
      simp only [ProducerPc.left, afterPush, Bool.toNat_false] at hleft ⊢
      omega
    | loadSeq =>
      rw [hpush] at htr hleft
      cases htr with
      | full => exact absurd rfl hfull
      | free | stale =>
        refine .inr ?_
        simp only [ProducerPc.left, afterPush, Bool.toNat_false] at hleft ⊢
        omega
    | cas => exact absurd hpush (hcas _ _)
    | writeLen | writePayload | publish =>
      rw [hpush] at hidle
      cases hidle
    | idle | done =>
      rw [hpush] at htr
      cases htr
  | @retry i hpc =>
    have hcall : pushCall ((sc (segOps cfg)).producer j) (s.producer j).scratch =
        .loadTail (s.producer j).scratch := pushCall_of_le ((h.unfailing j).fitting i (.inr hpc))
    rw [hpc, hcall]
    exact .inr (by simp [ProducerPc.left, afterPush, stepsLeft])
  | won hpc | lost hpc | signal hpc =>
    rw [hpc]
    exact .inr (by simp [ProducerPc.left])
  | returned hend => exact absurd hend hpc

end Drained

end ShmMpsc
