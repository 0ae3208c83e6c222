import ShmMpsc.System.Bench

/-!
# The bench comes to its report

In runs without end, in which `run_inner` is one more task that is not left out for ever. The
system within finishes; from then on nothing keeps the bench from its report, nor the consumer
from the end of its loop.
-/

namespace ShmMpsc

set_option autoImplicit false

open RingConfig

/-! ### The consumer halts -/

/-- The steps of a consumer with nothing to account for up to its return, with `stop` stored and
nothing to pop. -/
def ConsumerPc.toHalt {W : Type} (pop : PopPc W) : ConsumerPc → Nat
  | .drain _ => 12 + pop.left
  | .storeParked => 11
  | .recheck => 4 + pop.left
  | .park => 3
  | .storeRunning => 2
  | .stop => 1
  | .storeRunningHit | .addEvents _ | .addWire _ | .decode _ | .returned => 0

section Halt

variable {ι C W M : Type} {ops : SegOps W M} {m m' : M}

theorem PopTrans.toHalt {pop pop' : PopPc W} {pev : List (PopEvent W)}
    (h : PopTrans ops pop m pop' m' pev) (c : Consumer C) (hit : ConsumerPc) {miss : ConsumerPc}
    (wait : Nat) (hpc : ∀ pop : PopPc W, c.pc.toHalt pop = wait + pop.left)
    (hmiss : ∀ pop : PopPc W, miss.toHalt pop < wait) :
    ShmMpsc.popped (pev.map fun e => (.ring (.pop e) : SysEvent ι W)) ≠ [] ∨
      (ShmMpsc.afterPop hit miss c pop').pc.toHalt pop' < c.pc.toHalt pop := by
  rw [hpc]
  cases h with
  | @empty out =>
    have hlt := hmiss (.done none out)
    exact .inr (Nat.lt_of_lt_of_le hlt (Nat.le_add_right _ _))
  | storeHead => exact .inl (List.cons_ne_nil _ _)
  | loadHead | ready | readLen | readPayload | release =>
    rw [afterPop_of_not_done, hpc]
    · exact .inr (by simp [PopPc.left])
    · intro _ _ h
      cases h

theorem ConsumerTrans.toHalt {codec : Codec C} {c c' : Consumer C} {pop pop' : PopPc W}
    {ev : List (SysEvent ι W)} (h : ConsumerTrans ι codec ops true c pop m c' pop' m' ev)
    (hacc : c.pc.accounting = false) :
    ShmMpsc.popped ev ≠ [] ∨ c'.pc.toHalt pop' < c.pc.toHalt pop := by
  cases h with
  | top _ hrun => cases hrun
  | drain hpc hr =>
    refine hr.toHalt c _ 12 (fun pop => by rw [hpc]; rfl) fun pop => ?_
    split <;> simp [ConsumerPc.toHalt]
  | recheck hpc hr =>
    exact hr.toHalt c _ 4 (fun pop => by rw [hpc]; rfl) fun pop => by simp [ConsumerPc.toHalt]
  | storeRunningHit hpc | addEvents hpc | addWire hpc | decodeDrain hpc | decodeRecheck hpc =>
    rw [hpc] at hacc
    cases hacc
  | halt hpc | storeParked hpc | unparked hpc | storeRunning hpc =>
    rw [hpc]
    exact .inr (by simp [ConsumerPc.toHalt, PopPc.left])

end Halt

section Halts

variable {ι C : Type} [Fintype ι] [DecidableEq ι] {cfg : RingConfig} {codec : Codec C}
  {jobs : ι → Job}

theorem Finished.popped_nil {s s' : System ι C UInt64 Memory} {log ev : List (SysEvent ι UInt64)}
    (h : Finished cfg codec jobs s log) (h' : Finished cfg codec jobs s' (log ++ ev)) :
    ShmMpsc.popped ev = [] := by
  have hlen := h'.completed.total
  rw [popped_append, List.length_append, h.completed.total] at hlen
  exact List.length_eq_zero_iff.mp (by omega)

omit [Fintype ι] in
theorem halted_kept {s s' : System ι C UInt64 Memory} {ev : List (SysEvent ι UInt64)}
    {a : SysAction ι} (hs : sysStep cfg codec (sc (segOps cfg)) jobs s a = some (s', ev))
    (hret : s.consumer.pc = .returned) : s'.consumer.pc = .returned := by
  cases sysTrans_of_step hs with
  | producer | send | serve | drop | commit | stop => exact hret
  | consumer ht =>
    cases ht with
    | halt hpc | top hpc | drain hpc | storeParked hpc | recheck hpc | storeRunningHit hpc
    | addEvents hpc | addWire hpc | decodeDrain hpc | decodeRecheck hpc | unparked hpc
    | storeRunning hpc =>
      rw [hret] at hpc
      cases hpc

/-- `consumer_loop` returns, once `stop` is stored and there is nothing left for it. -/
theorem SysTrace.Scheduled.halts (hN : 2 ≤ cfg.N) {t : SysTrace cfg codec jobs} (h : t.Scheduled)
    {n : Nat} (hfin : ∀ k, n ≤ k → Finished cfg codec jobs (t.state k) (t.log k) ∧
      (t.state k).stop = true) :
    ∃ k, n ≤ k ∧ ∀ k', k ≤ k' → (t.state k').consumer.pc = .returned := by
  have hone : ∃ k, n ≤ k ∧ (t.state k).consumer.pc = .returned := by
    refine Machine.Trace.leads_to (h.tasks .consumer)
      (I := fun s log => Finished cfg codec jobs s log ∧ s.stop = true)
      (Q := fun s _ => s.consumer.pc = .returned)
      (fun s _ => s.consumer.pc.toHalt s.ring.pop) hfin ?_ ?_ ?_
    · rintro s log ⟨hs, _⟩ hret
      obtain ⟨T, hset⟩ := hs.settled
      exact ⟨.consumer, trivial, nofun, hset.sound.consumer_open h.admitted h.fits hN hret⟩
    · intro s log a s' ev _ _ _ ha _ hstep
      obtain ⟨hc, hp⟩ := consumer_kept hstep ha
      exact .inr (by rw [hc, hp])
    · rintro s log a s' ev ⟨hs, hstop⟩ ⟨hs', _⟩ _ ha _ hstep
      cases sysTrans_of_step hstep with
      | producer | send | serve | drop | commit | stop => exact ha.elim
      | consumer ht =>
        rw [hstop] at ht
        rcases ht.toHalt hs.accounted with hp | hlt
        · exact absurd (hs.popped_nil hs') hp
        · exact .inr hlt
  obtain ⟨k, hk, hret⟩ := hone
  refine ⟨k, hk, fun k' hk' => ?_⟩
  refine t.stable (I := fun _ _ => True) (Q := fun s _ => s.consumer.pc = .returned)
    (fun _ _ => trivial) ?_ (Nat.le_refl k) hk' hret
  intro s log a s' ev _ _ hpc _ hstep
  exact halted_kept hstep hpc

end Halts

/-! ### The report -/

variable {C : Type} {n : Nat}

/-- A run of the bench without end. -/
abbrev BenchTrace (n : Nat) (cfg : RingConfig) (codec : Codec C) (events : UInt64)
    (payload : List UInt8) :=
  (benchMachine n cfg codec events payload).Trace Machine.free

namespace BenchTrace

variable {cfg : RingConfig} {codec : Codec C} {events : UInt64} {payload : List UInt8}

/-- What a task of the system does, within the bench. -/
def Acts (task : Task (Fin n)) (a : BenchAction n) : Prop := ∃ a', a = .sys a' ∧ task.Acts a'

def Tries (t : BenchTrace n cfg codec events payload) (j : Fin n) (k : Nat) : Prop :=
  (∃ data pos, (t.state k).sys.ring.push j = .cas data pos) ∧ t.Takes (Acts (.run j)) k

/-- As in `SysTrace.Scheduled`, and `run_inner` is a task like the others. -/
structure Scheduled (t : BenchTrace n cfg codec events payload) : Prop where
  start : ∃ m m', m.size = cfg.total.toNat ∧ init cfg m = some m' ∧
    t.state 0 = Bench.start cfg codec m' ∧ t.log 0 = []
  tasks : ∀ task : Task (Fin n), t.Fair (Acts task)
  bench : t.Fair (· = .bench)
  cas : ∀ j, (∀ i, ∃ k, i ≤ k ∧ t.Tries j k) →
    ∀ i, ∃ k, i ≤ k ∧ t.Tries j k ∧ ∃ now, t.act k = some (.sys (.producer j now false))

variable {t : BenchTrace n cfg codec events payload}

theorem Scheduled.run (h : t.Scheduled) (k : Nat) :
    ∃ as, BenchRun cfg codec events payload as (t.state k) (t.log k) := by
  obtain ⟨m, m', hm, hi, hs, hl⟩ := h.start
  obtain ⟨as, hrun⟩ := t.run (Nat.zero_le k)
  rw [hs, hl] at hrun
  exact ⟨as, m, m', hm, hi, hrun⟩

/-- The system within the bench is left out for no longer than its tasks are. -/
theorem Scheduled.system (hN : 2 ≤ cfg.N) (hsum : n * events.toNat < 2 ^ 63 - cfg.N)
    (h : t.Scheduled) : ∃ t' : SysTrace cfg codec (benchJobs n events payload), t'.Scheduled ∧
      ∀ k, t'.state k = (t.state k).sys ∧ t'.log k = t.log k := by
  have hok (k : Nat) : BenchOk cfg codec events payload (t.state k).sys (t.log k)
      (t.state k).pc := by
    obtain ⟨as, hrun⟩ := h.run k
    exact (hrun.ok hN hsum).2
  have hnext (k : Nat) : Machine.Next
      (sysMachine cfg codec (sc (segOps cfg)) (benchJobs n events payload))
      (stoppedLate (benchJobs n events payload)) (t.state k).sys (t.log k)
      (sysAct (t.state k).pc (t.act k)) (t.state (k + 1)).sys (t.log (k + 1)) := by
    rcases t.step_cases k with ⟨hact, hs, hl⟩ | ⟨a, ev, hact, _, hs, hl⟩
    · rw [hact, hs, hl]
      exact .rest
    · rw [hact, hl]
      exact benchStep_next (fun _ => (hok k).late) hs
  have htakes {task : Task (Fin n)} {k : Nat} {a : SysAction (Fin n)} (ha : task.Acts a)
      (hact : sysAct (t.state k).pc (t.act k) = some a) : t.act k = some (.sys a) := by
    generalize t.act k = a' at hact
    cases a' with
    | none => cases hact
    | some a' =>
      cases a' with
      | sys a' => exact congrArg (fun a => some (BenchAction.sys a)) (Option.some.inj hact)
      | bench =>
        rw [sysAct] at hact
        split at hact
        · cases hact
          exact absurd rfl ha.ne_stop
        · cases hact
  refine ⟨⟨fun k => (t.state k).sys, t.log, fun k => sysAct (t.state k).pc (t.act k), hnext⟩,
    ⟨?_, fun task i => ?_, fun j hall i => ?_⟩, fun k => ⟨rfl, rfl⟩⟩
  · obtain ⟨m, m', hm, hi, hs, hl⟩ := h.start
    exact ⟨m, m', hm, hi, congrArg Bench.sys hs, hl⟩
  · obtain ⟨k, hk, htaken | hblocked⟩ := h.tasks task i
    · obtain ⟨_, hact, a, rfl, ha⟩ := htaken
      exact ⟨k, hk, .inl ⟨a, congrArg (sysAct _) hact, ha⟩⟩
    · refine ⟨k, hk, .inr fun a ha _ => ?_⟩
      have hnone := hblocked (.sys a) ⟨a, rfl, ha⟩ trivial
      exact (benchStep_eq_none ha.ne_stop).mp hnone
  · have htries (i : Nat) : ∃ k, i ≤ k ∧ t.Tries j k := by
      obtain ⟨k, hk, hcas, a, hact, ha⟩ := hall i
      exact ⟨k, hk, hcas, _, htakes ha hact, a, rfl, ha⟩
    obtain ⟨k, hk, ⟨hcas, _, hact, a, rfl, ha⟩, now, hact'⟩ := h.cas j htries i
    exact ⟨k, hk, ⟨hcas, a, congrArg (sysAct _) hact, ha⟩, now, congrArg (sysAct _) hact'⟩

/-- The steps of `run_inner` that are left, with all producers returned and all events counted. -/
def left (n : Nat) : BenchPc → Nat
  | .await i => 10 + (n - i)
  | .sleep => 9
  | .poll => 8
  | .stop => 7
  | .abort => 6
  | .loadEvents => 5
  | .loadWire _ => 4
  | .loadPayload _ _ => 3
  | .loadPosted _ _ _ => 2
  | .done _ | .failed _ => 0

/-- With the system finished, `run_inner` can go on until it has its report. -/
theorem next_isSome {b : Bench n C} {log : List (SysEvent (Fin n) UInt64)}
    (hok : BenchOk cfg codec events payload b.sys log b.pc)
    (hret : ∀ j, (b.sys.producer j).pc = .returned) (hnot : ∀ r, b.pc ≠ .done r) :
    (benchNext events b).isSome := by
  unfold benchNext
  cases hpc : b.pc with
  | await i =>
    dsimp only
    split
    · rename_i hi
      rw [hret ⟨i, hi⟩]
      rfl
    · rfl
  | done r => exact absurd hpc (hnot r)
  | failed e =>
    rw [hpc] at hok
    obtain ⟨j, hj⟩ := hok
    rw [hret j] at hj
    cases hj
  | poll | sleep | stop | abort | loadEvents | loadWire | loadPayload | loadPosted => rfl

/-- And each of its steps leaves it fewer. -/
theorem left_lt {b b' : Bench n C} (ht : BenchTrans events b b')
    (hret : ∀ j, (b.sys.producer j).pc = .returned)
    (hall : ¬ b.sys.consumer.stats.events < benchTarget n events) : left n b'.pc < left n b.pc := by
  cases ht with
  | returned hi hpc =>
    rw [hpc]
    simp only [left]
    omega
  | producerFailed _ _ hfail =>
    rw [hret] at hfail
    cases hfail
  | short _ hlt => exact absurd hlt hall
  | joined hpc | reached hpc | slept hpc | stop hpc | aborted hpc | loadEvents hpc | loadWire hpc
  | loadPayload hpc | loadPosted hpc =>
    rw [hpc]
    simp only [left]
    omega

theorem done_kept {b b' : Bench n C} {a : BenchAction n} {ev : List (SysEvent (Fin n) UInt64)}
    (hs : benchStep cfg codec events payload b a = some (b', ev)) {r : BenchReport}
    (hpc : b.pc = .done r) : b'.pc = .done r := by
  rcases benchStep_cases hs with ⟨_, _, _, hkept, _⟩ | ⟨_, ht, _⟩
  · rw [hkept, hpc]
  · cases ht with
    | returned _ h | producerFailed _ h | joined h | short h | reached h | slept h | stop h
    | aborted h | loadEvents h | loadWire h | loadPayload h | loadPosted h =>
      rw [hpc] at h
      cases h

/-- From some time on the system has finished, and nothing moves but what ends the bench. -/
theorem Scheduled.comes_to_report (hN : 2 ≤ cfg.N) (hsum : n * events.toNat < 2 ^ 63 - cfg.N)
    (h : t.Scheduled) {k₀ : Nat} (hfin : ∀ k, k₀ ≤ k →
      Finished cfg codec (benchJobs n events payload) (t.state k).sys (t.log k)) :
    ∃ k, k₀ ≤ k ∧ ∃ r, (t.state k).pc = .done r := by
  refine Machine.Trace.leads_to h.bench
    (I := fun b log => BenchOk cfg codec events payload b.sys log b.pc ∧
      Finished cfg codec (benchJobs n events payload) b.sys log)
    (Q := fun b _ => ∃ r, b.pc = .done r) (fun b _ => left n b.pc) ?_ ?_ ?_ ?_
  · intro k hk
    obtain ⟨as, hrun⟩ := h.run k
    exact ⟨(hrun.ok hN hsum).2, hfin k hk⟩
  · rintro b log ⟨hok, hf⟩ hnot
    have hsome := next_isSome hok hf.returned fun r hpc => hnot ⟨r, hpc⟩
    exact ⟨.bench, rfl, trivial, by simpa [benchMachine, benchStep] using hsome⟩
  · intro b log a b' ev _ _ _ ha _ hs
    rcases benchStep_cases hs with ⟨_, _, _, hpc, _⟩ | ⟨hbench, _⟩
    · exact .inr (by rw [hpc])
    · exact absurd hbench ha
  · intro b log a b' ev hI _ _ ha _ hs
    obtain ⟨_, hf⟩ := hI
    rcases benchStep_cases hs with ⟨_, rfl, _⟩ | ⟨_, ht, _⟩
    · cases ha
    · refine .inr (left_lt ht hf.returned ?_)
      have hevents := congrArg ConsumerStats.events hf.completed.stats
      rw [sum_benchJobs] at hevents
      have htarget : (benchTarget n events).toNat = n * events.toNat := benchTarget_toNat (by omega)
      rw [UInt64.lt_iff_toNat_lt, htarget, hevents, UInt64.toNat_ofNat']
      omega

/-- In the end the bench is done, and the system and the consumer thread are through. -/
theorem Scheduled.reports (hN : 2 ≤ cfg.N) (hsum : n * events.toNat < 2 ^ 63 - cfg.N)
    (hsend : ∀ j, Sendable cfg codec (benchJobs n events payload j)) (h : t.Scheduled) :
    ∃ k₀ r, ∀ k, k₀ ≤ k → (t.state k).pc = .done r ∧
      Finished cfg codec (benchJobs n events payload) (t.state k).sys (t.log k) ∧
      (t.state k).sys.consumer.pc = .returned := by
  obtain ⟨t', h', heq⟩ := h.system hN hsum
  obtain ⟨k₁, hfin'⟩ := h'.finishes hN (by rwa [sum_benchJobs]) hsend
  have hfin (k : Nat) (hk : k₁ ≤ k) :
      Finished cfg codec (benchJobs n events payload) (t.state k).sys (t.log k) := by
    obtain ⟨hs, hl⟩ := heq k
    rw [← hs, ← hl]
    exact hfin' k hk
  obtain ⟨k₂, hk₂, r, hr⟩ := h.comes_to_report hN hsum hfin
  have hdone (k : Nat) (hk : k₂ ≤ k) : (t.state k).pc = .done r := by
    refine t.stable (I := fun _ _ => True) (Q := fun b _ => b.pc = .done r) (fun _ _ => trivial) ?_
      (Nat.le_refl k₂) hk hr
    intro b log a b' ev _ _ hpc _ hs
    exact done_kept hs hpc
  obtain ⟨k₃, hk₃, hret⟩ := h'.halts hN (n := k₂) fun k hk => by
    obtain ⟨as, hrun⟩ := h.run k
    refine ⟨hfin' k (by omega), ?_⟩
    rw [(heq k).1, hrun.stop_eq, hdone k hk]
    rfl
  exact ⟨k₃, r, fun k hk => ⟨hdone k (by omega), hfin k (by omega), (heq k).1 ▸ hret k hk⟩⟩

end BenchTrace

/-! ### Everybody in turn -/

def onlyProducer : Fin 1 := ⟨0, Nat.one_pos⟩

def benchTurn (k : Nat) : BenchAction 1 :=
  if k % 5 = 0 then .sys (.producer onlyProducer 0 false)
  else if k % 5 = 1 then .sys (.send onlyProducer)
  else if k % 5 = 2 then .sys (.serve onlyProducer)
  else if k % 5 = 3 then .sys .consumer
  else .bench

theorem benchTurn_add (k i : Nat) : benchTurn (5 * k + i) = benchTurn i := by
  rw [benchTurn, benchTurn, Nat.mul_add_mod]

theorem benchTurn_back (k : Nat) :
    (∀ task : Task (Fin 1), ∃ k', k ≤ k' ∧ BenchTrace.Acts task (benchTurn k')) ∧
      ∃ k', k ≤ k' ∧ benchTurn k' = .bench := by
  refine ⟨fun task => ?_, 5 * k + 4, by omega, benchTurn_add k 4⟩
  cases task with
  | run j =>
    obtain rfl := Fin.fin_one_eq_zero j
    exact ⟨5 * k + 0, by omega, .producer 0 0 false, benchTurn_add k 0, rfl⟩
  | writer j =>
    obtain rfl := Fin.fin_one_eq_zero j
    exact ⟨5 * k + 1, by omega, .send 0, benchTurn_add k 1, rfl⟩
  | serve j =>
    obtain rfl := Fin.fin_one_eq_zero j
    exact ⟨5 * k + 2, by omega, .serve 0, benchTurn_add k 2, rfl⟩
  | consumer => exact ⟨5 * k + 3, by omega, .consumer, benchTurn_add k 3, trivial⟩

theorem benchTurn_producer {k : Nat} {j : Fin 1} (h : BenchTrace.Acts (.run j) (benchTurn k)) :
    benchTurn k = .sys (.producer 0 0 false) := by
  obtain ⟨a, ha, hact⟩ := h
  unfold benchTurn at ha ⊢
  split_ifs at ha ⊢ <;> cases ha <;> first | rfl | exact hact.elim

section Turns

variable {cfg : RingConfig} {codec : Codec C} {events : UInt64} {payload : List UInt8}

/-- A bench with one producer and everybody in turn. -/
def benchTurns (cfg : RingConfig) (codec : Codec C) (events : UInt64) (payload : List UInt8)
    (m : Memory) : BenchTrace 1 cfg codec events payload :=
  .ofSchedule _ (Bench.start cfg codec m, []) benchTurn fun _ _ _ => trivial

theorem benchTurns_scheduled (hN : 2 ≤ cfg.N) (hsum : 1 * events.toNat < 2 ^ 63 - cfg.N)
    (hsend : ∀ j, Sendable cfg codec (benchJobs 1 events payload j)) {m m' : Memory}
    (hm : m.size = cfg.total.toNat) (hi : init cfg m = some m') :
    (benchTurns cfg codec events payload m').Scheduled := by
  have hg : cfg.Admitted := check_iff.mp (init_eq_some hi).1
  have hf : cfg.Fits := fits_of_init hm hi
  have hsum' : ∑ j, (benchJobs 1 events payload j).n.toNat < 2 ^ 63 - cfg.N := by
    rwa [sum_benchJobs]
  have hsound (k : Nat) : Sound cfg codec (benchJobs 1 events payload)
      ((benchTurns cfg codec events payload m').state k).sys
      ((benchTurns cfg codec events payload m').log k) := by
    obtain ⟨as, hrun⟩ := (benchTurns cfg codec events payload m').run (Nat.zero_le k)
    obtain ⟨bs, hsc⟩ := BenchRun.late hN hsum ⟨m, m', hm, hi, hrun⟩
    exact hsc.sound hN hsum' hsend
  refine ⟨⟨m, m', hm, hi, rfl, rfl⟩, fun task => ?_, ?_, fun j hall i => ?_⟩
  · refine Machine.Trace.fair_ofSchedule _ (fun k => (benchTurn_back k).1 task)
      fun k a hk ha hnone => ?_
    obtain ⟨a', rfl, ha⟩ := ha
    obtain ⟨b, hb, hbtask⟩ := hk
    rw [hb] at hnone
    refine (benchStep_eq_none ha.ne_stop).mpr ?_
    have hnone := (benchStep_eq_none hbtask.ne_stop).mp hnone
    by_cases hrun : ∃ j, task = .run j
    · obtain ⟨j, rfl⟩ := hrun
      cases a' with
      | producer i now spurious =>
        obtain rfl := BenchAction.sys.inj (hb.symm.trans (benchTurn_producer ⟨b, hb, hbtask⟩))
        obtain rfl : (0 : Fin 1) = i := hbtask.trans (Eq.symm ha)
        exact (hsound k).producer_alike hg hf hN hsum' hnone
      | send | serve | drop | consumer | commit | stop => exact ha.elim
    · rwa [Task.acts_eq (fun j h => hrun ⟨j, h⟩) ha hbtask]
  · refine Machine.Trace.fair_ofSchedule _ (fun k => (benchTurn_back k).2) fun k a hk ha hnone => ?_
    rw [ha, ← hk]
    exact hnone
  · obtain rfl := Fin.fin_one_eq_zero j
    obtain ⟨k, hk, htry⟩ := hall i
    refine ⟨k, hk, htry, 0, ?_⟩
    obtain ⟨_, a, hact, ha⟩ := htry
    rw [hact]
    simp only [benchTurns, Machine.Trace.ofSchedule, Machine.followed] at hact
    split at hact
    · obtain rfl := Option.some.inj hact
      exact congrArg some (benchTurn_producer ha)
    · cases hact

end Turns

end ShmMpsc
