import ShmMpsc.Ring.Fifo
import ShmMpsc.System.Park

/-!
# No lost wake-up

Behind store buffers the re-check can miss a message whose producer missed the park, unless
the `PARKED` store is out of its buffer by then. Under sequential consistency it always is:
a run without buffers is a run in which every store leaves its buffer at once.
-/

namespace ShmMpsc

set_option autoImplicit false

open RingConfig

variable {ι C : Type} [DecidableEq ι] {cfg : RingConfig} {codec : Codec C} {jobs : ι → Job}

theorem TsoRun.parkInv {as : List (SysAction ι)} {s : TsoSystem ι C UInt64 Memory}
    {log : List (SysEvent ι UInt64)}
    (h : TsoRun cfg codec jobs (fenced (segOps cfg)) as s log) : ParkInv (segOps cfg) s log := by
  obtain ⟨m, m', hm, hi, hrun⟩ := h
  have hF := segOps_framed (check_iff.mp (init_eq_some hi).1) (fits_of_init hm hi)
  exact hrun.invariant (parkInv_start m') fun _ _ _ _ _ hI hg hs => hI.step hF hg hs

/-- The consumer sleeps on a published message and nobody is going to wake it. -/
structure LostWakeup (ops : SegOps UInt64 Memory) (s : TsoSystem ι C UInt64 Memory)
    (log : List (SysEvent ι UInt64)) : Prop where
  park : s.consumer.pc = .park
  published : ops.HeadPublished s.ring.mem.mem
  cas : ∀ j, (s.producer j).pc.casAhead = false
  won : wonSincePark log = false
  pending : ¬ s.Pending

/-- Where the re-check's load of `seq` waits for the `PARKED` store, no wake-up is lost. -/
theorem fenced_recheck_wakes {as : List (SysAction ι)} {s : TsoSystem ι C UInt64 Memory}
    {log : List (SysEvent ι UInt64)}
    (h : TsoRun cfg codec jobs (fenced (segOps cfg)) as s log) :
    ¬ LostWakeup (segOps cfg) s log := by
  intro hlost
  obtain ⟨_, hst, hpub⟩ := h.parkInv.parked hlost.park
  rcases hst with hst | ⟨_, hwon, _⟩
  · obtain ⟨j, hj⟩ := hpub hst hlost.published
    rw [hlost.cas j] at hj
    cases hj
  · rw [hlost.won] at hwon
    cases hwon

/-! ### Runs of one producer on two slots -/

/-- The state of a run of the one producer behind store buffers. -/
abbrev TsoPair := TsoSystem Unit Unit UInt64 Memory × List (SysEvent Unit UInt64)

/-- The consumer parks, with the slot of position 0 published. -/
def ParkedOnMessage (c : TsoPair) : Prop :=
  c.1.consumer.pc = .park ∧ (segOps tiny).loadHead c.1.ring.mem.mem = some 0 ∧
    (segOps tiny).loadSeq 0 c.1.ring.mem.mem = some 1

instance (c : TsoPair) : Decidable (ParkedOnMessage c) := inferInstanceAs (Decidable (_ ∧ _))

theorem ParkedOnMessage.headPublished {c : TsoPair} (h : ParkedOnMessage c) :
    (segOps tiny).HeadPublished c.1.ring.mem.mem :=
  ⟨0, h.2.1, h.2.2⟩

/-- The whole push and its CAS come between the re-check and the `PARKED` store's way out. -/
def missedPark : List (SysAction Unit) :=
  List.replicate 6 .consumer ++ List.replicate 10 (.producer () 0 false) ++ [.commit none]

theorem missedPark_exec :
    ((init tiny blank).bind fun m =>
      (sysMachine tiny plain (tso (segOps tiny)) oneEvent).exec
        (System.start tiny plain (.flushed m), []) missedPark).map (fun c =>
      decide (ParkedOnMessage c ∧ (c.1.producer ()).pc = .returned ∧ wonSincePark c.2 = false ∧
        (c.1.producer ()).queue = [] ∧ (c.1.producer ()).socket = [] ∧ c.1.token = false)) =
      some true := by
  decide +kernel

theorem missedPark_loses_wakeup : ∃ s log,
    TsoRun tiny plain oneEvent Machine.free missedPark s log ∧ LostWakeup (segOps tiny) s log := by
  obtain ⟨c, hc, hd⟩ := Option.map_eq_some_iff.mp missedPark_exec
  obtain ⟨m, hi, hrun⟩ := Option.bind_eq_some_iff.mp hc
  obtain ⟨hpark, hpc, hwon, hqueue, hsocket, htoken⟩ := of_decide_eq_true hd
  refine ⟨c.1, c.2, ⟨blank, m, rfl, hi, Machine.run_of_exec hrun⟩, hpark.1, hpark.headPublished,
    fun _ => by simp [hpc, ProducerPc.casAhead], hwon, ?_⟩
  rintro (⟨j, hj | hj | hj⟩ | ht)
  · simp [hpc, ProducerPc.signalling] at hj
  · exact hj hqueue
  · exact hj hsocket
  · rw [htoken] at ht
    cases ht

/-- The `PARKED` store is out before the re-check, and the producer wins its CAS. -/
def woken : List (SysAction Unit) :=
  List.replicate 4 .consumer ++ .commit none :: List.replicate 2 .consumer ++
    List.replicate 8 (.producer () 0 false)

def emptyAtRecheck (s : TsoSystem Unit Unit UInt64 Memory) : Bool :=
  match s.consumer.pc, s.ring.pop with
  | .recheck, .loadSeq _ _ => (s.ring.mem.buf none).isEmpty
  | _, _ => true

theorem woken_exec :
    ((init tiny blank).bind fun m =>
      (sysMachine tiny plain (tso (segOps tiny)) oneEvent).execWith (fun s _ _ => emptyAtRecheck s)
        (System.start tiny plain (.flushed m), []) woken).map (fun c =>
      decide (ParkedOnMessage c)) = some true := by
  decide +kernel

theorem woken_run : ∃ s log,
    TsoRun tiny plain oneEvent (fenced (segOps tiny)) woken s log ∧ ParkedOnMessage (s, log) := by
  obtain ⟨c, hc, hd⟩ := Option.map_eq_some_iff.mp woken_exec
  obtain ⟨m, hi, hrun⟩ := Option.bind_eq_some_iff.mp hc
  refine ⟨c.1, c.2, ⟨blank, m, rfl, hi, Machine.run_of_execWith ?_ hrun⟩, of_decide_eq_true hd⟩
  intro s _ _ he _ hpc out head hpop
  rw [emptyAtRecheck, hpc, hpop] at he
  exact .inl (List.isEmpty_iff.mp he)

theorem fenced_recheck_wakes_woken : ∃ s log,
    TsoRun tiny plain oneEvent (fenced (segOps tiny)) woken s log ∧ s.consumer.pc = .park ∧
      (segOps tiny).HeadPublished s.ring.mem.mem ∧ ¬ LostWakeup (segOps tiny) s log := by
  obtain ⟨s, log, hrun, hpark⟩ := woken_run
  exact ⟨s, log, hrun, hpark.1, hpark.headPublished, fenced_recheck_wakes hrun⟩

/-! ### Sequential consistency -/

theorem ScRun.flushed {as : List (SysAction ι)} {s : System ι C UInt64 Memory}
    {log : List (SysEvent ι UInt64)} (h : ScRun cfg codec jobs Machine.free as s log) :
    ∃ bs, TsoRun cfg codec jobs (fenced (segOps cfg)) bs s.flushed log := by
  obtain ⟨m, m', hm, hi, hrun⟩ := h
  have hstep : ∀ s log (t : TsoSystem ι C UInt64 Memory) tlog a s' ev,
      (t = s.flushed ∧ tlog = log) → Machine.free s log a →
      (sysMachine cfg codec (sc (segOps cfg)) jobs).step s a = some (s', ev) →
      ∃ bs t' tlog', (sysMachine cfg codec (tso (segOps cfg)) jobs).Run (fenced (segOps cfg)) t tlog
        bs t' tlog' ∧ t' = s'.flushed ∧ tlog' = log ++ ev := by
    rintro s log _ _ a s' ev ⟨rfl, rfl⟩ _ hs
    have hg : fenced (segOps cfg) s.flushed log a := fun _ _ _ _ _ => .inl rfl
    rcases System.flushed_step hs with hs | ⟨s1, t, hs, hc⟩
    · exact ⟨[a], _, _, .single hg hs, rfl, rfl⟩
    · have hcommit : (sysMachine cfg codec (tso (segOps cfg)) jobs).step s1 (.commit t) =
          some (s'.flushed, []) := hc
      exact ⟨[a] ++ [.commit t], _, _, .snoc (.single hg hs) (fun h => by cases h) hcommit, rfl,
        by simp⟩
  obtain ⟨bs, t, tlog, htso, rfl, rfl⟩ := hrun.simulate
    (R := fun s log t tlog => t = s.flushed ∧ tlog = log) ⟨rfl, rfl⟩ hstep
  exact ⟨bs, m, m', hm, hi, htso⟩

/-- A consumer that sleeps on a published message is going to be woken. -/
theorem no_lost_wakeup {as : List (SysAction ι)} {s : System ι C UInt64 Memory}
    {log : List (SysEvent ι UInt64)} (h : ScRun cfg codec jobs Machine.free as s log)
    (hok : ∀ j, (s.producer j).pc.isFailed = false) (hpark : s.consumer.pc = .park) :
    ((segOps cfg).HeadPublished s.ring.mem →
      ((segOps cfg).loadState s.ring.mem = some STATE_PARKED ∧ ∃ j, (s.producer j).pc.casAhead) ∨
      ((segOps cfg).loadState s.ring.mem = some STATE_RUNNING ∧ ∃ j, (s.producer j).pc.signalling) ∨
      (∃ j, (s.producer j).queue ≠ []) ∨ (∃ j, (s.producer j).socket ≠ []) ∨ s.token = true) ∧
    ((∀ j, (s.producer j).pc = .returned) → (∀ j, (s.producer j).queue = []) →
      (∀ j, (s.producer j).socket = []) → s.token = false →
      ¬ (segOps cfg).HeadPublished s.ring.mem) := by
  obtain ⟨bs, hrun⟩ := h.flushed
  obtain ⟨_, hst, hpub⟩ := hrun.parkInv.parked hpark
  have hwake : (segOps cfg).HeadPublished s.ring.mem →
      ((segOps cfg).loadState s.ring.mem = some STATE_PARKED ∧ ∃ j, (s.producer j).pc.casAhead) ∨
      ((segOps cfg).loadState s.ring.mem = some STATE_RUNNING ∧ ∃ j, (s.producer j).pc.signalling) ∨
      (∃ j, (s.producer j).queue ≠ []) ∨ (∃ j, (s.producer j).socket ≠ []) ∨ s.token = true := by
    intro hp
    rcases hst with hst | ⟨hst, _, ⟨j, hj⟩ | ⟨j, hj | hj | hj⟩ | ht⟩
    · exact .inl ⟨hst, hpub hst hp⟩
    · exact absurd ((hok j).symm.trans hj) (by simp)
    · exact .inr (.inl ⟨hst, j, hj⟩)
    · exact .inr (.inr (.inl ⟨j, hj⟩))
    · exact .inr (.inr (.inr (.inl ⟨j, hj⟩)))
    · exact .inr (.inr (.inr (.inr ht)))
  refine ⟨hwake, fun hret hqueue hsocket htoken hp => ?_⟩
  rcases hwake hp with ⟨_, j, hj⟩ | ⟨_, j, hj⟩ | ⟨j, hj⟩ | ⟨j, hj⟩ | ht
  · simp [hret j, ProducerPc.casAhead] at hj
  · simp [hret j, ProducerPc.signalling] at hj
  · exact hj (hqueue j)
  · exact hj (hsocket j)
  · rw [htoken] at ht
    cases ht

def wokenAtOnce : List (SysAction Unit) :=
  List.replicate 6 .consumer ++ List.replicate 8 (.producer () 0 false)

theorem wokenAtOnce_exec :
    ((init tiny blank).bind fun m =>
      (sysMachine tiny plain (sc (segOps tiny)) oneEvent).exec (System.start tiny plain m, [])
        wokenAtOnce).map (fun c =>
      decide (c.1.consumer.pc = .park ∧ (segOps tiny).loadHead c.1.ring.mem = some 0 ∧
        (segOps tiny).loadSeq 0 c.1.ring.mem = some 1 ∧ (c.1.producer ()).pc = .signal 0 0)) =
      some true := by
  decide +kernel

theorem no_lost_wakeup_at_once : ∃ s log,
    ScRun tiny plain oneEvent Machine.free wokenAtOnce s log ∧
    (segOps tiny).HeadPublished s.ring.mem ∧
      (((segOps tiny).loadState s.ring.mem = some STATE_PARKED ∧ ∃ j, (s.producer j).pc.casAhead) ∨
      ((segOps tiny).loadState s.ring.mem = some STATE_RUNNING ∧
        ∃ j, (s.producer j).pc.signalling) ∨
      (∃ j, (s.producer j).queue ≠ []) ∨ (∃ j, (s.producer j).socket ≠ []) ∨ s.token = true) := by
  obtain ⟨c, hc, hd⟩ := Option.map_eq_some_iff.mp wokenAtOnce_exec
  obtain ⟨m, hi, hrun⟩ := Option.bind_eq_some_iff.mp hc
  obtain ⟨hpark, hhead, hseq, hpc⟩ := of_decide_eq_true hd
  have hsc : ScRun tiny plain oneEvent Machine.free wokenAtOnce c.1 c.2 :=
    ⟨blank, m, rfl, hi, Machine.run_of_exec hrun⟩
  have hpub : (segOps tiny).HeadPublished c.1.ring.mem := ⟨0, hhead, hseq⟩
  exact ⟨c.1, c.2, hsc, hpub,
    (no_lost_wakeup hsc (fun j => by simp [hpc, ProducerPc.isFailed]) hpark).1 hpub⟩

end ShmMpsc
