import ShmMpsc.Ring.Fifo
import ShmMpsc.System.Notify

/-!
# Waking a parked consumer

At most one notification a park, and where the consumer is when it comes to `unpark`.
-/

namespace ShmMpsc

set_option autoImplicit false

/-! ### The token -/

section Token

variable {ι C W M : Type} [DecidableEq ι] [DecidableEq W] {cfg : RingConfig} {codec : Codec C}
  {jobs : ι → Job} {mm : MemModel ι W M} {w w' : System ι C W M}
  {wlog ev : List (SysEvent ι W)}

/-- The consumer has not come back from the park of its last `PARKED` store. -/
def ConsumerPc.waiting : ConsumerPc → Bool
  | .recheck | .storeRunningHit | .park => true
  | _ => false

def waitingAfter (p : Bool) : SysEvent ι W → Bool
  | .storeState v => v = STATE_PARKED
  | .unparked => false
  | _ => p

/-- What the log says of that. -/
def waiting (log : List (SysEvent ι W)) : Bool := log.foldl waitingAfter false

omit [DecidableEq ι] [DecidableEq W] in
theorem waiting_snoc {e : SysEvent ι W} :
    waiting (wlog ++ [e]) = waitingAfter (waiting wlog) e := by
  simp [waiting]

omit [DecidableEq ι] [DecidableEq W] in
/-- Without another `PARKED` store, who waits has done nothing since. -/
theorem still_of_waiting {a e : List (SysEvent ι W)} (hw : waiting (a ++ e) = true)
    (he : parks e = 0) : waiting a = true ∧ ∀ v, .storeState v ∉ e := by
  induction e using List.reverseRecOn with
  | nil => exact ⟨by rwa [List.append_nil] at hw, fun _ => List.not_mem_nil⟩
  | append_singleton e x ih =>
    rw [← List.append_assoc, waiting_snoc] at hw
    rw [parks_append] at he
    cases x with
    | storeState v =>
      have hv : v = STATE_PARKED := by simpa [waitingAfter] using hw
      simp [parks, hv] at he
    | unparked => cases hw
    | _ =>
      obtain ⟨ha, hno⟩ := ih hw (by omega)
      exact ⟨ha, by simpa using hno⟩

omit [DecidableEq ι] [DecidableEq W] in
theorem waiting_ring {α : Type} (f : α → RingEvent ι W) (es : List α) :
    waiting (wlog ++ es.map fun e => SysEvent.ring (f e)) = waiting wlog := by
  induction es using List.reverseRecOn with
  | nil => simp
  | append_singleton es e ih =>
    rw [List.map_append, ← List.append_assoc, List.map_singleton, waiting_snoc]
    exact ih

omit [DecidableEq ι] [DecidableEq W] in
theorem ConsumerTrans.waiting {ops : SegOps W M} {stop : Bool} {c c' : Consumer C}
    {pop pop' : PopPc W} {m m' : M} (ht : ConsumerTrans ι codec ops stop c pop m c' pop' m' ev)
    (h : ShmMpsc.waiting wlog = c.pc.waiting) : ShmMpsc.waiting (wlog ++ ev) = c'.pc.waiting := by
  have hpop {hit miss : ConsumerPc} (hhit : hit.waiting = c.pc.waiting)
      (hmiss : miss.waiting = c.pc.waiting) :
      (afterPop hit miss c pop').pc.waiting = c.pc.waiting := by
    rcases afterPop_pc hit miss c pop' with hpc | hpc | hpc <;> rw [hpc]
    · exact hhit
    · exact hmiss
  cases ht with
  | drain hpc =>
    rw [waiting_ring, h, hpop (by rw [hpc]; rfl) (by rw [hpc]; split <;> rfl)]
  | recheck hpc =>
    rw [waiting_ring, h, hpop (by rw [hpc]; rfl) (by rw [hpc]; rfl)]
  | storeParked =>
    rw [List.append_cons, waiting_snoc, waiting_snoc]
    rfl
  | storeRunningHit | storeRunning | unparked =>
    rw [waiting_snoc]
    rfl
  | top hpc | decodeDrain hpc =>
    rw [waiting_snoc]
    rw [hpc] at h
    exact h
  | halt hpc | addEvents hpc | addWire hpc | decodeRecheck hpc =>
    rw [List.append_nil, h, hpc]
    rfl

omit [DecidableEq ι] [DecidableEq W] in
theorem ConsumerTrans.park {ops : SegOps W M} {stop : Bool} {c c' : Consumer C}
    {pop pop' : PopPc W} {m m' : M} (ht : ConsumerTrans ι codec ops stop c pop m c' pop' m' ev)
    : .unparked ∈ ev ↔ c.pc = .park := by
  cases ht with
  | unparked hpc => simp [hpc]
  | drain hpc | recheck hpc | halt hpc | top hpc | storeParked hpc | storeRunningHit hpc
  | addEvents hpc | addWire hpc | decodeDrain hpc | decodeRecheck hpc | storeRunning hpc =>
    simp [hpc]

/-- What others do says nothing of it. -/
theorem waiting_step (h : waiting wlog = w.consumer.pc.waiting) {a : SysAction ι}
    (hs : sysStep cfg codec mm jobs w a = some (w', ev)) :
    waiting (wlog ++ ev) = w'.consumer.pc.waiting := by
  cases sysTrans_of_step hs with
  | consumer ht => exact ht.waiting h
  | producer ht =>
    cases ht with
    | push => exact (waiting_ring _ _).trans h
    | encode =>
      rw [List.append_cons, waiting_snoc, waiting_snoc]
      exact h
    | retry | won | lost | signal =>
      rw [waiting_snoc]
      exact h
    | encodeErr | finish | returned =>
      rw [List.append_nil]
      exact h
  | serve ht =>
    cases ht <;>
    · rw [waiting_snoc]
      exact h
  | send | drop | commit | stop =>
    rw [List.append_nil]
    exact h

/-- Only the return from `park_timeout` takes the token. -/
theorem token_step (h : w.token = true) {a : SysAction ι}
    (hs : sysStep cfg codec mm jobs w a = some (w', ev)) (hev : .unparked ∉ ev) :
    w'.token = true := by
  cases sysTrans_of_step hs with
  | consumer ht =>
    simp only [System.setConsumer]
    split
    · rename_i hpc
      exact absurd (ht.park.mpr hpc) hev
    · exact h
  | serve ht =>
    cases ht with
    | count => exact h
    | unpark => rfl
  | producer | send | drop | commit | stop => exact h

/-- A re-check that has found a message goes on to store `RUNNING`. -/
theorem hit_step (h : w.consumer.pc = .storeRunningHit) {a : SysAction ι}
    (hs : sysStep cfg codec mm jobs w a = some (w', ev)) (hev : ∀ v, .storeState v ∉ ev) :
    w'.consumer.pc = .storeRunningHit := by
  cases sysTrans_of_step hs with
  | consumer ht =>
    cases ht with
    | storeRunningHit => exact absurd (List.mem_singleton_self _) (hev _)
    | _ hpc => rw [h] at hpc; cases hpc
  | producer | send | serve | drop | commit | stop => exact h

/-- The run goes on from `w` to `t`, and `park_timeout` returns for the first time. -/
structure ReturnsNext (cfg : RingConfig) (codec : Codec C) (mm : MemModel ι W M) (jobs : ι → Job)
    (w : System ι C W M) (log mid : List (SysEvent ι W)) (t t' : System ι C W M) : Prop where
  run : ∃ bs, (sysMachine cfg codec mm jobs).Run Machine.free w log bs t (log ++ mid)
  first : .unparked ∉ mid
  returns : sysStep cfg codec mm jobs t .consumer = some (t', [.unparked])

namespace ReturnsNext

variable {mid : List (SysEvent ι W)} {t t' : System ι C W M}

theorem parked (h : ReturnsNext cfg codec mm jobs w wlog mid t t') :
    t.consumer.pc = .park ∧ t'.token = false := by
  cases sysTrans_of_step h.returns with | consumer ht
  have hpc := ht.park.mp (List.mem_singleton_self _)
  exact ⟨hpc, by simp [System.setConsumer, hpc]⟩

theorem token (h : ReturnsNext cfg codec mm jobs w wlog mid t t') (hw : w.token = true) :
    t.token = true := by
  obtain ⟨bs, hrun⟩ := h.run
  have hkept : .unparked ∉ mid → t.token = true := by
    refine hrun.added (I := fun w mid => .unparked ∉ mid → w.token = true) (fun _ => hw) ?_
    intro w mid a w' ev hI hs hno
    rw [List.mem_append, not_or] at hno
    exact token_step (hI hno.1) hs hno.2
  exact hkept h.first

/-- Whoever returns from the park that it was in at `w` was in the re-check, which found nothing, or
in `park_timeout`. -/
theorem of_no_park (h : ReturnsNext cfg codec mm jobs w wlog mid t t')
    (hw : waiting wlog = w.consumer.pc.waiting) (hmid : parks mid = 0) :
    (w.consumer.pc = .recheck ∨ w.consumer.pc = .park) ∧ ∀ v, .storeState v ∉ mid := by
  obtain ⟨bs, hrun⟩ := h.run
  have hpc := h.parked.1
  have hwaits : waiting (wlog ++ mid) = t.consumer.pc.waiting := by
    refine hrun.invariant (I := fun w log => waiting log = w.consumer.pc.waiting) hw ?_
    exact fun _ _ _ _ _ hI _ hs => waiting_step hI hs
  rw [hpc] at hwaits
  obtain ⟨hbefore, hstill⟩ := still_of_waiting hwaits hmid
  refine ⟨?_, hstill⟩
  rw [hw] at hbefore
  cases hwpc : w.consumer.pc with
  | recheck => exact .inl rfl
  | park => exact .inr rfl
  | storeRunningHit =>
    have hhit : (∀ v, .storeState v ∉ mid) → t.consumer.pc = .storeRunningHit := by
      refine hrun.added (I := fun w mid => (∀ v, .storeState v ∉ mid) →
        w.consumer.pc = .storeRunningHit) (fun _ => hwpc) ?_
      intro w mid a w' ev hI hs hno
      exact hit_step (hI fun v hv => hno v (List.mem_append_left _ hv)) hs
        fun v hv => hno v (List.mem_append_right _ hv)
    rw [hhit hstill] at hpc
    cases hpc
  | _ =>
    rw [hwpc] at hbefore
    cases hbefore

end ReturnsNext

end Token

section Segment

open RingConfig

variable {ι C : Type} [DecidableEq ι] {cfg : RingConfig} {codec : Codec C} {jobs : ι → Job}
  {as : List (SysAction ι)} {s s' : System ι C UInt64 Memory} {log : List (SysEvent ι UInt64)}

/-- What wakes the consumer is bounded by how often it parks. -/
structure OnePerPark (cfg : RingConfig) (s : System ι C UInt64 Memory)
    (log : List (SysEvent ι UInt64)) : Prop where
  wins : ∀ l, l <+: log → (winners l).length ≤ parks l
  signals : (signalled log).length ≤ (winners log).length
  counts : (counted log).length ≤ (signalled log).length
  calls : s.postedCalls = UInt64.ofNat (counted log).length
  once : ∀ a mid b, log = a ++ mid ++ b → parks mid = 0 → (winners mid).length ≤ 1
  parked : (segOps cfg).loadState s.ring.mem = some STATE_PARKED →
    s.consumer.pc.parking = true ∧ between log = true
  running : s.consumer.pc.parking = false →
    (segOps cfg).loadState s.ring.mem = some STATE_RUNNING ∧
      (segOps cfg).casState STATE_PARKED STATE_RUNNING s.ring.mem = some (s.ring.mem, false)

theorem ScRun.waiting {G} (h : ScRun cfg codec jobs G as s log) :
    ShmMpsc.waiting log = s.consumer.pc.waiting := by
  obtain ⟨m, m', _, _, hrun⟩ := h
  refine hrun.invariant (I := fun s log => ShmMpsc.waiting log = s.consumer.pc.waiting) rfl ?_
  exact fun _ _ _ _ _ hI _ hs => waiting_step hI hs

theorem one_notification_per_park (h : ScRun cfg codec jobs Machine.free as s log) :
    OnePerPark cfg s log := by
  have hI := h.notifyInv
  have hw := hI.watched
  obtain ⟨_, hcounts, hsignals⟩ := hI.counts_le
  refine ⟨?_, hsignals, hcounts, hI.calls, ?_, ?_, ?_⟩
  · rintro l ⟨l', rfl⟩
    have hle := Flips.winners_le (a := []) hw.flips.of_append
    exact Nat.le_trans (Nat.le_add_right _ _) hle
  · rintro a mid b rfl hmid
    have hle := hw.flips.of_append.winners_le
    rw [hmid, Nat.zero_add] at hle
    exact Nat.le_trans (Nat.le_trans (Nat.le_add_right _ _) hle) (Bool.toNat_le _)
  · intro hst
    have hb := between_of_parked (hw.parked hst)
    exact ⟨hw.between ▸ hb, hb⟩
  · intro hpc
    have hst : (segOps cfg).loadState s.ring.mem = some STATE_RUNNING := by
      rw [hw.state, if_neg]
      intro hp
      rw [hw.between.symm.trans (between_of_parked hp)] at hpc
      cases hpc
    exact ⟨hst, casState_running hst⟩

/-! ### The notification that comes to `unpark` -/

/-- The notification `seq` of producer `j` that `serve` handles next comes from this CAS, which
flipped this `PARKED` store: `log` is `c`, the store, `d`, the CAS and `e`. -/
structure CausedBy (log : List (SysEvent ι UInt64)) (j : ι) (seq : UInt64)
    (c d e : List (SysEvent ι UInt64)) : Prop where
  split : log = c ++ .storeState STATE_PARKED :: d ++ .casState j true :: e
  flipped : (∀ v, .storeState v ∉ d) ∧ winners d = []
  nth : (winners (c ++ .storeState STATE_PARKED :: d)).count j = (owned j (delivered log)).length
  seq : (owned j (signalled log))[(owned j (delivered log)).length]? = some seq

theorem NotifyInv.causedBy (h : NotifyInv (segOps cfg) s log) {j : ι} {seq : UInt64}
    {rest : List UInt64} (hsocket : (s.producer j).socket = seq :: rest) :
    ∃ c d e, CausedBy log j seq c d e := by
  obtain ⟨lost, hsent, _⟩ := (h.relay j).sent
  have hwins := (h.relay j).wins
  rw [hsocket] at hsent
  have hlt : (owned j (delivered log)).length < (winners log).count j := by
    rw [hwins, hsent]
    simp only [List.length_append, List.length_cons]
    omega
  obtain ⟨a, e, hlog, ha⟩ := exists_win hlt
  obtain ⟨c, d, rfl, hd, hw⟩ := exists_park_of_parked (h.watched.flips a j e hlog)
  exact ⟨c, d, e, hlog, ⟨hd, hw⟩, ha, by simp [hsent]⟩

/-- When `unpark` is called for a notification, the CAS that caused it flipped a `PARKED` store
that no other CAS flipped. The token stays until `park_timeout` next returns. That is the park of
this store if the consumer, when `unpark` was called, was still in the re-check or in
`park_timeout` behind it, and did not find a message in the re-check; otherwise it is a later one,
which the token cuts short. -/
theorem unpark_in_its_park (h : ScRun cfg codec jobs Machine.free as s log) {j : ι} {seq : UInt64}
    (hs : sysStep cfg codec (sc (segOps cfg)) jobs s (.serve j) = some (s', [.unpark j seq])) :
    (∃ c d e, CausedBy log j seq c d e ∧
      ∀ mid t t',
        ReturnsNext cfg codec (sc (segOps cfg)) jobs s' (log ++ [.unpark j seq]) mid t t' →
        t.token = true ∧ t'.token = false ∧
        (parks (e ++ mid) = 0 ↔ (s.consumer.pc = .recheck ∨ s.consumer.pc = .park) ∧
          parks e = 0 ∧ ∀ v, .storeState v ∉ mid)) ∧
    (delivered log).length < parks log := by
  have hI := h.notifyInv
  have hwaits := h.waiting
  obtain ⟨m, m', hm, hi, hrun⟩ := h
  have h' : ScRun cfg codec jobs Machine.free (as ++ [.serve j]) s' (log ++ [.unpark j seq]) :=
    ⟨m, m', hm, hi, hrun.snoc trivial hs⟩
  constructor
  · have hwaits' := h'.waiting
    cases sysTrans_of_step hs with | serve hp
    obtain ⟨rest, hsocket⟩ := hp.socket
    obtain ⟨c, d, e, hc⟩ := hI.causedBy hsocket
    have htoken := hp.token
    refine ⟨c, d, e, hc, fun mid t t' hnext => ⟨hnext.token htoken, hnext.parked.2, ?_⟩⟩
    rw [parks_append, Nat.add_eq_zero_iff]
    constructor
    · rintro ⟨he, hmid⟩
      obtain ⟨hpc, hno⟩ := hnext.of_no_park hwaits' hmid
      exact ⟨hpc, he, hno⟩
    · rintro ⟨_, he, hno⟩
      refine ⟨he, List.countP_eq_zero.mpr fun x hx => ?_⟩
      cases x with
      | storeState v => exact absurd hx (hno v)
      | _ => simp
  · have hflips : Flips ([] ++ (log ++ [.unpark j seq])) := h'.notifyInv.watched.flips
    have hle := hflips.winners_le
    obtain ⟨h1, h2, h3⟩ := h'.notifyInv.counts_le
    have hone : (delivered (log ++ [.unpark j seq])).length = (delivered log).length + 1 := by
      simp [delivered]
    have hparks : parks (log ++ [.unpark j seq]) = parks log := by simp [parks]
    have hzero : (parked ([] : List (SysEvent ι UInt64))).toNat = 0 := rfl
    omega

end Segment

/-! ### Runs of one producer on two slots -/

abbrev Pair := System Unit Unit UInt64 Memory × List (SysEvent Unit UInt64)

/-- A run of the one producer from a fresh segment. -/
def execPair (as : List (SysAction Unit)) : Option Pair :=
  (init tiny blank).bind fun m =>
    (sysMachine tiny plain (sc (segOps tiny)) oneEvent).exec (System.start tiny plain m, []) as

theorem scRun_of_execPair {as : List (SysAction Unit)} {c : Pair} (h : execPair as = some c) :
    ScRun tiny plain oneEvent Machine.free as c.1 c.2 := by
  obtain ⟨m, hi, hrun⟩ := Option.bind_eq_some_iff.mp h
  exact ⟨blank, m, rfl, hi, Machine.run_of_exec hrun⟩

/-- The consumer parks, the producer pushes and wins the CAS, and its notification has been
counted. -/
def countedInPark : List (SysAction Unit) :=
  List.replicate 6 .consumer ++ List.replicate 9 (.producer () 0 false) ++ [.send (), .serve ()]

theorem countedInPark_exec : (execPair countedInPark).map (fun c =>
    decide (c.1.consumer.pc = .park ∧ (c.1.producer ()).socket = [0] ∧
      (c.1.producer ()).counted = true ∧ parks c.2 = 1 ∧ (counted c.2).length = 1)) =
        some true := by
  decide +kernel

theorem one_notification_in_a_park : ∃ s log,
    ScRun tiny plain oneEvent Machine.free countedInPark s log ∧ parks log = 1 ∧
      (counted log).length = 1 ∧ OnePerPark tiny s log := by
  obtain ⟨c, hc, hd⟩ := Option.map_eq_some_iff.mp countedInPark_exec
  obtain ⟨_, _, _, hparks, hcounted⟩ := of_decide_eq_true hd
  have hrun := scRun_of_execPair hc
  exact ⟨c.1, c.2, hrun, hparks, hcounted, one_notification_per_park hrun⟩

/-- It comes while the consumer is in the park, which it ends. -/
theorem unparked_in_its_park : ∃ s s' t' log,
    ScRun tiny plain oneEvent Machine.free countedInPark s log ∧
    sysStep tiny plain (sc (segOps tiny)) oneEvent s (.serve ()) = some (s', [.unpark () 0]) ∧
    sysStep tiny plain (sc (segOps tiny)) oneEvent s' .consumer = some (t', [.unparked]) ∧
    s'.token = true ∧ t'.token = false ∧
    ∃ c d e, CausedBy log () 0 c d e ∧ parks (e ++ []) = 0 := by
  obtain ⟨c, hc, hd⟩ := Option.map_eq_some_iff.mp countedInPark_exec
  obtain ⟨hpc, hsocket, hcounted, hparks, _⟩ := of_decide_eq_true hd
  have hrun := scRun_of_execPair hc
  have hunpark : ∃ s', sysStep tiny plain (sc (segOps tiny)) oneEvent c.1 (.serve ()) =
      some (s', [.unpark () 0]) ∧ s'.token = true ∧ s'.consumer = c.1.consumer :=
    sysStep_unpark hsocket hcounted
  obtain ⟨s', hs, htoken, hconsumer⟩ := hunpark
  obtain ⟨t', ht'⟩ : ∃ t', sysStep tiny plain (sc (segOps tiny)) oneEvent s' .consumer =
      some (t', [.unparked]) := by
    simp [sysStep, consumerStep, hconsumer, hpc]
  have hnext : ReturnsNext tiny plain (sc (segOps tiny)) oneEvent s' (c.2 ++ [.unpark () 0]) [] s'
      t' := ⟨⟨[], by rw [List.append_nil]; exact .nil⟩, List.not_mem_nil, ht'⟩
  obtain ⟨⟨a, d, e, hcause, hall⟩, _⟩ := unpark_in_its_park hrun hs
  obtain ⟨_, htaken, hown⟩ := hall [] s' t' hnext
  refine ⟨c.1, s', t', c.2, hrun, hs, ht', htoken, htaken, a, d, e, hcause,
    hown.mpr ⟨.inr hpc, ?_, by simp⟩⟩
  -- the only `PARKED` store is before the CAS
  have hstored : parks (.storeState STATE_PARKED :: d) = parks d + 1 :=
    List.countP_cons_of_pos (by simp)
  have hwon : parks (.casState () true :: e) = parks e := List.countP_cons_of_neg (by simp)
  rw [hcause.split, parks_append, parks_append, hstored, hwon] at hparks
  omega

/-- The same, but the consumer finds the message in its re-check and goes on. -/
def countedTooLate : List (SysAction Unit) :=
  List.replicate 4 .consumer ++ List.replicate 9 (.producer () 0 false) ++ [.send (), .serve ()] ++
    List.replicate 7 .consumer

theorem countedTooLate_exec : (execPair countedTooLate).map (fun c =>
    decide (c.1.consumer.pc = .addEvents .recheck ∧ (c.1.producer ()).socket = [0] ∧
      (c.1.producer ()).counted = true)) = some true := by
  decide +kernel

/-- `unpark` is called for a consumer that runs, and leaves a token. -/
theorem unparked_while_running : ∃ s s' log,
    ScRun tiny plain oneEvent Machine.free countedTooLate s log ∧
    sysStep tiny plain (sc (segOps tiny)) oneEvent s (.serve ()) = some (s', [.unpark () 0]) ∧
    s.consumer.pc.parking = false ∧ s'.token = true := by
  obtain ⟨c, hc, hd⟩ := Option.map_eq_some_iff.mp countedTooLate_exec
  obtain ⟨hpc, hsocket, hcounted⟩ := of_decide_eq_true hd
  obtain ⟨s', hs, htoken, _⟩ := sysStep_unpark hsocket hcounted
  exact ⟨c.1, s', c.2, scRun_of_execPair hc, hs, by rw [hpc]; rfl, htoken⟩

end ShmMpsc
