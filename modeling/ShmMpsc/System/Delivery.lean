import ShmMpsc.Ring.Fifo
import ShmMpsc.System.Orders

/-!
# The system over the ring

Under sequential consistency a run of the producers and the consumer is a run of the ring
they share, and every producer pushes the encodings of its events once each and in order.
-/

namespace ShmMpsc

set_option autoImplicit false

open RingConfig

variable {ι C W M : Type}

/-! ### What a log says -/

/-- What the ring saw. -/
def ringLog : List (SysEvent ι W) → List (RingEvent ι W) :=
  List.filterMap fun
    | .ring e => some e
    | _ => none

variable {log ev : List (SysEvent ι W)}

@[simp] theorem ringLog_append : ringLog (log ++ ev) = ringLog log ++ ringLog ev :=
  List.filterMap_append

@[simp] theorem ringLog_ring {α : Type} (f : α → RingEvent ι W) (es : List α) :
    ringLog (es.map fun e => .ring (f e)) = es.map f := by
  simp [ringLog, List.filterMap_map, List.filterMap_eq_map']

/-- The messages popped, in order. -/
def popped (log : List (SysEvent ι W)) : List (List UInt8) := (pops (ringLog log)).map Prod.snd

section Producers

variable [DecidableEq ι]

/-- The events producer `j` has encoded, with their encodings. -/
def encodings (j : ι) : List (SysEvent ι W) → List (UInt64 × List UInt8) :=
  List.filterMap fun
    | .encode i seq _ data => if i = j then some (seq, data) else none
    | _ => none

/-- The messages producer `j` has reserved positions for, in order. -/
def pushes (j : ι) (log : List (SysEvent ι W)) : List (List UInt8) :=
  (reserves (ringLog log)).filterMap fun r => if r.1 = j then some r.2.1 else none

@[simp] theorem encodings_append (j : ι) :
    encodings j (log ++ ev) = encodings j log ++ encodings j ev :=
  List.filterMap_append

@[simp] theorem pushes_append (j : ι) : pushes j (log ++ ev) = pushes j log ++ pushes j ev := by
  simp [pushes]

end Producers

/-! ### Calls -/

def ProducerPc.inPush : ProducerPc W → Bool
  | .push _ => true
  | _ => false

def ConsumerPc.inPop : ConsumerPc → Bool
  | .drain _ | .recheck => true
  | _ => false

/-- A party is inside a call of the ring exactly where its loop says so. -/
structure InCalls (s : System ι C W M) : Prop where
  push : ∀ j, (s.ring.push j).ready = !(s.producer j).pc.inPush
  pop : s.ring.pop.ready = !s.consumer.pc.inPop

theorem inPush_pushCall (cfg : RingConfig) (ops : SegOps W M) (scratch data : List UInt8)
    (i : UInt64) :
    (pushCall ops data).ready = !(afterPush cfg scratch i (pushCall ops data)).inPush := by
  unfold pushCall
  split <;> rfl

theorem PushTrans.inPush {ops : SegOps W M} {spurious : Bool} {push push' : PushPc W} {m m' : M}
    {pev : List (PushEvent W)} (h : PushTrans ops spurious push m push' m' pev) (cfg : RingConfig)
    (scratch : List UInt8) (i : UInt64) :
    push'.ready = !(afterPush cfg scratch i push').inPush := by
  cases h <;> rfl

theorem PopTrans.inPop {ops : SegOps W M} {pop pop' : PopPc W} {m m' : M} {pev : List (PopEvent W)}
    (h : PopTrans ops pop m pop' m' pev) {hit miss : ConsumerPc} {c : Consumer C}
    (hhit : hit.inPop = false) (hmiss : miss.inPop = false) (hc : c.pc.inPop = true) :
    pop'.ready = !(afterPop hit miss c pop').pc.inPop := by
  cases h <;> simp [afterPop, PopPc.ready, hhit, hmiss, hc]

theorem ProducerTrans.inPush {cfg : RingConfig} {codec : Codec C} {ops : SegOps W M} {job : Job}
    {j : ι} {now : UInt64} {spurious : Bool} {p p' : Producer C W}
    {push push' : PushPc W} {m m' : M}
    (h : ProducerTrans cfg codec ops job j now spurious p push m p' push' m' ev)
    (hp : push.ready = !p.pc.inPush) : push'.ready = !p'.pc.inPush := by
  cases h with
  | push _ hr => exact (pushTrans_of_step hr).inPush cfg _ _
  | encode => exact inPush_pushCall ..
  | retry => exact inPush_pushCall ..
  | encodeErr hpc => rw [hp, hpc]; rfl
  | finish hpc => rw [hp, hpc]; rfl
  | won hpc => rw [hp, hpc]; rfl
  | lost hpc => rw [hp, hpc]; rfl
  | signal hpc => rw [hp, hpc]; rfl
  | returned hpc => rw [hp, hpc]; rfl

theorem ConsumerTrans.inPop {codec : Codec C} {ops : SegOps W M} {stop : Bool} {c c' : Consumer C}
    {pop pop' : PopPc W} {m m' : M} (h : ConsumerTrans ι codec ops stop c pop m c' pop' m' ev)
    (hp : pop.ready = !c.pc.inPop) : pop'.ready = !c'.pc.inPop := by
  cases h with
  | drain hpc hr => exact hr.inPop rfl (by split <;> rfl) (by rw [hpc]; rfl)
  | recheck hpc hr => exact hr.inPop rfl rfl (by rw [hpc]; rfl)
  | top => rfl
  | storeParked => rfl
  | decodeDrain => rfl
  | halt hpc => rw [hp, hpc]; rfl
  | storeRunningHit hpc => rw [hp, hpc]; rfl
  | addEvents hpc => rw [hp, hpc]; rfl
  | addWire hpc => rw [hp, hpc]; rfl
  | decodeRecheck hpc => rw [hp, hpc]; rfl
  | unparked hpc => rw [hp, hpc]; rfl
  | storeRunning hpc => rw [hp, hpc]; rfl

section Steps

variable [DecidableEq ι] [DecidableEq W] {cfg : RingConfig} {codec : Codec C} {mm : MemModel ι W M}
  {jobs : ι → Job} {s s' : System ι C W M}

omit [DecidableEq W] in
theorem InCalls.relay (h : InCalls s) {j : ι} {p : Producer C W} (hp : p.pc = (s.producer j).pc)
    (token : Bool) (calls : UInt64) : InCalls { s with
      producer := Function.update s.producer j p, token := token, postedCalls := calls } := by
  refine ⟨fun k => ?_, h.pop⟩
  by_cases hk : k = j
  · subst hk
    simpa [hp] using h.push k
  · simpa [hk] using h.push k

theorem InCalls.step (h : InCalls s) {a : SysAction ι}
    (hs : sysStep cfg codec mm jobs s a = some (s', ev)) : InCalls s' := by
  cases sysTrans_of_step hs with
  | @producer j now spurious p push m _ ht =>
    refine ⟨fun k => ?_, h.pop⟩
    by_cases hk : k = j
    · subst hk
      simpa [System.setProducer] using ht.inPush (h.push k)
    · simpa [System.setProducer, hk] using h.push k
  | @send j p hp =>
    exact h.relay hp.pc s.token s.postedCalls
  | @serve j p token calls _ hp =>
    exact h.relay hp.pc token calls
  | @drop j _ =>
    exact h.relay (j := j) (p := { s.producer j with queue := [] }) rfl s.token s.postedCalls
  | @consumer c pop m _ ht =>
    exact ⟨h.push, ht.inPop h.pop⟩
  | @commit t m _ =>
    exact ⟨h.push, h.pop⟩
  | stop =>
    exact ⟨h.push, h.pop⟩

omit [DecidableEq ι] [DecidableEq W] in
theorem inCalls_start (m : M) : InCalls (System.start cfg codec m : System ι C W M) :=
  ⟨fun _ => rfl, rfl⟩

end Steps

/-! ### The ring inside the system -/

section Projection

variable [DecidableEq ι] {cfg : RingConfig} {codec : Codec C} {jobs : ι → Job}

/-- Fewer than `b` reservations between a tail load of a producer and the comparisons made with
it. -/
def sysWindowed (b : Nat) : Machine.Guard (System ι C W M) (SysAction ι) (SysEvent ι W) :=
  fun s log a => ∀ j now spurious, a = .producer j now spurious → (s.producer j).pc.inPush →
    (s.ring.push j).deciding → reservedSince j (ringLog log) < b

/-- The CAS on `consumer_state` is a store of that word, or nothing. -/
theorem segOps_casState_won {m m' : Memory} {expected new : UInt64}
    (h : (segOps cfg).casState expected new m = some (m', true)) :
    (segOps cfg).storeState new m = some m' := by
  obtain ⟨cur, _, h⟩ := Option.bind_eq_some_iff.mp h
  split at h
  · obtain ⟨m1, hm, h⟩ := Option.map_eq_some_iff.mp h
    cases h
    exact hm
  · cases h

theorem segOps_casState_lost {m m' : Memory} {expected new : UInt64}
    (h : (segOps cfg).casState expected new m = some (m', false)) : m' = m := by
  obtain ⟨cur, _, h⟩ := Option.bind_eq_some_iff.mp h
  split at h
  · obtain ⟨m1, _, h⟩ := Option.map_eq_some_iff.mp h
    cases h
  · cases h
    rfl

theorem windowed_of_ne {b : Nat} {r : RingState ι W M} {rlog : List (RingEvent ι W)}
    {a : RingAction ι} (ha : ∀ i spurious, a ≠ .push i spurious) : windowed b r rlog a :=
  fun i spurious h => absurd h (ha i spurious)

variable {s s' : System ι C UInt64 Memory} {log ev : List (SysEvent ι UInt64)} {b : Nat}

theorem producer_ring_step (h : InCalls s) {j : ι} {now : UInt64} {spurious : Bool}
    {p : Producer C UInt64} {push : PushPc UInt64} {m : Memory}
    (hw : sysWindowed b s log (.producer j now spurious))
    (ht : ProducerTrans cfg codec (segOps cfg) (jobs j) j now spurious (s.producer j)
      (s.ring.push j) s.ring.mem p push m ev) :
    ∃ as, (ringMachine ι (segOps cfg)).Run (windowed b) s.ring (ringLog log) as
      (s.setProducer j p push m).ring (ringLog (log ++ ev)) := by
  have hready := h.push j
  have hcall (data : List UInt8) (hr : (s.ring.push j).ready = true) :
      (ringMachine ι (segOps cfg)).Run (windowed b) s.ring (ringLog log) [.call j data]
        (s.setProducer j p (pushCall (segOps cfg) data) s.ring.mem).ring
        (ringLog log ++ [.call j data]) :=
    .single (windowed_of_ne fun _ _ h => by cases h)
      (by simp [ringMachine, ringStep, hr, System.setProducer])
  have hsame : (s.setProducer j p (s.ring.push j) s.ring.mem).ring = s.ring := by
    simp [System.setProducer]
  rw [ringLog_append]
  cases ht with
  | encode hpc _ _ =>
    rw [hpc] at hready
    exact ⟨_, hcall _ hready⟩
  | retry hpc =>
    rw [hpc] at hready
    exact ⟨_, hcall _ hready⟩
  | @push i _ _ _ hpc hr =>
    rw [ringLog_ring]
    refine ⟨[.push j spurious], .single ?_ ?_⟩
    · intro i' _ ha hd
      cases ha
      exact hw j now spurious rfl (by rw [hpc]; rfl) hd
    · simp [ringMachine, ringStep, hr, System.setProducer]
  | won hpc hc =>
    refine ⟨[.state STATE_RUNNING], .single (windowed_of_ne fun _ _ h => by cases h) ?_⟩
    simp [ringMachine, ringStep, segOps_casState_won hc, System.setProducer, ringLog]
  | lost hpc hc =>
    cases segOps_casState_lost hc
    exact ⟨[], by rw [hsame]; simpa [ringLog] using Machine.Run.nil⟩
  | encodeErr => exact ⟨[], by rw [hsame]; simpa [ringLog] using Machine.Run.nil⟩
  | finish => exact ⟨[], by rw [hsame]; simpa [ringLog] using Machine.Run.nil⟩
  | signal => exact ⟨[], by rw [hsame]; simpa [ringLog] using Machine.Run.nil⟩
  | returned => exact ⟨[], by rw [hsame]; simpa [ringLog] using Machine.Run.nil⟩

theorem consumer_ring_step (h : InCalls s) {stop : Bool} {c : Consumer C} {pop : PopPc UInt64}
    {m : Memory}
    (ht : ConsumerTrans ι codec (segOps cfg) stop s.consumer s.ring.pop s.ring.mem c pop
      m ev) :
    ∃ as, (ringMachine ι (segOps cfg)).Run (windowed b) s.ring (ringLog log) as
      (s.setConsumer c pop m).ring (ringLog (log ++ ev)) := by
  have hready := h.pop
  have hne {a : RingAction ι} (ha : ∀ i spurious, a ≠ .push i spurious)
      {r : RingState ι UInt64 Memory}
      {rlog : List (RingEvent ι UInt64)} : windowed b r rlog a := windowed_of_ne ha
  have hcall (hr : s.ring.pop.ready = true) :
      (ringMachine ι (segOps cfg)).Run (windowed b) s.ring (ringLog log) [.popCall s.consumer.buf]
        (s.setConsumer c (.loadHead s.consumer.buf) s.ring.mem).ring
        (ringLog log ++ [.popCall s.consumer.buf]) :=
    .single (hne fun _ _ h => by cases h) (by simp [ringMachine, ringStep, hr, System.setConsumer])
  have hpop {pev : List (PopEvent UInt64)}
      (hr : PopTrans (segOps cfg) s.ring.pop s.ring.mem pop m pev) :
      (ringMachine ι (segOps cfg)).Run (windowed b) s.ring (ringLog log) [.pop]
        (s.setConsumer c pop m).ring (ringLog log ++ pev.map .pop) :=
    .single (hne fun _ _ h => by cases h)
      (by simp [ringMachine, ringStep, hr.step, System.setConsumer])
  have hstore {v : UInt64} (hm : (segOps cfg).storeState v s.ring.mem = some m) :
      (ringMachine ι (segOps cfg)).Run (windowed b) s.ring (ringLog log) [.state v]
        (s.setConsumer c s.ring.pop m).ring (ringLog log ++ []) :=
    .single (hne fun _ _ h => by cases h) (by simp [ringMachine, ringStep, hm, System.setConsumer])
  have hnil : (ringMachine ι (segOps cfg)).Run (windowed b) s.ring (ringLog log) []
      (s.setConsumer c s.ring.pop s.ring.mem).ring (ringLog log ++ []) := by
    simpa [System.setConsumer] using Machine.Run.nil
  rw [ringLog_append]
  cases ht with
  | top hpc _ =>
    rw [hpc] at hready
    exact ⟨_, hcall hready⟩
  | decodeDrain hpc =>
    rw [hpc] at hready
    exact ⟨_, hcall hready⟩
  | drain hpc hr =>
    rw [ringLog_ring]
    exact ⟨_, hpop hr⟩
  | recheck hpc hr =>
    rw [ringLog_ring]
    exact ⟨_, hpop hr⟩
  | storeParked hpc hm =>
    rw [hpc] at hready
    have hr : s.ring.pop.ready = true := hready
    have h2 : (ringMachine ι (segOps cfg)).step
        (s.setConsumer { s.consumer with pc := .recheck } s.ring.pop m).ring
        (.popCall s.consumer.buf) = some ((s.setConsumer { s.consumer with pc := .recheck }
          (.loadHead s.consumer.buf) m).ring, [.popCall s.consumer.buf]) := by
      simp [ringMachine, ringStep, System.setConsumer, hr]
    have hall := (hstore hm).snoc (hne fun _ _ h => by cases h) h2
    exact ⟨_, by simpa [ringLog] using hall⟩
  | storeRunningHit _ hm => exact ⟨_, hstore hm⟩
  | storeRunning _ hm => exact ⟨_, hstore hm⟩
  | halt => exact ⟨_, hnil⟩
  | addEvents => exact ⟨_, hnil⟩
  | addWire => exact ⟨_, hnil⟩
  | decodeRecheck => exact ⟨_, hnil⟩
  | unparked => exact ⟨_, hnil⟩

theorem ring_step (h : InCalls s) {a : SysAction ι} (hw : sysWindowed b s log a)
    (hs : sysStep cfg codec (sc (segOps cfg)) jobs s a = some (s', ev)) :
    ∃ as, (ringMachine ι (segOps cfg)).Run (windowed b) s.ring (ringLog log) as s'.ring
      (ringLog (log ++ ev)) := by
  cases sysTrans_of_step hs with
  | @producer j now spurious p push m _ ht =>
    exact producer_ring_step h hw ht
  | @send j p hp =>
    exact ⟨[], by simpa using Machine.Run.nil⟩
  | @serve j p token calls _ hp =>
    refine ⟨[], ?_⟩
    have hev : ringLog ev = [] := by cases hp <;> rfl
    simpa [hev] using Machine.Run.nil
  | @drop j _ =>
    exact ⟨[], by simpa using Machine.Run.nil⟩
  | @consumer c pop m _ ht =>
    exact consumer_ring_step h ht
  | commit hm => cases hm
  | stop =>
    exact ⟨[], by simpa using Machine.Run.nil⟩

end Projection

end ShmMpsc
