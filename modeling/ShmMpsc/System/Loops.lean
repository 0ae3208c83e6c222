import ShmMpsc.Proto.Codec
import ShmMpsc.Ring.Algorithm

/-!
# `producer::run` and `consumer_loop`

The hot loop of every producer, the relay of its `posted` notifications and the
consumer, one atomic access or one hop of a notification a step. How a thread reaches
the memory is a parameter.
-/

namespace ShmMpsc

set_option autoImplicit false

/-- The accesses of every thread, and the stores the memory still has to make by itself. -/
structure MemModel (ι W M : Type) where
  producer : ι → SegOps W M
  consumer : SegOps W M
  /-- The oldest waiting store of a producer, or of the consumer (`none`), reaches the memory. -/
  commit : Option ι → M → Option M

/-- The arguments of `producer::run`; `payload` is what `gen_base64_blob(payload_size)` returned. -/
structure Job where
  name : String
  n : UInt64
  payload : List UInt8

def oneEvent : Unit → Job := fun _ => { name := "p0", n := 1, payload := [7] }

/-- Where `producer::run` stands with event `i`. -/
inductive ProducerPc (W : Type) where
  | encode (i : UInt64)
  | push (i : UInt64)
  /-- In the 50 µs sleep after `Full`. -/
  | sleep (i : UInt64)
  /-- Before `compare_exchange(STATE_PARKED, STATE_RUNNING)`. -/
  | casState (i : UInt64) (seq : W)
  | signal (i : UInt64) (seq : W)
  /-- In `client.shutdown()`, until the writer task is done. -/
  | shutdown
  | returned
  | failed (err : String)
  deriving DecidableEq

/-- A producer with its end of the connection. -/
structure Producer (C W : Type) where
  pc : ProducerPc W
  codec : C
  scratch : List UInt8
  wireBytes : UInt64
  payloadBytes : UInt64
  /-- `posted_tx`, up to the notification the writer task is writing. -/
  queue : List W
  /-- Written by the client and not handled by `serve` yet. -/
  socket : List W
  /-- `serve` has counted the first of them and not called `unpark` yet. -/
  counted : Bool

/-- Where a message that is being accounted was popped. -/
inductive Site where
  | drain (drained : UInt32)
  | recheck
  deriving DecidableEq

inductive ConsumerPc where
  /-- Before `stop.load`. -/
  | stop
  /-- In `try_pop` of the drain loop. -/
  | drain (drained : UInt32)
  | storeParked
  /-- In `try_pop` after the `PARKED` store. -/
  | recheck
  /-- The re-check found a message. -/
  | storeRunningHit
  | addEvents (site : Site)
  | addWire (site : Site)
  | decode (site : Site)
  /-- In `park_timeout`. -/
  | park
  | storeRunning
  | returned
  deriving DecidableEq

structure ConsumerStats where
  events : UInt64
  wireBytes : UInt64
  payloadBytes : UInt64
  deriving DecidableEq

structure Consumer (C : Type) where
  pc : ConsumerPc
  buf : List UInt8
  decoded : DecodedEvent
  codec : C
  stats : ConsumerStats

structure System (ι C W M : Type) where
  ring : RingState ι W M
  producer : ι → Producer C W
  consumer : Consumer C
  /-- `handles.stop`. -/
  stop : Bool
  /-- The consumer thread's unpark token. -/
  token : Bool
  postedCalls : UInt64

inductive SysAction (ι : Type) where
  /-- The next step of `run`; `now` is the answer of `now_ns()`. -/
  | producer (i : ι) (now : UInt64) (spurious : Bool)
  /-- The writer task writes a notification to the socket. -/
  | send (i : ι)
  /-- `serve` takes its next step on a notification. -/
  | serve (i : ι)
  /-- The runtime of a producer that failed is gone, and the writer task with it. -/
  | drop (i : ι)
  | consumer
  | commit (thread : Option ι)
  /-- The bench stores `stop`. -/
  | stop

inductive SysEvent (ι W : Type) where
  | ring (e : RingEvent ι W)
  | encode (i : ι) (seq now : UInt64) (data : List UInt8)
  | casState (i : ι) (won : Bool)
  | signal (i : ι) (seq : W)
  | posted (i : ι) (seq : W)
  | unpark (i : ι) (seq : W)
  /-- The consumer stores `consumer_state`. -/
  | storeState (v : UInt64)
  | unparked
  deriving DecidableEq

section Steps

variable {ι C W M : Type}

/-- Where `run` goes on once `push` has returned. -/
def afterPush (cfg : RingConfig) (scratch : List UInt8) (i : UInt64) : PushPc W → ProducerPc W
  | .done (.ok seq) => .casState i seq
  | .done (.error .full) => .sleep i
  | .done (.error .tooBig) =>
    .failed s!"payload too big: {scratch.length} > slot capacity {cfg.maxLen}"
  | _ => .push i

/-- `push(base_ptr, cfg, &scratch)` is called. -/
def enterPush (cfg : RingConfig) (ops : SegOps W M) (j : ι) (i : UInt64)
    (p : Producer C W) (m : M) :
    Producer C W × PushPc W × M × List (SysEvent ι W) :=
  let push := pushCall ops p.scratch
  ({ p with pc := afterPush cfg p.scratch i push }, push, m, [.ring (.call j p.scratch)])

/-- The encoding of an event is in `scratch` and in the totals. -/
def Producer.encoded (job : Job) (c : C) (data : List UInt8) (p : Producer C W) : Producer C W :=
  { p with
    codec := c
    scratch := data
    wireBytes := p.wireBytes + UInt64.ofNat data.length
    payloadBytes := p.payloadBytes + UInt64.ofNat job.payload.length }

/-- One step of `producer::run`. -/
def producerStep (cfg : RingConfig) (codec : Codec C) (ops : SegOps W M) (job : Job) (j : ι)
    (now : UInt64) (spurious : Bool) (p : Producer C W) (push : PushPc W) (m : M) :
    Option (Producer C W × PushPc W × M × List (SysEvent ι W)) :=
  match p.pc with
  | .encode i =>
    if i < job.n then
      match codec.encode p.codec i now job.name .metric job.payload [] with
      | .error e => some ({ p with pc := .failed e }, push, m, [])
      | .ok (c, data) =>
        let r := enterPush cfg ops j i (p.encoded job c data) m
        some (r.1, r.2.1, r.2.2.1, .encode j i now data :: r.2.2.2)
    else some ({ p with pc := .shutdown }, push, m, [])
  | .push i =>
    (pushStep ops spurious push m).map fun r =>
      ({ p with pc := afterPush cfg p.scratch i r.1 }, r.1, r.2.1,
        r.2.2.map fun e => .ring (.push j e))
  | .sleep i => some (enterPush cfg ops j i p m)
  | .casState i seq =>
    (ops.casState STATE_PARKED STATE_RUNNING m).map fun r =>
      ({ p with pc := if r.2 then .signal i seq else .encode (i + 1) }, push, r.1,
        [.casState j r.2])
  | .signal i seq =>
    some ({ p with pc := .encode (i + 1), queue := p.queue ++ [seq] }, push, m, [.signal j seq])
  | .shutdown => if p.queue = [] then some ({ p with pc := .returned }, push, m, []) else none
  | .returned => none
  | .failed _ => none

/-- `try_pop(base, cfg, &mut buf)` is called. -/
def enterPop (pc : ConsumerPc) (c : Consumer C) (m : M) (ev : List (SysEvent ι W)) :
    Consumer C × PopPc W × M × List (SysEvent ι W) :=
  ({ c with pc := pc }, .loadHead c.buf, m, ev ++ [.ring (.popCall c.buf)])

/-- Where the consumer goes on once `try_pop` has returned. -/
def afterPop (hit miss : ConsumerPc) (c : Consumer C) : PopPc W → Consumer C
  | .done (some _) out => { c with buf := out, pc := hit }
  | .done none out => { c with buf := out, pc := miss }
  | _ => c

/-- `decode_into(&buf, &mut decoded)`, and its payload bytes if that returned `Ok`. -/
def Consumer.decode (codec : Codec C) (c : Consumer C) : Consumer C :=
  let r := codec.decodeInto c.codec c.buf c.decoded
  let added := if r.2.2 then UInt64.ofNat r.2.1.payload.length else 0
  { c with
    codec := r.1
    decoded := r.2.1
    stats := { c.stats with payloadBytes := c.stats.payloadBytes + added } }

/-- One step of `consumer_loop`. -/
def consumerStep [DecidableEq W] (codec : Codec C) (ops : SegOps W M) (stop : Bool) (c : Consumer C)
    (pop : PopPc W) (m : M) : Option (Consumer C × PopPc W × M × List (SysEvent ι W)) :=
  match c.pc with
  | .stop =>
    if stop then some ({ c with pc := .returned }, pop, m, [])
    else some (enterPop (.drain 0) c m [])
  | .drain drained =>
    (popStep ops pop m).map fun r =>
      (afterPop (.addEvents (.drain (drained + 1))) (if drained = 0 then .storeParked else .stop) c
        r.1, r.1, r.2.1, r.2.2.map fun e => .ring (.pop e))
  | .storeParked =>
    (ops.storeState STATE_PARKED m).map fun m => enterPop .recheck c m [.storeState STATE_PARKED]
  | .recheck =>
    (popStep ops pop m).map fun r =>
      (afterPop .storeRunningHit .park c r.1, r.1, r.2.1, r.2.2.map fun e => .ring (.pop e))
  | .storeRunningHit =>
    (ops.storeState STATE_RUNNING m).map fun m =>
      ({ c with pc := .addEvents .recheck }, pop, m, [.storeState STATE_RUNNING])
  | .addEvents site =>
    some ({ c with pc := .addWire site, stats := { c.stats with events := c.stats.events + 1 } },
      pop, m, [])
  | .addWire site =>
    some ({ c with
      pc := .decode site
      stats := { c.stats with wireBytes := c.stats.wireBytes + UInt64.ofNat c.buf.length } },
      pop, m, [])
  | .decode (.drain drained) => some (enterPop (.drain drained) (c.decode codec) m [])
  | .decode .recheck => some ({ c.decode codec with pc := .stop }, pop, m, [])
  | .park => some ({ c with pc := .storeRunning }, pop, m, [.unparked])
  | .storeRunning =>
    (ops.storeState STATE_RUNNING m).map fun m =>
      ({ c with pc := .stop }, pop, m, [.storeState STATE_RUNNING])
  | .returned => none

/-- What `serve` does with the first notification of a connection: count it, then `unpark`. -/
def serveStep (j : ι) (p : Producer C W) (token : Bool) (postedCalls : UInt64) :
    Option (Producer C W × Bool × UInt64 × List (SysEvent ι W)) :=
  match p.socket with
  | [] => none
  | seq :: rest =>
    if p.counted then
      some ({ p with socket := rest, counted := false }, true, postedCalls, [.unpark j seq])
    else some ({ p with counted := true }, token, postedCalls + 1, [.posted j seq])

/-- The writer task takes a notification off the queue and writes it. -/
def sendStep (p : Producer C W) : Option (Producer C W) :=
  match p.queue with
  | [] => none
  | seq :: rest => some { p with queue := rest, socket := p.socket ++ [seq] }

def ProducerPc.isFailed : ProducerPc W → Bool
  | .failed _ => true
  | _ => false

/-- All that one step of `producer::run` can do. -/
inductive ProducerTrans (cfg : RingConfig) (codec : Codec C) (ops : SegOps W M) (job : Job) (j : ι)
    (now : UInt64) (spurious : Bool) (p : Producer C W) (push : PushPc W) (m : M) :
    Producer C W → PushPc W → M → List (SysEvent ι W) → Prop where
  | encodeErr {i e} : p.pc = .encode i → i < job.n →
      codec.encode p.codec i now job.name .metric job.payload [] = .error e →
      ProducerTrans cfg codec ops job j now spurious p push m { p with pc := .failed e } push m []
  | encode {i c data} : p.pc = .encode i → i < job.n →
      codec.encode p.codec i now job.name .metric job.payload [] = .ok (c, data) →
      ProducerTrans cfg codec ops job j now spurious p push m
        { p.encoded job c data with pc := afterPush cfg data i (pushCall ops data) }
        (pushCall ops data) m [.encode j i now data, .ring (.call j data)]
  | finish {i} : p.pc = .encode i → ¬ i < job.n →
      ProducerTrans cfg codec ops job j now spurious p push m { p with pc := .shutdown } push m []
  | push {i push' m' ev} : p.pc = .push i → pushStep ops spurious push m = some (push', m', ev) →
      ProducerTrans cfg codec ops job j now spurious p push m
        { p with pc := afterPush cfg p.scratch i push' } push' m'
          (ev.map fun e => .ring (.push j e))
  | retry {i} : p.pc = .sleep i →
      ProducerTrans cfg codec ops job j now spurious p push m
        { p with pc := afterPush cfg p.scratch i (pushCall ops p.scratch) }
        (pushCall ops p.scratch) m [.ring (.call j p.scratch)]
  | won {i seq m'} : p.pc = .casState i seq →
      ops.casState STATE_PARKED STATE_RUNNING m = some (m', true) →
      ProducerTrans cfg codec ops job j now spurious p push m { p with pc := .signal i seq } push m'
        [.casState j true]
  | lost {i seq m'} : p.pc = .casState i seq →
      ops.casState STATE_PARKED STATE_RUNNING m = some (m', false) →
      ProducerTrans cfg codec ops job j now spurious p push m
        { p with pc := .encode (i + 1) } push m'
        [.casState j false]
  | signal {i seq} : p.pc = .signal i seq →
      ProducerTrans cfg codec ops job j now spurious p push m
        { p with pc := .encode (i + 1), queue := p.queue ++ [seq] } push m [.signal j seq]
  | returned : p.pc = .shutdown → p.queue = [] →
      ProducerTrans cfg codec ops job j now spurious p push m { p with pc := .returned } push m []

theorem producerTrans_of_step {cfg : RingConfig} {codec : Codec C} {ops : SegOps W M} {job : Job}
    {j : ι} {now : UInt64} {spurious : Bool} {p p' : Producer C W}
    {push push' : PushPc W} {m m' : M} {ev : List (SysEvent ι W)}
    (h : producerStep cfg codec ops job j now spurious p push m = some (p', push', m', ev)) :
    ProducerTrans cfg codec ops job j now spurious p push m p' push' m' ev := by
  unfold producerStep at h
  split at h
  · rename_i i hpc
    split at h
    · rename_i hi
      split at h
      · rename_i e he
        cases h
        exact .encodeErr hpc hi he
      · rename_i c data he
        cases h
        exact .encode hpc hi he
    · rename_i hi
      cases h
      exact .finish hpc hi
  · rename_i i hpc
    obtain ⟨r, hr, h⟩ := Option.map_eq_some_iff.mp h
    cases h
    exact .push hpc hr
  · rename_i i hpc
    cases h
    exact .retry hpc
  · rename_i i seq hpc
    obtain ⟨⟨m1, won⟩, hc, h⟩ := Option.map_eq_some_iff.mp h
    cases h
    cases won with
    | true => exact .won hpc hc
    | false => exact .lost hpc hc
  · rename_i i seq hpc
    cases h
    exact .signal hpc
  · rename_i hpc
    split at h
    · rename_i hq
      cases h
      exact .returned hpc hq
    · cases h
  · cases h
  · cases h

theorem ProducerTrans.step {cfg : RingConfig} {codec : Codec C} {ops : SegOps W M} {job : Job}
    {j : ι} {now : UInt64} {spurious : Bool} {p p' : Producer C W}
    {push push' : PushPc W} {m m' : M} {ev : List (SysEvent ι W)}
    (h : ProducerTrans cfg codec ops job j now spurious p push m p' push' m' ev) :
    producerStep cfg codec ops job j now spurious p push m = some (p', push', m', ev) := by
  cases h with
  | encodeErr hpc hi he => simp [producerStep, hpc, hi, he]
  | encode hpc hi he => simp [producerStep, hpc, hi, he, enterPush, Producer.encoded]
  | finish hpc hi => simp [producerStep, hpc, hi]
  | push hpc hr => simp [producerStep, hpc, hr]
  | retry hpc => simp [producerStep, hpc, enterPush]
  | won hpc hc => simp [producerStep, hpc, hc]
  | lost hpc hc => simp [producerStep, hpc, hc]
  | signal hpc => simp [producerStep, hpc]
  | returned hpc hq => simp [producerStep, hpc, hq]

/-- All that one step of the writer task can do. -/
inductive SendTrans (p : Producer C W) : Producer C W → Prop where
  | write {seq rest} : p.queue = seq :: rest →
      SendTrans p { p with queue := rest, socket := p.socket ++ [seq] }

theorem sendTrans_of_step {p p' : Producer C W} (h : sendStep p = some p') : SendTrans p p' := by
  unfold sendStep at h
  split at h
  · cases h
  · rename_i hq
    cases h
    exact .write hq

theorem SendTrans.step {p p' : Producer C W} (h : SendTrans p p') : sendStep p = some p' := by
  obtain ⟨hq⟩ := h
  simp [sendStep, hq]

theorem SendTrans.pc {p p' : Producer C W} (h : SendTrans p p') : p'.pc = p.pc := by
  cases h
  rfl

/-- All that one step of `serve` can do. -/
inductive ServeTrans (j : ι) (p : Producer C W) (token : Bool) (calls : UInt64) :
    Producer C W → Bool → UInt64 → List (SysEvent ι W) → Prop where
  | count {seq rest} : p.socket = seq :: rest → p.counted = false →
      ServeTrans j p token calls { p with counted := true } token (calls + 1) [.posted j seq]
  | unpark {seq rest} : p.socket = seq :: rest → p.counted = true →
      ServeTrans j p token calls { p with socket := rest, counted := false } true calls
        [.unpark j seq]

section Serve

variable {j : ι} {p p' : Producer C W} {token token' : Bool} {calls calls' : UInt64}
  {ev : List (SysEvent ι W)}

theorem serveTrans_of_step (h : serveStep j p token calls = some (p', token', calls', ev)) :
    ServeTrans j p token calls p' token' calls' ev := by
  unfold serveStep at h
  split at h
  · cases h
  · rename_i hsocket
    split at h
    · rename_i hc
      cases h
      exact .unpark hsocket hc
    · rename_i hc
      cases h
      exact .count hsocket (Bool.not_eq_true _ ▸ hc)

theorem ServeTrans.step (h : ServeTrans j p token calls p' token' calls' ev) :
    serveStep j p token calls = some (p', token', calls', ev) := by
  cases h with
  | count hsocket hc => simp [serveStep, hsocket, hc]
  | unpark hsocket hc => simp [serveStep, hsocket, hc]

theorem ServeTrans.pc (h : ServeTrans j p token calls p' token' calls' ev) : p'.pc = p.pc := by
  cases h <;> rfl

end Serve

/-- All that one step of `consumer_loop` can do. -/
inductive ConsumerTrans (ι : Type) (codec : Codec C) (ops : SegOps W M) (stop : Bool)
    (c : Consumer C) (pop : PopPc W) (m : M) :
    Consumer C → PopPc W → M → List (SysEvent ι W) → Prop where
  | halt : c.pc = .stop → stop = true →
      ConsumerTrans ι codec ops stop c pop m { c with pc := .returned } pop m []
  | top : c.pc = .stop → stop = false →
      ConsumerTrans ι codec ops stop c pop m { c with pc := .drain 0 } (.loadHead c.buf) m
        [.ring (.popCall c.buf)]
  | drain {drained pop' m' ev} : c.pc = .drain drained → PopTrans ops pop m pop' m' ev →
      ConsumerTrans ι codec ops stop c pop m
        (afterPop (.addEvents (.drain (drained + 1)))
          (if drained = 0 then .storeParked else .stop) c pop') pop' m'
        (ev.map fun e => .ring (.pop e))
  | storeParked {m'} : c.pc = .storeParked → ops.storeState STATE_PARKED m = some m' →
      ConsumerTrans ι codec ops stop c pop m { c with pc := .recheck } (.loadHead c.buf) m'
        [.storeState STATE_PARKED, .ring (.popCall c.buf)]
  | recheck {pop' m' ev} : c.pc = .recheck → PopTrans ops pop m pop' m' ev →
      ConsumerTrans ι codec ops stop c pop m (afterPop .storeRunningHit .park c pop') pop' m'
        (ev.map fun e => .ring (.pop e))
  | storeRunningHit {m'} : c.pc = .storeRunningHit → ops.storeState STATE_RUNNING m = some m' →
      ConsumerTrans ι codec ops stop c pop m { c with pc := .addEvents .recheck } pop m'
        [.storeState STATE_RUNNING]
  | addEvents {site} : c.pc = .addEvents site →
      ConsumerTrans ι codec ops stop c pop m
        { c with pc := .addWire site, stats := { c.stats with events := c.stats.events + 1 } }
        pop m []
  | addWire {site} : c.pc = .addWire site →
      ConsumerTrans ι codec ops stop c pop m
        { c with
          pc := .decode site
          stats := { c.stats with wireBytes := c.stats.wireBytes + UInt64.ofNat c.buf.length } }
        pop m []
  | decodeDrain {drained} : c.pc = .decode (.drain drained) →
      ConsumerTrans ι codec ops stop c pop m { c.decode codec with pc := .drain drained }
        (.loadHead c.buf) m [.ring (.popCall c.buf)]
  | decodeRecheck : c.pc = .decode .recheck →
      ConsumerTrans ι codec ops stop c pop m { c.decode codec with pc := .stop } pop m []
  | unparked : c.pc = .park →
      ConsumerTrans ι codec ops stop c pop m { c with pc := .storeRunning } pop m [.unparked]
  | storeRunning {m'} : c.pc = .storeRunning → ops.storeState STATE_RUNNING m = some m' →
      ConsumerTrans ι codec ops stop c pop m { c with pc := .stop } pop m'
        [.storeState STATE_RUNNING]

theorem afterPop_pc (hit miss : ConsumerPc) (c : Consumer C) (pop : PopPc W) :
    (afterPop hit miss c pop).pc = hit ∨ (afterPop hit miss c pop).pc = miss ∨
      (afterPop hit miss c pop).pc = c.pc := by
  unfold afterPop
  split
  · exact .inl rfl
  · exact .inr (.inl rfl)
  · exact .inr (.inr rfl)

/-- Only a `try_pop` that returned `None` leads to where the loop goes on without a message. -/
theorem afterPop_pc_of_ne {hit miss : ConsumerPc} {c : Consumer C} {pop : PopPc W}
    (h : ∀ out, pop ≠ .done none out) :
    (afterPop hit miss c pop).pc = hit ∨ (afterPop hit miss c pop).pc = c.pc := by
  unfold afterPop
  split
  · exact .inl rfl
  · exact absurd rfl (h _)
  · exact .inr rfl

theorem consumerTrans_of_step [DecidableEq W] {codec : Codec C} {ops : SegOps W M} {stop : Bool}
    {c c' : Consumer C} {pop pop' : PopPc W} {m m' : M} {ev : List (SysEvent ι W)}
    (h : consumerStep codec ops stop c pop m = some (c', pop', m', ev)) :
    ConsumerTrans ι codec ops stop c pop m c' pop' m' ev := by
  unfold consumerStep at h
  split at h
  · rename_i hpc
    split at h
    · rename_i hstop
      cases h
      exact .halt hpc hstop
    · rename_i hstop
      cases h
      exact .top hpc (by simpa using hstop)
  · rename_i drained hpc
    obtain ⟨r, hr, h⟩ := Option.map_eq_some_iff.mp h
    cases h
    exact .drain hpc (popTrans_of_step hr)
  · rename_i hpc
    obtain ⟨m1, hm, h⟩ := Option.map_eq_some_iff.mp h
    cases h
    exact .storeParked hpc hm
  · rename_i hpc
    obtain ⟨r, hr, h⟩ := Option.map_eq_some_iff.mp h
    cases h
    exact .recheck hpc (popTrans_of_step hr)
  · rename_i hpc
    obtain ⟨m1, hm, h⟩ := Option.map_eq_some_iff.mp h
    cases h
    exact .storeRunningHit hpc hm
  · rename_i site hpc
    cases h
    exact .addEvents hpc
  · rename_i site hpc
    cases h
    exact .addWire hpc
  · rename_i drained hpc
    cases h
    exact .decodeDrain hpc
  · rename_i hpc
    cases h
    exact .decodeRecheck hpc
  · rename_i hpc
    cases h
    exact .unparked hpc
  · rename_i hpc
    obtain ⟨m1, hm, h⟩ := Option.map_eq_some_iff.mp h
    cases h
    exact .storeRunning hpc hm
  · cases h

theorem ConsumerTrans.step [DecidableEq W] {codec : Codec C} {ops : SegOps W M} {stop : Bool}
    {c c' : Consumer C} {pop pop' : PopPc W} {m m' : M} {ev : List (SysEvent ι W)}
    (h : ConsumerTrans ι codec ops stop c pop m c' pop' m' ev) :
    consumerStep codec ops stop c pop m = some (c', pop', m', ev) := by
  cases h with
  | halt hpc hstop => simp [consumerStep, hpc, hstop]
  | top hpc hstop => simp [consumerStep, hpc, hstop, enterPop]
  | drain hpc hr => simp [consumerStep, hpc, hr.step]
  | storeParked hpc hm => simp [consumerStep, hpc, hm, enterPop]
  | recheck hpc hr => simp [consumerStep, hpc, hr.step]
  | storeRunningHit hpc hm => simp [consumerStep, hpc, hm]
  | addEvents hpc => simp [consumerStep, hpc]
  | addWire hpc => simp [consumerStep, hpc]
  | decodeDrain hpc => simp [consumerStep, hpc, enterPop, Consumer.decode]
  | decodeRecheck hpc => simp [consumerStep, hpc]
  | unparked hpc => simp [consumerStep, hpc]
  | storeRunning hpc hm => simp [consumerStep, hpc, hm]

end Steps

section Machine

variable {ι C W M : Type} [DecidableEq ι] [DecidableEq W]

/-- Producer `j` has taken a step. -/
def System.setProducer (s : System ι C W M) (j : ι) (p : Producer C W) (push : PushPc W) (m : M) :
    System ι C W M :=
  { s with
    ring := { s.ring with push := Function.update s.ring.push j push, mem := m }
    producer := Function.update s.producer j p }

/-- The consumer has taken a step; `park_timeout` takes the token with it when it returns. -/
def System.setConsumer (s : System ι C W M) (c : Consumer C) (pop : PopPc W) (m : M) :
    System ι C W M :=
  { s with
    ring := { s.ring with pop := pop, mem := m }
    consumer := c
    token := match s.consumer.pc with | .park => false | _ => s.token }

def sysStep (cfg : RingConfig) (codec : Codec C) (mm : MemModel ι W M) (jobs : ι → Job)
    (s : System ι C W M) : SysAction ι → Option (System ι C W M × List (SysEvent ι W))
  | .producer j now spurious =>
    (producerStep cfg codec (mm.producer j) (jobs j) j now spurious (s.producer j) (s.ring.push j)
      s.ring.mem).map fun r => (s.setProducer j r.1 r.2.1 r.2.2.1, r.2.2.2)
  | .send j =>
    (sendStep (s.producer j)).map fun p =>
      ({ s with producer := Function.update s.producer j p }, [])
  | .serve j =>
    (serveStep j (s.producer j) s.token s.postedCalls).map fun r =>
      ({ s with
        producer := Function.update s.producer j r.1
        token := r.2.1
        postedCalls := r.2.2.1 }, r.2.2.2)
  | .drop j =>
    if (s.producer j).pc.isFailed then
      some ({ s with
        producer := Function.update s.producer j { s.producer j with queue := [] } }, [])
    else none
  | .consumer =>
    (consumerStep codec mm.consumer s.stop s.consumer s.ring.pop s.ring.mem).map fun r =>
      (s.setConsumer r.1 r.2.1 r.2.2.1, r.2.2.2)
  | .commit thread =>
    (mm.commit thread s.ring.mem).map fun m => ({ s with ring := { s.ring with mem := m } }, [])
  | .stop => some ({ s with stop := true }, [])

/-- All that one step of the system can do. -/
inductive SysTrans (cfg : RingConfig) (codec : Codec C) (mm : MemModel ι W M) (jobs : ι → Job)
    (s : System ι C W M) : SysAction ι → System ι C W M → List (SysEvent ι W) → Prop where
  | producer {j now spurious p push m ev} :
      ProducerTrans cfg codec (mm.producer j) (jobs j) j now spurious (s.producer j) (s.ring.push j)
        s.ring.mem p push m ev →
      SysTrans cfg codec mm jobs s (.producer j now spurious) (s.setProducer j p push m) ev
  | consumer {c pop m ev} :
      ConsumerTrans ι codec mm.consumer s.stop s.consumer s.ring.pop s.ring.mem c pop m ev →
      SysTrans cfg codec mm jobs s .consumer (s.setConsumer c pop m) ev
  | send {j p} : SendTrans (s.producer j) p →
      SysTrans cfg codec mm jobs s (.send j)
        { s with producer := Function.update s.producer j p } []
  | serve {j p token calls ev} :
      ServeTrans j (s.producer j) s.token s.postedCalls p token calls ev →
      SysTrans cfg codec mm jobs s (.serve j) { s with
        producer := Function.update s.producer j p, token := token, postedCalls := calls } ev
  | drop {j} : (s.producer j).pc.isFailed = true →
      SysTrans cfg codec mm jobs s (.drop j) { s with
        producer := Function.update s.producer j { s.producer j with queue := [] } } []
  | commit {thread m} : mm.commit thread s.ring.mem = some m →
      SysTrans cfg codec mm jobs s (.commit thread) { s with ring := { s.ring with mem := m } } []
  | stop : SysTrans cfg codec mm jobs s .stop { s with stop := true } []

theorem sysTrans_of_step {cfg : RingConfig} {codec : Codec C} {mm : MemModel ι W M} {jobs : ι → Job}
    {s s' : System ι C W M} {a : SysAction ι} {ev : List (SysEvent ι W)}
    (h : sysStep cfg codec mm jobs s a = some (s', ev)) : SysTrans cfg codec mm jobs s a s' ev := by
  cases a with
  | producer j now spurious =>
    obtain ⟨⟨p, push, m, pev⟩, hp, h⟩ := Option.map_eq_some_iff.mp h
    cases h
    exact .producer (producerTrans_of_step hp)
  | consumer =>
    obtain ⟨⟨c, pop, m, pev⟩, hp, h⟩ := Option.map_eq_some_iff.mp h
    cases h
    exact .consumer (consumerTrans_of_step hp)
  | send j =>
    obtain ⟨p, hp, h⟩ := Option.map_eq_some_iff.mp h
    cases h
    exact .send (sendTrans_of_step hp)
  | serve j =>
    obtain ⟨⟨p, token, calls, pev⟩, hp, h⟩ := Option.map_eq_some_iff.mp h
    cases h
    exact .serve (serveTrans_of_step hp)
  | drop j =>
    simp only [sysStep] at h
    split at h
    · rename_i hf
      cases h
      exact .drop hf
    · cases h
  | commit thread =>
    obtain ⟨m, hm, h⟩ := Option.map_eq_some_iff.mp h
    cases h
    exact .commit hm
  | stop =>
    cases h
    exact .stop

def sysMachine (cfg : RingConfig) (codec : Codec C) (mm : MemModel ι W M) (jobs : ι → Job) :
    Machine (System ι C W M) (SysAction ι) (SysEvent ι W) where
  step := sysStep cfg codec mm jobs

/-- Every party before its first step. -/
def System.start (cfg : RingConfig) (codec : Codec C) (m : M) : System ι C W M where
  ring := RingState.start m
  producer := fun _ => {
    pc := .encode 0
    codec := codec.new cfg
    scratch := []
    wireBytes := 0
    payloadBytes := 0
    queue := []
    socket := []
    counted := false }
  consumer := {
    pc := .stop
    buf := []
    decoded := .empty
    codec := codec.new cfg
    stats := { events := 0, wireBytes := 0, payloadBytes := 0 } }
  stop := false
  token := false
  postedCalls := 0

end Machine

end ShmMpsc
