import ShmMpsc.Control.Attach
import ShmMpsc.Control.Stream
import ShmMpsc.System.Orders

/-!
# The program with its connections

`producer::run` from `connect` on and `server::run` from `accept` on, over sockets that carry
the marker and then the bytes of the JSON control plane. The segment is mapped and prepared;
whose accesses go through which geometry depends on what `attach` has answered.
-/

namespace ShmMpsc

set_option autoImplicit false

variable {ι C M φ : Type}

/-- What `server::run` sends with the descriptor. -/
def MARKER : List UInt8 := [83, 72, 77]

/-- Where `producer::run` stands. -/
inductive RunPc (C W : Type) where
  | connect
  | recvFd
  /-- In `CL::attach`. -/
  | attach
  /-- In the loop and behind it. What `Producer` has of the connection is not used here. -/
  | loop (cfg : RingConfig) (p : Producer C W)
  | failed (err : String)

/-- Where the loop of `server::run` stands. -/
inductive AcceptPc (ι : Type) where
  | accept
  | sendFd (j : ι)

structure Wired (ι C M : Type) where
  ring : RingState ι UInt64 M
  run : ι → RunPc C UInt64
  /-- The connection of every producer, with the client and `serve` at its ends. -/
  conn : ι → StreamState
  /-- Who has connected and was not accepted yet. -/
  backlog : List ι
  accept : AcceptPc ι
  /-- `serve` has been spawned. -/
  spawned : ι → Bool
  /-- `serve` has counted a notification and not called `unpark` yet. -/
  counted : ι → Bool
  consumer : Consumer C
  stop : Bool
  token : Bool
  /-- `stats.posted_calls`, which the connections share. -/
  postedCalls : UInt64

inductive WiredAction (ι : Type) where
  | connect (j : ι)
  | accept
  | sendFd
  | recvFd (j : ι)
  /-- `attach` has returned, and the loop is about to begin. -/
  | begin (j : ι)
  /-- The next step of the loop; `now` is the answer of `now_ns()`. -/
  | producer (j : ι) (now : UInt64) (spurious : Bool)
  /-- A step of the client, of its writer task or of `serve`. -/
  | control (j : ι) (a : StreamAction)
  | unpark (j : ι)
  /-- The runtime of a producer that failed is gone. -/
  | drop (j : ι)
  | consumer
  | commit (thread : Option ι)
  | stop

inductive WiredEvent (ι φ : Type) where
  | sys (e : SysEvent ι UInt64)
  | control (j : ι) (e : StreamEvent φ)
  | unpark (j : ι)

/-- A producer before its first event. -/
def Producer.start {W : Type} (cfg : RingConfig) (codec : Codec C) : Producer C W where
  pc := .encode 0
  codec := codec.new cfg
  scratch := []
  wireBytes := 0
  payloadBytes := 0
  queue := []
  socket := []
  counted := false

/-- The server's end sends `bytes`. -/
def StreamState.reply (s : StreamState) (bytes : List UInt8) : StreamState :=
  { s with server :=
    { s.server with out := { s.server.out with bytes := s.server.out.bytes ++ bytes } } }

/-- The client and its writer task are gone, and their end is closed. -/
def StreamState.dropped (s : StreamState) : StreamState where
  client := { s.client with queue := [], writer := .done }
  server := { s.server with inp := { s.server.inp with closed := true } }

section Step

variable [DecidableEq ι] (sj : SerdeJson φ) (cfg : RingConfig) (codec : Codec C)
  (mm : RingConfig → MemModel ι UInt64 M) (jobs : ι → Job)

/-- A step of `run` from the loop on, where `c` is the geometry it goes by. -/
def loopStep (s : Wired ι C M) (j : ι) (c : RingConfig) (p : Producer C UInt64) (now : UInt64)
    (spurious : Bool) : Option (Wired ι C M × List (WiredEvent ι φ)) :=
  match p.pc with
  | .signal i seq =>
    (streamStep sj cfg (s.conn j) (.signalPosted seq)).map fun r =>
      ({ s with
        run := Function.update s.run j (.loop c { p with pc := .encode (i + 1) })
        conn := Function.update s.conn j r.1 }, r.2.map (.control j))
  | .shutdown =>
    match (s.conn j).client.pc with
    | .returned =>
      some ({ s with run := Function.update s.run j (.loop c { p with pc := .returned }) }, [])
    | _ =>
      (streamStep sj cfg (s.conn j) .shutdown).map fun r =>
        ({ s with conn := Function.update s.conn j r.1 }, r.2.map (.control j))
  | _ =>
    (producerStep c codec ((mm c).producer j) (jobs j) j now spurious p (s.ring.push j)
      s.ring.mem).map fun r =>
        ({ s with
          ring := { s.ring with push := Function.update s.ring.push j r.2.1, mem := r.2.2.1 }
          run := Function.update s.run j (.loop c r.1) }, r.2.2.2.map .sys)

section Loop

variable {sj cfg codec mm jobs} {s : Wired ι C M} {j : ι} {c : RingConfig} {p : Producer C UInt64}
  {now : UInt64} {spurious : Bool}

theorem loopStep_signal {i seq : UInt64} (hpc : p.pc = .signal i seq) :
    loopStep sj cfg codec mm jobs s j c p now spurious =
      (streamStep sj cfg (s.conn j) (.signalPosted seq)).map fun r =>
        ({ s with
          run := Function.update s.run j (.loop c { p with pc := .encode (i + 1) })
          conn := Function.update s.conn j r.1 }, r.2.map (.control j)) := by
  unfold loopStep
  rw [hpc]

theorem loopStep_returned (hpc : p.pc = .shutdown) (hclient : (s.conn j).client.pc = .returned) :
    loopStep sj cfg codec mm jobs s j c p now spurious =
      some ({ s with run := Function.update s.run j (.loop c { p with pc := .returned }) },
        []) := by
  unfold loopStep
  rw [hpc, hclient]

theorem loopStep_shutdown (hpc : p.pc = .shutdown) (hclient : (s.conn j).client.pc ≠ .returned) :
    loopStep sj cfg codec mm jobs s j c p now spurious =
      (streamStep sj cfg (s.conn j) .shutdown).map fun r =>
        ({ s with conn := Function.update s.conn j r.1 }, r.2.map (.control j)) := by
  unfold loopStep
  rw [hpc]
  cases hc : (s.conn j).client.pc with
  | returned => exact absurd hc hclient
  | _ => rfl

/-- Otherwise it is `producerStep`. -/
theorem loopStep_producer (hsignal : ∀ i seq, p.pc ≠ .signal i seq) (hshutdown : p.pc ≠ .shutdown) :
    loopStep sj cfg codec mm jobs s j c p now spurious =
      (producerStep c codec ((mm c).producer j) (jobs j) j now spurious p (s.ring.push j)
        s.ring.mem).map fun r =>
          ({ s with
            ring := { s.ring with push := Function.update s.ring.push j r.2.1, mem := r.2.2.1 }
            run := Function.update s.run j (.loop c r.1) }, r.2.2.2.map .sys) := by
  unfold loopStep
  cases hpc : p.pc with
  | signal i seq => exact absurd hpc (hsignal i seq)
  | shutdown => exact absurd hpc hshutdown
  | _ => rfl

end Loop

/-- A step at the ends of a connection. -/
def controlStep (s : Wired ι C M) (j : ι) (a : StreamAction) :
    Option (Wired ι C M × List (WiredEvent ι φ)) :=
  match a with
  | .server _ =>
    if s.spawned j ∧ s.counted j = false then
      (streamStep sj cfg (s.conn j) a).map fun r =>
        let posted := (served r.2).any ServeEvent.isUnpark
        ({ s with
          conn := Function.update s.conn j r.1
          counted := Function.update s.counted j posted
          postedCalls := if posted then s.postedCalls + 1 else s.postedCalls },
        r.2.map (.control j))
    else none
  | _ =>
    if a.isCall then none
    else match s.run j with
      | .attach | .loop _ _ =>
        (streamStep sj cfg (s.conn j) a).map fun r =>
          ({ s with conn := Function.update s.conn j r.1 }, r.2.map (.control j))
      | _ => none

def wiredStep (s : Wired ι C M) : WiredAction ι → Option (Wired ι C M × List (WiredEvent ι φ))
  | .connect j =>
    match s.run j with
    | .connect =>
      some ({ s with run := Function.update s.run j .recvFd, backlog := s.backlog ++ [j] }, [])
    | _ => none
  | .accept =>
    match s.accept, s.backlog with
    | .accept, j :: rest => some ({ s with accept := .sendFd j, backlog := rest }, [])
    | _, _ => none
  | .sendFd =>
    match s.accept with
    | .sendFd j =>
      some ({ s with
        accept := .accept
        conn := Function.update s.conn j ((s.conn j).reply MARKER)
        spawned := Function.update s.spawned j true }, [])
    | .accept => none
  | .recvFd j =>
    match s.run j, (s.conn j).server.out.bytes with
    | .recvFd, b :: bytes =>
      -- one `recvmsg` into a buffer of 64 bytes
      let marker := (b :: bytes).take 64
      let next := if marker = MARKER then .attach else .failed s!"unexpected marker: {marker}"
      let out := { (s.conn j).server.out with bytes := (b :: bytes).drop 64 }
      some ({ s with
        run := Function.update s.run j next
        conn := Function.update s.conn j
          { s.conn j with server := { (s.conn j).server with out := out } } }, [])
    | _, _ => none
  | .begin j =>
    match s.run j, (s.conn j).client.pc with
    | .attach, .attached info =>
      let c := info.ringConfig
      some ({ s with run := Function.update s.run j (.loop c (.start c codec)) }, [])
    | _, _ => none
  | .producer j now spurious =>
    match s.run j with
    | .loop c p => loopStep sj cfg codec mm jobs s j c p now spurious
    | _ => none
  | .control j a => controlStep sj cfg s j a
  | .unpark j =>
    if s.counted j then
      some ({ s with counted := Function.update s.counted j false, token := true }, [.unpark j])
    else none
  | .drop j =>
    match s.run j with
    | .loop _ p =>
      if p.pc.isFailed then
        some ({ s with conn := Function.update s.conn j (s.conn j).dropped }, [])
      else none
    | _ => none
  | .consumer =>
    (consumerStep codec (mm cfg).consumer s.stop s.consumer s.ring.pop s.ring.mem).map fun r =>
      ({ s with
        ring := { s.ring with pop := r.2.1, mem := r.2.2.1 }
        consumer := r.1
        token := match s.consumer.pc with | .park => false | _ => s.token }, r.2.2.2.map .sys)
  | .commit thread =>
    ((mm cfg).commit thread s.ring.mem).map fun m =>
      ({ s with ring := { s.ring with mem := m } }, [])
  | .stop => some ({ s with stop := true }, [])

def wiredMachine : Machine (Wired ι C M) (WiredAction ι) (WiredEvent ι φ) where
  step := wiredStep sj cfg codec mm jobs

/-- `server::run` listens, the consumer has been spawned, and nobody has connected. -/
def Wired.start (m : M) : Wired ι C M where
  ring := RingState.start m
  run := fun _ => .connect
  conn := fun j => .start sj (jobs j).name
  backlog := []
  accept := .accept
  spawned := fun _ => false
  counted := fun _ => false
  consumer := {
    pc := .stop
    buf := []
    decoded := .empty
    codec := codec.new cfg
    stats := { events := 0, wireBytes := 0, payloadBytes := 0 } }
  stop := false
  token := false
  postedCalls := 0

end Step

/-- A run on a memory that is prepared with `init`, under sequential consistency. -/
def WiredRun [DecidableEq ι] (sj : SerdeJson φ) (cfg : RingConfig) (codec : Codec C)
    (jobs : ι → Job) (as : List (WiredAction ι)) (s : Wired ι C Memory)
    (log : List (WiredEvent ι φ)) : Prop :=
  ∃ m m', m.size = cfg.total.toNat ∧ init cfg m = some m' ∧
    (wiredMachine sj cfg codec (fun c => sc (segOps c)) jobs).Run Machine.free
      (Wired.start sj cfg codec jobs m') [] as s log

section Log

variable [DecidableEq ι] (log ev : List (WiredEvent ι φ))

/-- What the log says of the ring, the codecs and the park. -/
def sysLog : List (WiredEvent ι φ) → List (SysEvent ι UInt64) :=
  List.filterMap fun
    | .sys e => some e
    | _ => none

/-- What it says of one connection. -/
def connLog (j : ι) : List (WiredEvent ι φ) → List (StreamEvent φ) :=
  List.filterMap fun
    | .control k e => if k = j then some e else none
    | _ => none

omit [DecidableEq ι] in
@[simp] theorem sysLog_append : sysLog (log ++ ev) = sysLog log ++ sysLog ev :=
  List.filterMap_append

@[simp] theorem connLog_append (j : ι) : connLog j (log ++ ev) = connLog j log ++ connLog j ev :=
  List.filterMap_append

@[simp] theorem connLog_nil (j : ι) : connLog j ([] : List (WiredEvent ι φ)) = [] := rfl

theorem connLog_signal (j : ι) (seq : UInt64) :
    connLog j [(.control j (.signal seq) : WiredEvent ι φ)] = [.signal seq] := by
  simp [connLog]

@[simp] theorem connLog_unpark (j k : ι) : connLog j [(.unpark k : WiredEvent ι φ)] = [] := rfl

omit [DecidableEq ι] in
@[simp] theorem sysLog_sys (es : List (SysEvent ι UInt64)) :
    sysLog (es.map (WiredEvent.sys (φ := φ))) = es := by
  simp [sysLog]

omit [DecidableEq ι] in
@[simp] theorem sysLog_control (j : ι) (es : List (StreamEvent φ)) :
    sysLog (es.map (WiredEvent.control j)) = [] := by
  simp [sysLog]

@[simp] theorem connLog_sys (j : ι) (es : List (SysEvent ι UInt64)) :
    connLog j (es.map (WiredEvent.sys (φ := φ))) = [] := by
  simp [connLog]

@[simp] theorem connLog_control_self (j : ι) (es : List (StreamEvent φ)) :
    connLog j (es.map (WiredEvent.control j)) = es := by
  simp [connLog]

theorem connLog_control_of_ne {j k : ι} (h : k ≠ j) (es : List (StreamEvent φ)) :
    connLog k (es.map (WiredEvent.control j)) = [] := by
  simp [connLog, h.symm]

end Log

end ShmMpsc
