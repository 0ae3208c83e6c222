import ShmMpsc.Control.Torn
import ShmMpsc.System.Notify
import ShmMpsc.System.Wired

/-!
# Connections and notifications

How a producer with its connection stands to the producer of the system, which has a queue and a
socket of notifications instead: one leaves the queue when the server has come to its line, or,
when the client is gone, if its line is with the server.
-/

namespace ShmMpsc

set_option autoImplicit false

variable {ι C M φ : Type}

/-- The notifications that the server has come to. -/
def posts (log : List (StreamEvent φ)) : Nat := (served log).countP ServeEvent.isUnpark

@[simp] theorem posts_append (log ev : List (StreamEvent φ)) :
    posts (log ++ ev) = posts log + posts ev := by
  simp [posts]

/-! ### The ends of a connection -/

section Ends

variable {sj : SerdeJson φ} {hl : sj.OneLine} {cfg : RingConfig} {name : String}
  {s s' : StreamState} {ev log : List (StreamEvent φ)} {taken : List UInt8}
  {done todo : List TextLine}

/-- What the client and its writer task do by themselves. -/
structure ClientStep (s s' : StreamState) (ev : List (StreamEvent φ)) : Prop where
  signals : signals ev = []
  posts : posts ev = 0
  attached : ∀ info, s.client.pc = .attached info → s'.client.pc = .attached info
  shutdown : s.client.pc = .shutdown → s'.client.pc = .shutdown ∨ s'.client.pc = .returned
  returned : s.client.pc = .returned → s'.client.pc = .returned

theorem clientStep_of_step {a : StreamAction} (hcall : a.isCall = false)
    (hserver : ∀ b, a ≠ .server b) (hs : streamStep sj cfg s a = some (s', ev)) :
    ClientStep s s' ev := by
  cases a with
  | signalPosted seq => cases hcall
  | shutdown => cases hcall
  | server b => exact absurd rfl (hserver b)
  | write n =>
    simp only [streamStep] at hs
    split at hs
    · rename_i pending hpc
      split at hs
      · cases hs
        exact ⟨rfl, rfl, by simp [hpc], by simp [hpc], by simp [hpc]⟩
      · cases hs
    · cases hs
  | fill n =>
    simp only [streamStep] at hs
    split at hs
    · rename_i hpc _
      split at hs
      · cases hs
        exact ⟨rfl, rfl, by simp [hpc], by simp [hpc], by simp [hpc]⟩
      · cases hs
    · cases hs
  | scan =>
    simp only [streamStep] at hs
    split at hs
    · rename_i hpc _
      split at hs
      · cases hs
        exact ⟨rfl, rfl, by simp [hpc], by simp [hpc], by simp [hpc]⟩
      · cases hs
        exact ⟨rfl, rfl, by simp [hpc], by simp [hpc], by simp [hpc]⟩
    · cases hs
  | eof =>
    simp only [streamStep] at hs
    split at hs
    · rename_i hpc _ _ _
      cases hs
      exact ⟨rfl, rfl, by simp [hpc], by simp [hpc], by simp [hpc]⟩
    · cases hs
  | recv =>
    simp only [streamStep] at hs
    split at hs
    · cases hs
      exact ⟨rfl, rfl, fun _ h => h, fun h => .inl h, fun h => h⟩
    · cases hs
      exact ⟨rfl, rfl, fun _ h => h, fun h => .inl h, fun h => h⟩
    · cases hs
  | writeTask n =>
    simp only [streamStep] at hs
    split at hs
    · split at hs
      · cases hs
        exact ⟨rfl, rfl, fun _ h => h, fun h => .inl h, fun h => h⟩
      · cases hs
    · cases hs
  | join =>
    simp only [streamStep] at hs
    split at hs
    · rename_i hpc _
      cases hs
      exact ⟨rfl, rfl, by simp [hpc], fun _ => .inr rfl, by simp [hpc]⟩
    · cases hs

/-- A step of `serve` leaves the client alone. -/
theorem serverStep_of_step {b : ServeAction}
    (hs : streamStep sj cfg s (.server b) = some (s', ev)) :
    s'.client = s.client ∧ ∃ sev, ev = sev.map .server ∧
      JsonServer.step sj cfg s.server b = some (s'.server, sev) := by
  obtain ⟨⟨srv, sev⟩, hsrv, heq⟩ := Option.map_eq_some_iff.mp hs
  cases heq
  exact ⟨rfl, sev, rfl, hsrv⟩

theorem AttachInfo.ringConfig_eq (hN : cfg.numSlots.toNat < 2 ^ 32)
    (hS : cfg.slotSize.toNat < 2 ^ 32) :
    (AttachInfo.mk cfg.numSlots.toUInt32 cfg.slotSize.toUInt32).ringConfig = cfg := by
  rw [AttachInfo.ringConfig, toUInt64_toUInt32_iff.mpr hN, toUInt64_toUInt32_iff.mpr hS]

end Ends

/-! ### The relation -/

section Relation

variable {sj : SerdeJson φ} (hl : sj.OneLine) (cfg : RingConfig)

/-- Where `run` and its client stand to each other. -/
def Place (socket queue : List UInt64) (counted : Bool) (client : ClientPc) :
    ProducerPc UInt64 → Prop
  | .returned => client = .returned ∧ queue = []
  | .shutdown => ((∃ info, client = .attached info) ∨ client = .shutdown ∨ client = .returned) ∧
    socket.length = counted.toNat
  | _ => (∃ info, client = .attached info) ∧ socket.length = counted.toNat

/-- The connection stands: what the server has not come to is in the queue, as long as `run` has
not returned. -/
structure Online (name : String) (pc : ProducerPc UInt64) (conn : StreamState) (counted : Bool)
    (log : List (StreamEvent φ)) (socket queue : List UInt64) : Prop where
  stream : ∃ taken done todo, Streaming hl cfg name conn log taken done todo
  waiting : socket ++ queue = (signals log).drop (posts log - counted.toNat)
  place : Place socket queue counted conn.client.pc pc

/-- The client is gone: what its lines at the server say is in the socket, and no more. -/
structure Offline (sj : SerdeJson φ) (cfg : RingConfig) (pc : ProducerPc UInt64)
    (conn : StreamState) (counted : Bool) (log : List (StreamEvent φ))
    (socket queue : List UInt64) : Prop where
  failed : pc.isFailed = true
  gone : conn.dropped = conn
  attached : ∃ info, conn.client.pc = .attached info
  rest : ∃ left lines tail, Torn sj cfg conn.server left lines tail ∧
    socket.length = left + counted.toNat
  waiting : socket <+: (signals log).drop (posts log - counted.toNat)
  empty : queue = []

def Carried (name : String) (pc : ProducerPc UInt64) (conn : StreamState) (counted : Bool)
    (log : List (StreamEvent φ)) (socket queue : List UInt64) : Prop :=
  Online hl cfg name pc conn counted log socket queue ∨
    Offline sj cfg pc conn counted log socket queue

/-- What a producer of the system has of the connection. -/
def Producer.carrying {W : Type} (p q : Producer C W) : Producer C W :=
  { p with queue := q.queue, socket := q.socket, counted := q.counted }

theorem carrying_pc {W : Type} {p q : Producer C W} (h : q = p.carrying q) : q.pc = p.pc := by
  rw [h]
  rfl

theorem carrying_with {W : Type} {p q : Producer C W} (h : q = p.carrying q) (queue socket : List W)
    (counted : Bool) : { q with queue := queue, socket := socket, counted := counted } =
      p.carrying { q with queue := queue, socket := socket, counted := counted } := by
  rw [h]
  rfl

/-- A producer with its connection, and the producer `q` of the system. -/
def Joined (codec : Codec C) (name : String) (run : RunPc C UInt64) (conn : StreamState)
    (counted : Bool) (log : List (StreamEvent φ)) (q : Producer C UInt64) : Prop :=
  match run with
  | .connect => conn = .start sj name ∧ log = [] ∧ counted = false ∧ q = .start cfg codec
  | .recvFd => (conn = .start sj name ∨ conn = (StreamState.start sj name).reply MARKER) ∧
    log = [] ∧ counted = false ∧ q = .start cfg codec
  | .attach => (∃ taken done todo, Streaming hl cfg name conn log taken done todo) ∧
    signals log = [] ∧ counted = false ∧ q = .start cfg codec ∧
    ∀ info, conn.client.pc = .attached info → info.ringConfig = cfg
  | .loop c p => c = cfg ∧ q = p.carrying q ∧ q.counted = counted ∧ counted.toNat ≤ posts log ∧
    posts log ≤ (signals log).length ∧
    Carried hl cfg name p.pc conn counted log q.socket q.queue
  | .failed _ => False

/-- What the two logs say of the notifications of one producer. -/
structure Noted (counted : Bool) (log : List (StreamEvent φ))
    (signalled posted unparked : List UInt64) :
    Prop where
  signalled : signalled = signals log
  posted : posted = (signals log).take (posts log)
  unparked : unparked = (signals log).take (posts log - counted.toNat)

/-- Who has been accepted and waits for the descriptor, and who waits behind. -/
def Wired.waiting (s : Wired ι C M) : List ι :=
  match s.accept with
  | .accept => s.backlog
  | .sendFd j => j :: s.backlog

/-- The system, when `q` is what its producers are. -/
def Wired.system (s : Wired ι C M) (q : ι → Producer C UInt64) : System ι C UInt64 M where
  ring := s.ring
  producer := q
  consumer := s.consumer
  stop := s.stop
  token := s.token
  postedCalls := s.postedCalls

/-- The events that are not about a notification. -/
def SysEvent.isLocal {W : Type} : SysEvent ι W → Bool
  | .signal _ _ | .posted _ _ | .unpark _ _ => false
  | _ => true

structure Conveys [DecidableEq ι] (codec : Codec C) (jobs : ι → Job) (s : Wired ι C M)
    (log : List (WiredEvent ι φ)) (q : ι → Producer C UInt64) (slog : List (SysEvent ι UInt64)) :
    Prop where
  link : ∀ j, Joined hl cfg codec (jobs j).name (s.run j) (s.conn j) (s.counted j)
    (connLog j log) (q j)
  books : ∀ j, Noted (s.counted j) (connLog j log) (owned j (signalled slog))
    (owned j (counted slog))
    (owned j (delivered slog))
  others : slog.filter SysEvent.isLocal = sysLog log
  inLine : s.waiting.Nodup
  waits : ∀ j, j ∈ s.waiting ↔ (s.run j = .recvFd ∧ s.conn j = .start sj (jobs j).name)

end Relation

/-! ### What stays as it is -/

section Frame

variable {W : Type} {sev slog : List (SysEvent ι W)}

theorem local_notes (h : ∀ e ∈ sev, e.isLocal = true) :
    signalled sev = [] ∧ counted sev = [] ∧ delivered sev = [] := by
  refine ⟨?_, ?_, ?_⟩
  all_goals
    refine List.filterMap_eq_nil_iff.mpr fun e he => ?_
    have hlocal := h e he
    cases e <;> first | rfl | cases hlocal

theorem local_ring {α : Type} (f : α → RingEvent ι W) (es : List α) :
    ∀ e ∈ es.map (fun e => SysEvent.ring (f e)), e.isLocal = true := by
  intro e he
  obtain ⟨x, _, rfl⟩ := List.mem_map.mp he
  rfl

end Frame

section Carrying

variable [DecidableEq ι] {sj : SerdeJson φ} {hl : sj.OneLine} {cfg : RingConfig} {codec : Codec C}
  {jobs : ι → Job} {s s' : Wired ι C M} {log ev : List (WiredEvent ι φ)}
  {q : ι → Producer C UInt64} {slog sev : List (SysEvent ι UInt64)}

/-- A step of producer `j`, of its connection or of its `serve`. -/
theorem Conveys.change (h : Conveys hl cfg codec jobs s log q slog) {j : ι} (run : RunPc C UInt64)
    (conn : StreamState) (counted : Bool) (sev : List (SysEvent ι UInt64)) {q' : Producer C UInt64}
    (hrun : s'.run = Function.update s.run j run) (hconn : s'.conn = Function.update s.conn j conn)
    (hcounted : s'.counted = Function.update s.counted j counted)
    (hev : ∀ k, k ≠ j → connLog k ev = [])
    (hsev : ∀ k, k ≠ j → owned k (signalled sev) = [] ∧ owned k (ShmMpsc.counted sev) = [] ∧
      owned k (delivered sev) = [])
    (hothers : sev.filter SysEvent.isLocal = sysLog ev)
    (hlink : Joined hl cfg codec (jobs j).name run conn counted (connLog j log ++ connLog j ev) q')
    (hnoted : Noted counted (connLog j log ++ connLog j ev)
      (owned j (signalled slog) ++ owned j (signalled sev))
      (owned j (ShmMpsc.counted slog) ++ owned j (ShmMpsc.counted sev))
      (owned j (delivered slog) ++ owned j (delivered sev)))
    (hline : s'.waiting.Nodup)
    (hwaits : ∀ k, k ∈ s'.waiting ↔ (s'.run k = .recvFd ∧ s'.conn k = .start sj (jobs k).name)) :
    Conveys hl cfg codec jobs s' (log ++ ev) (Function.update q j q') (slog ++ sev) where
  link := by
    intro k
    rw [hrun, hconn, hcounted, connLog_append]
    by_cases hk : k = j
    · subst hk
      simpa using hlink
    · simpa [hk, hev k hk] using h.link k
  books := by
    intro k
    rw [hcounted, connLog_append]
    by_cases hk : k = j
    · subst hk
      simpa using hnoted
    · obtain ⟨hsig, hcnt, hdel⟩ := hsev k hk
      simpa [hk, hev k hk, hsig, hcnt, hdel] using h.books k
  others := by
    rw [List.filter_append, h.others, hothers, sysLog_append]
  inLine := hline
  waits := hwaits

/-- Nobody comes and nobody is served. -/
theorem Conveys.line (h : Conveys hl cfg codec jobs s log q slog) {j : ι} {run : RunPc C UInt64}
    {conn : StreamState} (hrun : s'.run = Function.update s.run j run)
    (hconn : s'.conn = Function.update s.conn j conn) (hwaiting : s'.waiting = s.waiting)
    (hnot : s.run j ≠ .recvFd) (hnot' : run ≠ .recvFd) :
    s'.waiting.Nodup ∧
      ∀ k, k ∈ s'.waiting ↔ (s'.run k = .recvFd ∧ s'.conn k = .start sj (jobs k).name) := by
  rw [hwaiting]
  refine ⟨h.inLine, fun k => ?_⟩
  rw [h.waits k, hrun, hconn]
  by_cases hk : k = j
  · subst hk
    simp [hnot, hnot']
  · simp [hk]

/-- And `j` has been sent its descriptor. -/
theorem Conveys.own (h : Conveys hl cfg codec jobs s log q slog) {j : ι} (run : RunPc C UInt64)
    (conn : StreamState) (counted : Bool) {q' : Producer C UInt64}
    (hrun : s'.run = Function.update s.run j run) (hconn : s'.conn = Function.update s.conn j conn)
    (hcounted : s'.counted = Function.update s.counted j counted)
    (hwaiting : s'.waiting = s.waiting) (hnot : s.run j ≠ .recvFd) (hnot' : run ≠ .recvFd)
    (hev : ∀ k, k ≠ j → connLog k ev = [])
    (hsev : ∀ k, k ≠ j → owned k (signalled sev) = [] ∧ owned k (ShmMpsc.counted sev) = [] ∧
      owned k (delivered sev) = [])
    (hothers : sev.filter SysEvent.isLocal = sysLog ev)
    (hlink : Joined hl cfg codec (jobs j).name run conn counted (connLog j log ++ connLog j ev) q')
    (hnoted : Noted counted (connLog j log ++ connLog j ev)
      (owned j (signalled slog) ++ owned j (signalled sev))
      (owned j (ShmMpsc.counted slog) ++ owned j (ShmMpsc.counted sev))
      (owned j (delivered slog) ++ owned j (delivered sev))) :
    Conveys hl cfg codec jobs s' (log ++ ev) (Function.update q j q') (slog ++ sev) := by
  obtain ⟨hline, hwaits⟩ := h.line hrun hconn hwaiting hnot hnot'
  exact h.change run conn counted sev hrun hconn hcounted hev hsev hothers hlink hnoted hline hwaits

/-- A step of nobody's connection. -/
theorem Conveys.quiet (h : Conveys hl cfg codec jobs s log q slog) (s' : Wired ι C M)
    (sev : List (SysEvent ι UInt64)) (hrun : s'.run = s.run)
    (hconn : s'.conn = s.conn) (hcounted : s'.counted = s.counted)
    (hwaiting : s'.waiting = s.waiting) (hlocal : ∀ e ∈ sev, e.isLocal = true) :
    Conveys hl cfg codec jobs s' (log ++ sev.map .sys) q (slog ++ sev) where
  link := by
    intro k
    rw [hrun, hconn, hcounted, connLog_append, connLog_sys, List.append_nil]
    exact h.link k
  books := by
    intro k
    obtain ⟨hsig, hcnt, hdel⟩ := local_notes hlocal
    rw [hcounted, connLog_append, connLog_sys, List.append_nil, signalled_append, counted_append,
      delivered_append, hsig, hcnt, hdel, List.append_nil, List.append_nil, List.append_nil]
    exact h.books k
  others := by
    rw [List.filter_append, h.others, sysLog_append, sysLog_sys, List.filter_eq_self.mpr hlocal]
  inLine := by
    rw [hwaiting]
    exact h.inLine
  waits := by
    intro k
    rw [hwaiting, hrun, hconn]
    exact h.waits k

end Carrying

end ShmMpsc
