import Mathlib.Data.List.Perm.Basic
import ShmMpsc.Lib.Machine

/-!
# `CapnpClient`

`signal_posted` spawns a task that sends the request; `shutdown` disconnects at once and waits for
nothing but the connection. The caller and the tasks share one thread: a task has its turn when the
caller awaits something.
-/

namespace ShmMpsc

set_option autoImplicit false

variable {W : Type}

inductive CallerPc where
  | running
  /-- At an await of its own. -/
  | awaiting
  /-- In `shutdown`. -/
  | disconnecting
  | returned
  deriving DecidableEq, Repr

/-- A `CapnpClient` with the task that serves its connection and the server's end of it. -/
structure CapnpSession (W : Type) where
  caller : CallerPc
  /-- Tasks of `signal_posted` that have not been polled, by their `seq`. -/
  spawned : List W
  connected : Bool
  /-- Requests sent on the connection and not written to the socket yet. -/
  sent : List W
  /-- Written, and not handled by the server yet. -/
  socket : List W
  postedCalls : UInt64
  /-- The consumer thread's unpark token. -/
  token : Bool

/-- What is used of `capnp_rpc`: the requests that a connection still writes of those that were
sent on it when it was torn down. -/
structure CapnpConn (W : Type) where
  torn : List W → List W

/-- The write queue stops when it is empty. -/
structure CapnpConn.Documented (rpc : CapnpConn W) : Prop where
  writesOut : ∀ sent, rpc.torn sent = sent

inductive CapnpAction (W : Type) where
  /-- The caller calls `signal_posted(seq)`. -/
  | signal (seq : W)
  | await
  | resume
  /-- The first poll of an unpolled task. -/
  | poll (i : Nat)
  /-- The connection's task writes a request. -/
  | write
  /-- The caller calls `shutdown`, which polls the disconnector. -/
  | shutdown
  /-- The connection's task is done, and so is `shutdown`. -/
  | finish
  /-- `ControlImpl::posted` runs for the next request. -/
  | serve
  /-- The `LocalSet` is dropped with its tasks. -/
  | drop

inductive CapnpNote (W : Type) where
  | signal (seq : W)
  /-- The task has sent its request, or failed to. -/
  | polled (seq : W)
  | torn
  | posted (seq : W)
  deriving DecidableEq

def CapnpSession.start : CapnpSession W where
  caller := .running
  spawned := []
  connected := true
  sent := []
  socket := []
  postedCalls := 0
  token := false

def capnpStep (rpc : CapnpConn W) (s : CapnpSession W) :
    CapnpAction W → Option (CapnpSession W × List (CapnpNote W))
  | .signal seq =>
    if s.caller = .running then some ({ s with spawned := s.spawned ++ [seq] }, [.signal seq])
    else none
  | .await => if s.caller = .running then some ({ s with caller := .awaiting }, []) else none
  | .resume => if s.caller = .awaiting then some ({ s with caller := .running }, []) else none
  | .poll i =>
    if s.caller = .running then none
    else
      s.spawned[i]?.map fun seq =>
        ({ s with
          spawned := s.spawned.eraseIdx i
          sent := if s.connected then s.sent ++ [seq] else s.sent }, [.polled seq])
  | .write =>
    if s.caller = .running then none
    else
      match s.sent with
      | [] => none
      | seq :: rest => some ({ s with sent := rest, socket := s.socket ++ [seq] }, [])
  | .shutdown =>
    if s.caller = .running then
      some ({ s with caller := .disconnecting, connected := false, sent := rpc.torn s.sent },
        [.torn])
    else none
  | .finish =>
    if s.caller = .disconnecting ∧ s.sent = [] then some ({ s with caller := .returned }, [])
    else none
  | .serve =>
    match s.socket with
    | [] => none
    | seq :: rest =>
      some ({ s with socket := rest, postedCalls := s.postedCalls + 1, token := true },
        [.posted seq])
  | .drop => if s.caller = .returned then some ({ s with spawned := [] }, []) else none

def capnpMachine (rpc : CapnpConn W) : Machine (CapnpSession W) (CapnpAction W) (CapnpNote W) where
  step := capnpStep rpc

/-- All that one step of the session can do. -/
inductive CapnpTrans (rpc : CapnpConn W) (s : CapnpSession W) :
    CapnpAction W → CapnpSession W → List (CapnpNote W) → Prop where
  | signal {seq} : s.caller = .running →
      CapnpTrans rpc s (.signal seq) { s with spawned := s.spawned ++ [seq] } [.signal seq]
  | await : s.caller = .running → CapnpTrans rpc s .await { s with caller := .awaiting } []
  | resume : s.caller = .awaiting → CapnpTrans rpc s .resume { s with caller := .running } []
  | poll {i seq} : s.caller ≠ .running → s.spawned[i]? = some seq →
      CapnpTrans rpc s (.poll i)
        { s with
          spawned := s.spawned.eraseIdx i
          sent := if s.connected then s.sent ++ [seq] else s.sent } [.polled seq]
  | write {seq rest} : s.caller ≠ .running → s.sent = seq :: rest →
      CapnpTrans rpc s .write { s with sent := rest, socket := s.socket ++ [seq] } []
  | shutdown : s.caller = .running →
      CapnpTrans rpc s .shutdown
        { s with caller := .disconnecting, connected := false, sent := rpc.torn s.sent } [.torn]
  | finish : s.caller = .disconnecting → s.sent = [] →
      CapnpTrans rpc s .finish { s with caller := .returned } []
  | serve {seq rest} : s.socket = seq :: rest →
      CapnpTrans rpc s .serve
        { s with socket := rest, postedCalls := s.postedCalls + 1, token := true } [.posted seq]
  | drop : s.caller = .returned → CapnpTrans rpc s .drop { s with spawned := [] } []

theorem capnpTrans_of_step {rpc : CapnpConn W} {s s' : CapnpSession W} {a : CapnpAction W}
    {ev : List (CapnpNote W)} (h : capnpStep rpc s a = some (s', ev)) :
    CapnpTrans rpc s a s' ev := by
  cases a with
  | signal seq =>
    obtain ⟨hcaller, heq⟩ := Option.ite_none_right_eq_some.mp h
    cases heq
    exact .signal hcaller
  | await =>
    obtain ⟨hcaller, heq⟩ := Option.ite_none_right_eq_some.mp h
    cases heq
    exact .await hcaller
  | resume =>
    obtain ⟨hcaller, heq⟩ := Option.ite_none_right_eq_some.mp h
    cases heq
    exact .resume hcaller
  | poll i =>
    obtain ⟨hcaller, h⟩ := Option.ite_none_left_eq_some.mp h
    obtain ⟨seq, hseq, heq⟩ := Option.map_eq_some_iff.mp h
    cases heq
    exact .poll hcaller hseq
  | write =>
    obtain ⟨hcaller, h⟩ := Option.ite_none_left_eq_some.mp h
    split at h
    · cases h
    · rename_i hsent
      cases h
      exact .write hcaller hsent
  | shutdown =>
    obtain ⟨hcaller, heq⟩ := Option.ite_none_right_eq_some.mp h
    cases heq
    exact .shutdown hcaller
  | finish =>
    obtain ⟨⟨hcaller, hsent⟩, heq⟩ := Option.ite_none_right_eq_some.mp h
    cases heq
    exact .finish hcaller hsent
  | serve =>
    simp only [capnpStep] at h
    split at h
    · cases h
    · rename_i hsocket
      cases h
      exact .serve hsocket
  | drop =>
    obtain ⟨hcaller, heq⟩ := Option.ite_none_right_eq_some.mp h
    cases heq
    exact .drop hcaller

/-! ### What a log says -/

namespace CapnpNote

def signals : List (CapnpNote W) → List W :=
  List.filterMap fun
    | .signal seq => some seq
    | _ => none

def polls : List (CapnpNote W) → List W :=
  List.filterMap fun
    | .polled seq => some seq
    | _ => none

def posts : List (CapnpNote W) → List W :=
  List.filterMap fun
    | .posted seq => some seq
    | _ => none

def isTorn : CapnpNote W → Bool
  | .torn => true
  | _ => false

/-- Up to the call of `shutdown`. -/
def beforeShutdown (log : List (CapnpNote W)) : List (CapnpNote W) :=
  log.takeWhile fun e => !e.isTorn

variable {log ev : List (CapnpNote W)}

@[simp] theorem signals_append : signals (log ++ ev) = signals log ++ signals ev :=
  List.filterMap_append

@[simp] theorem polls_append : polls (log ++ ev) = polls log ++ polls ev :=
  List.filterMap_append

@[simp] theorem posts_append : posts (log ++ ev) = posts log ++ posts ev :=
  List.filterMap_append

/-- Nothing comes before `shutdown` any more once it has been called. -/
theorem beforeShutdown_of_mem (h : .torn ∈ log) :
    beforeShutdown (log ++ ev) = beforeShutdown log := by
  induction log with
  | nil => cases h
  | cons e log ih =>
    rw [List.cons_append, beforeShutdown, beforeShutdown, List.takeWhile_cons, List.takeWhile_cons]
    rcases List.mem_cons.mp h with rfl | h
    · rfl
    · split
      · exact congrArg (e :: ·) (ih h)
      · rfl

theorem beforeShutdown_of_not_mem (h : .torn ∉ log) :
    beforeShutdown (log ++ ev) = log ++ beforeShutdown ev := by
  refine List.takeWhile_append_of_pos fun e he => ?_
  cases e with
  | torn => exact absurd he h
  | _ => rfl

end CapnpNote

open CapnpNote

/-- Every task that `signal_posted` spawned has had its first poll before `shutdown` is called. -/
def PolledInTime (log : List (CapnpNote W)) : Prop :=
  (polls (beforeShutdown log)).Perm (signals (beforeShutdown log))

/-- However it goes on, `posted` has run once for each call when the server has handled what is in
the socket. -/
def PostedOnce (rpc : CapnpConn W) (s : CapnpSession W) (log : List (CapnpNote W)) : Prop :=
  ∀ as s' log', (capnpMachine rpc).Run Machine.free s log as s' log' → s'.socket = [] →
    (posts log').Perm (signals log')

/-! ### Where a request is -/

/-- While the connection is up a request is with its task, sent, written or handled; afterwards
what had not been sent is lost. -/
structure Couriered (s : CapnpSession W) (log : List (CapnpNote W)) : Prop where
  up : s.connected = true → .torn ∉ log ∧ (s.caller = .running ∨ s.caller = .awaiting) ∧
    (signals log).Perm (polls log ++ s.spawned) ∧
    (polls log).Perm (posts log ++ s.socket ++ s.sent)
  down : s.connected = false → .torn ∈ log ∧ (s.caller = .disconnecting ∨ s.caller = .returned) ∧
    signals log = signals (beforeShutdown log) ∧
    (polls (beforeShutdown log)).Perm (posts log ++ s.socket ++ s.sent)
  returned : s.caller = .returned → s.sent = []

variable {rpc : CapnpConn W} {s s' : CapnpSession W} {log ev : List (CapnpNote W)}

theorem couriered_start : Couriered (CapnpSession.start : CapnpSession W) [] where
  up := fun _ => ⟨List.not_mem_nil, .inl rfl, .nil, .nil⟩
  down := fun h => by cases h
  returned := fun h => by cases h

/-- Once torn, all that may change is where the requests are that had been sent. -/
theorem Couriered.stay_down (h : Couriered s log) (hdown : s.connected = false)
    (hdown' : s'.connected = false) (hcaller : s'.caller = .disconnecting ∨ s'.caller = .returned)
    (hsignals : signals ev = [])
    (hperm : (posts log ++ s.socket ++ s.sent).Perm (posts (log ++ ev) ++ s'.socket ++ s'.sent))
    (hreturned : s'.caller = .returned → s'.sent = []) : Couriered s' (log ++ ev) := by
  obtain ⟨htorn, _, hsig, hpolls⟩ := h.down hdown
  refine ⟨fun hup => ?_, fun _ => ⟨List.mem_append_left ev htorn, hcaller, ?_, ?_⟩, hreturned⟩
  · rw [hdown'] at hup
    cases hup
  · rw [beforeShutdown_of_mem htorn, signals_append, hsignals, List.append_nil]
    exact hsig
  · rw [beforeShutdown_of_mem htorn]
    exact hpolls.trans hperm

theorem Couriered.stay_up (hup' : s'.connected = true)
    (hcaller : s'.caller = .running ∨ s'.caller = .awaiting) (hlog : .torn ∉ log) (hev : .torn ∉ ev)
    (hsignals : (signals (log ++ ev)).Perm (polls (log ++ ev) ++ s'.spawned))
    (hpolls : (polls (log ++ ev)).Perm (posts (log ++ ev) ++ s'.socket ++ s'.sent)) :
    Couriered s' (log ++ ev) := by
  refine ⟨fun _ => ⟨?_, hcaller, hsignals, hpolls⟩, fun hdown => ?_, fun hreturned => ?_⟩
  · intro h
    rcases List.mem_append.mp h with h | h
    · exact hlog h
    · exact hev h
  · rw [hup'] at hdown
    cases hdown
  · rcases hcaller with hcaller | hcaller <;> rw [hreturned] at hcaller <;> cases hcaller

/-- The caller is in `shutdown` or past it exactly when the connection has been torn down. -/
theorem Couriered.connected (h : Couriered s log)
    (hcaller : s.caller = .running ∨ s.caller = .awaiting) :
    s.connected = true := by
  cases hconn : s.connected with
  | true => rfl
  | false =>
    obtain ⟨_, hdown, _⟩ := h.down hconn
    rcases hcaller with hcaller | hcaller <;> rw [hcaller] at hdown <;>
      rcases hdown with hd | hd <;> cases hd

theorem Couriered.disconnected (h : Couriered s log)
    (hcaller : s.caller = .disconnecting ∨ s.caller = .returned) : s.connected = false := by
  cases hconn : s.connected with
  | false => rfl
  | true =>
    obtain ⟨_, hup, _⟩ := h.up hconn
    rcases hcaller with hcaller | hcaller <;> rw [hcaller] at hup <;> rcases hup with hu | hu <;>
      cases hu

/-- A step that is not the caller's: a task's first poll, a write or a request handled. What is
polled after `shutdown` is sent nowhere. -/
theorem Couriered.move (h : Couriered s log) (hconn : s'.connected = s.connected)
    (hcaller : s'.caller = s.caller) (hev : .torn ∉ ev) (hsignals : signals ev = [])
    (hspawned : s.spawned.Perm (polls ev ++ s'.spawned))
    (hsent : (s.socket ++ s.sent ++ if s.connected then polls ev else []).Perm
      (posts ev ++ s'.socket ++ s'.sent))
    (hreturned : s.sent = [] → s.connected = false → s'.sent = []) : Couriered s' (log ++ ev) := by
  rcases s.connected.eq_false_or_eq_true with hup | hdown
  · obtain ⟨htorn, hrunning, hsig, hpolls⟩ := h.up hup
    rw [hup, if_pos rfl] at hsent
    refine .stay_up (hconn.trans hup) (by rwa [hcaller]) htorn hev ?_ ?_
    · rw [signals_append, hsignals, List.append_nil, polls_append, List.append_assoc]
      exact hsig.trans (hspawned.append_left _)
    · rw [polls_append, posts_append]
      have hboth := hpolls.append_right (polls ev)
      have hmoved := hsent.append_left (posts log)
      simp only [List.append_assoc] at hboth hmoved ⊢
      exact hboth.trans hmoved
  · obtain ⟨_, hdone, _⟩ := h.down hdown
    rw [hdown] at hsent
    refine h.stay_down hdown (hconn.trans hdown) (by rwa [hcaller]) hsignals ?_ ?_
    · rw [posts_append]
      simpa using hsent.append_left (posts log)
    · rw [hcaller]
      exact fun hret => hreturned (h.returned hret) hdown

theorem Couriered.step (hrpc : rpc.Documented) (h : Couriered s log) {a : CapnpAction W}
    (hs : capnpStep rpc s a = some (s', ev)) : Couriered s' (log ++ ev) := by
  cases capnpTrans_of_step hs with
  | @signal seq hcaller =>
    have hconn := h.connected (.inl hcaller)
    obtain ⟨htorn, _, hsignals, hpolls⟩ := h.up hconn
    refine .stay_up hconn (.inl hcaller) htorn (by simp) ?_ ?_
    · simpa [signals, polls, ← List.append_assoc] using hsignals.append_right [seq]
    · simpa [polls, posts] using hpolls
  | await hcaller =>
    have hconn := h.connected (.inl hcaller)
    obtain ⟨htorn, _, hsignals, hpolls⟩ := h.up hconn
    exact .stay_up hconn (.inr rfl) htorn (by simp) (by simpa using hsignals)
      (by simpa using hpolls)
  | resume hcaller =>
    have hconn := h.connected (.inr hcaller)
    obtain ⟨htorn, _, hsignals, hpolls⟩ := h.up hconn
    exact .stay_up hconn (.inl rfl) htorn (by simp) (by simpa using hsignals)
      (by simpa using hpolls)
  | @poll i seq _ hseq =>
    obtain ⟨hlt, hget⟩ := List.getElem?_eq_some_iff.mp hseq
    have hspawned : s.spawned.Perm (seq :: s.spawned.eraseIdx i) := by
      rw [← hget]
      exact (List.getElem_cons_eraseIdx_perm hlt).symm
    refine h.move rfl rfl (by simp) rfl hspawned ?_ ?_
    · cases s.connected <;> simp [posts, polls]
    · intro hsent hdown
      simpa [hdown] using hsent
  | @write seq rest _ hsent =>
    refine h.move rfl rfl (by simp) rfl (.refl _) ?_ ?_
    · simp [hsent, posts, polls]
    · rw [hsent]
      exact fun hnil => absurd hnil (List.cons_ne_nil seq rest)
  | shutdown hcaller =>
    obtain ⟨htorn, _, _, hpolls⟩ := h.up (h.connected (.inl hcaller))
    have hbefore : beforeShutdown (log ++ [.torn]) = log := by
      rw [beforeShutdown_of_not_mem htorn]
      exact List.append_nil log
    refine ⟨fun hup => (by cases hup), fun _ => ⟨by simp, .inl rfl, ?_, ?_⟩,
      fun hr => (by cases hr)⟩
    · rw [hbefore, signals_append]
      exact List.append_nil _
    · rw [hbefore]
      simpa [hrpc.writesOut, posts] using hpolls
  | finish hcaller hsent =>
    have hconn := h.disconnected (.inl hcaller)
    exact h.stay_down hconn hconn (.inr rfl) rfl (by simp) fun _ => hsent
  | serve hsocket =>
    refine h.move rfl rfl (by simp) rfl (.refl _) ?_ fun hsent _ => hsent
    simp [hsocket, posts, polls]
  | drop hcaller =>
    have hconn := h.disconnected (.inr hcaller)
    exact h.stay_down hconn hconn (.inr hcaller) rfl (by simp) h.returned

/-! ### Returned -/

theorem returned_stays (h : s.caller = .returned) {a : CapnpAction W}
    (hs : capnpStep rpc s a = some (s', ev)) : s'.caller = .returned := by
  cases capnpTrans_of_step hs with
  | signal hcaller | await hcaller | resume hcaller | shutdown hcaller =>
    rw [h] at hcaller
    cases hcaller
  | finish => rfl
  | poll | write | serve | drop => exact h

theorem exists_drained (s : CapnpSession W) (log : List (CapnpNote W)) :
    ∃ as s' log', (capnpMachine rpc).Run Machine.free s log as s' log' ∧ s'.socket = [] := by
  cases s with | mk caller spawned connected sent socket postedCalls token
  induction socket generalizing postedCalls token log with
  | nil => exact ⟨[], _, log, .nil, rfl⟩
  | cons seq rest ih =>
    obtain ⟨as, s', log', hrun, hs'⟩ := ih (log ++ [.posted seq]) (postedCalls + 1) true
    have hserve : (capnpMachine rpc).step
        ⟨caller, spawned, connected, sent, seq :: rest, postedCalls, token⟩ .serve =
        some (⟨caller, spawned, connected, sent, rest, postedCalls + 1, true⟩, [.posted seq]) := rfl
    have hone : (capnpMachine rpc).Run Machine.free
        ⟨caller, spawned, connected, sent, seq :: rest, postedCalls, token⟩ log [.serve] _ _ :=
      .single trivial hserve
    exact ⟨_, s', log', hone.trans hrun, hs'⟩

theorem couriered (hrpc : rpc.Documented) {as : List (CapnpAction W)}
    (hrun : (capnpMachine rpc).Run Machine.free .start [] as s log) : Couriered s log :=
  hrun.invariant couriered_start fun _ _ _ _ _ h _ hs => h.step hrpc hs

/-- With nothing left to handle, `posted` has run for the tasks polled before `shutdown`. -/
theorem Couriered.settled (h : Couriered s log) (hreturned : s.caller = .returned)
    (hsocket : s.socket = []) : (posts log).Perm (signals log) ↔ PolledInTime log := by
  obtain ⟨_, _, hsignals, hpolls⟩ := h.down (h.disconnected (.inr hreturned))
  rw [hsocket, h.returned hreturned, List.append_nil, List.append_nil] at hpolls
  rw [hsignals]
  exact ⟨fun hposts => hpolls.trans hposts, fun hpolled => hpolls.symm.trans hpolled⟩

theorem posted_once_iff (hrpc : rpc.Documented) {as : List (CapnpAction W)}
    (hrun : (capnpMachine rpc).Run Machine.free .start [] as s log)
    (hreturned : s.caller = .returned) :
    PostedOnce rpc s log ↔ PolledInTime log := by
  have htorn : .torn ∈ log :=
    ((couriered hrpc hrun).down ((couriered hrpc hrun).disconnected (.inr hreturned))).1
  -- whatever follows, the calls and polls before `shutdown` are those of `log`
  have hsettled : ∀ bs s' log', (capnpMachine rpc).Run Machine.free s log bs s' log' →
      s'.socket = [] → ((posts log').Perm (signals log') ↔ PolledInTime log) := by
    intro bs s' log' hrun' hsocket
    have hreturned' : s'.caller = .returned :=
      hrun'.invariant (I := fun s _ => s.caller = .returned) hreturned
        fun _ _ _ _ _ h _ hs => returned_stays h hs
    have hiff := (couriered hrpc (hrun.trans hrun')).settled hreturned' hsocket
    obtain ⟨ev, rfl⟩ := hrun'.log_prefix
    rwa [PolledInTime, beforeShutdown_of_mem htorn] at hiff
  constructor
  · intro honce
    obtain ⟨bs, s', log', hrun', hsocket⟩ := exists_drained s log
    exact (hsettled bs s' log' hrun' hsocket).mp (honce bs s' log' hrun' hsocket)
  · intro hpolled bs s' log' hrun' hsocket
    exact (hsettled bs s' log' hrun' hsocket).mpr hpolled

/-- A session whose caller awaits something between its calls and `shutdown`: both tasks run then,
here the later one first. -/
theorem posted_once_polled :
    PostedOnce (⟨id⟩ : CapnpConn UInt64) ⟨.returned, [], false, [], [8, 7], 0, false⟩
      [.signal 7, .signal 8, .polled 8, .polled 7, .torn] := by
  have hexec : (capnpMachine (⟨id⟩ : CapnpConn UInt64)).exec (.start, [])
      [.signal 7, .signal 8, .await, .poll 1, .poll 0, .resume, .shutdown, .write,
        .write, .finish] =
      some (⟨.returned, [], false, [], [8, 7], 0, false⟩,
        [.signal 7, .signal 8, .polled 8, .polled 7, .torn]) := rfl
  exact (posted_once_iff ⟨fun _ => rfl⟩ (Machine.run_of_exec hexec) rfl).mpr (.swap 7 8 [])

/-- The caller reaches no await between its call and `shutdown`: the task runs too late. -/
theorem posted_lost :
    ∃ as s log, (capnpMachine (⟨id⟩ : CapnpConn UInt64)).Run Machine.free .start [] as s log ∧
      s.caller = .returned ∧ s.spawned = [] ∧ ¬ PostedOnce (⟨id⟩ : CapnpConn UInt64) s log := by
  have hexec : (capnpMachine (⟨id⟩ : CapnpConn UInt64)).exec (.start, [])
      [.signal 7, .shutdown, .poll 0, .finish] =
      some (⟨.returned, [], false, [], [], 0, false⟩, [.signal 7, .torn, .polled 7]) := rfl
  refine ⟨_, _, _, Machine.run_of_exec hexec, rfl, rfl, fun honce => ?_⟩
  have hperm := honce [] _ _ .nil rfl
  simp [posts, signals] at hperm

end ShmMpsc
