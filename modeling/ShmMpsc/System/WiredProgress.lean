import ShmMpsc.System.Progress
import ShmMpsc.System.WiredRun

/-!
# Notifications arrive

A connection of the program runs as it does alone, and what has been signalled never waits for
anything but the next step of its client, its writer task or its `serve`, of which there are
finitely many, or of the loop of `run`, which keeps the writer task from its turn.
-/

namespace ShmMpsc

set_option autoImplicit false

variable {ι C φ : Type}

def WiredAction.isControl [DecidableEq ι] (j : ι) : WiredAction ι → Bool
  | .control k _ => k = j
  | _ => false

/-! ### One connection -/

section One

variable {sj : SerdeJson φ} {hl : sj.OneLine} {cfg : RingConfig} {name : String} {s : StreamState}
  {log : List (StreamEvent φ)} {taken : List UInt8} {done todo : List TextLine}

theorem Place.begun {socket queue : List UInt64} {counted : Bool} {client : ClientPc}
    {pc : ProducerPc UInt64} (h : Place socket queue counted client pc) : client.begun = true := by
  cases pc with
  | returned =>
    rw [h.1]
    rfl
  | shutdown =>
    rcases h.1 with ⟨info, hc⟩ | hc | hc <;> rw [hc] <;> rfl
  | _ =>
    obtain ⟨info, hc⟩ := h.1
    rw [hc]
    rfl

end One

/-! ### Every connection -/

section Every

variable [DecidableEq ι] {sj : SerdeJson φ} {hl : sj.OneLine} {cfg : RingConfig} {codec : Codec C}
  {jobs : ι → Job}

variable (sj cfg) in
/-- The connection has come to where it is in a run of its own, of at least `n` steps. -/
def Alone (name : String) (conn : StreamState) (log : List (StreamEvent φ)) (n : Nat) : Prop :=
  ∃ cs, (streamMachine sj cfg).Run Machine.free (.start sj name) [] cs conn log ∧ n ≤ cs.length

variable (sj cfg) in
/-- Where a connection is that took `n` steps. -/
def Onward (name : String) (run : RunPc C UInt64) (conn : StreamState) (log : List (StreamEvent φ))
    (n : Nat) (spawned : Bool) : Prop :=
  match run with
  | .connect => n = 0
  | .recvFd => n = 0 ∧ (conn = .start sj name ∨ spawned = true)
  | .attach => spawned = true ∧ Alone sj cfg name conn log n
  | .loop _ p => spawned = true ∧ (p.pc.isFailed = false → Alone sj cfg name conn log n)
  | .failed _ => True

theorem Alone.step {name : String} {conn conn' : StreamState} {log ev : List (StreamEvent φ)}
    {n : Nat} (h : Alone sj cfg name conn log n) {a : StreamAction}
    (hs : streamStep sj cfg conn a = some (conn', ev)) :
    Alone sj cfg name conn' (log ++ ev) (n + 1) := by
  obtain ⟨cs, hrun, hle⟩ := h
  refine ⟨cs ++ [a], hrun.snoc trivial hs, ?_⟩
  rw [List.length_append]
  exact Nat.add_le_add_right hle 1

theorem Alone.mono {name : String} {conn : StreamState} {log : List (StreamEvent φ)} {n k : Nat}
    (h : Alone sj cfg name conn log n) (hle : k ≤ n) : Alone sj cfg name conn log k := by
  obtain ⟨cs, hrun, hn⟩ := h
  exact ⟨cs, hrun, hle.trans hn⟩

variable {mm : RingConfig → MemModel ι UInt64 Memory} {s s' : Wired ι C Memory}
  {log ev : List (WiredEvent ι φ)} {q : ι → Producer C UInt64} {slog : List (SysEvent ι UInt64)}
  {n n' : ι → Nat}

variable (sj cfg jobs) in
structure AllOnward (s : Wired ι C Memory) (log : List (WiredEvent ι φ)) (n : ι → Nat) : Prop where
  conn : ∀ j, Onward sj cfg (jobs j).name (s.run j) (s.conn j) (connLog j log) (n j) (s.spawned j)

/-- Only `j` has moved. -/
theorem AllOnward.update (h : AllOnward sj cfg jobs s log n) (j : ι) (run : RunPc C UInt64)
    (conn : StreamState) (spawned : Bool) (hrun : s'.run = Function.update s.run j run)
    (hconn : s'.conn = Function.update s.conn j conn)
    (hspawned : s'.spawned = Function.update s.spawned j spawned)
    (hn : ∀ k, k ≠ j → n' k = n k) (hev : ∀ k, k ≠ j → connLog k ev = [])
    (hj : Onward sj cfg (jobs j).name run conn (connLog j log ++ connLog j ev) (n' j) spawned) :
    AllOnward sj cfg jobs s' (log ++ ev) n' := by
  refine ⟨fun k => ?_⟩
  rw [hrun, hconn, hspawned, connLog_append]
  by_cases hk : k = j
  · subst hk
    simpa using hj
  · simpa [hk, hev k hk, hn k hk] using h.conn k

/-- Nobody has. -/
theorem AllOnward.same (h : AllOnward sj cfg jobs s log n) (hrun : s'.run = s.run)
    (hconn : s'.conn = s.conn) (hspawned : s'.spawned = s.spawned)
    (hev : ∀ k, connLog k ev = []) : AllOnward sj cfg jobs s' (log ++ ev) n := by
  refine ⟨fun k => ?_⟩
  rw [hrun, hconn, hspawned, connLog_append, hev, List.append_nil]
  exact h.conn k

theorem AllOnward.loop (h : AllOnward sj cfg jobs s log n) {j : ι} {c : RingConfig}
    {p : Producer C UInt64} {now : UInt64} {spurious : Bool} (hloop : s.run j = .loop c p)
    (hs : loopStep sj cfg codec mm jobs s j c p now spurious = some (s', ev)) :
    AllOnward sj cfg jobs s' (log ++ ev) n := by
  have hj := h.conn j
  rw [hloop] at hj
  obtain ⟨hspawned, halone⟩ := hj
  cases hpc : p.pc with
  | signal i seq =>
    rw [loopStep_signal hpc] at hs
    obtain ⟨⟨conn, cev⟩, hr, hs⟩ := Option.map_eq_some_iff.mp hs
    cases hs
    refine h.update j (.loop c { p with pc := .encode (i + 1) }) conn (s.spawned j) rfl rfl
      (Function.update_eq_self ..).symm (fun _ _ => rfl) (fun k hk => connLog_control_of_ne hk cev)
      ⟨hspawned, fun _ => ?_⟩
    rw [connLog_control_self]
    exact ((halone (by rw [hpc]; rfl)).step hr).mono (Nat.le_succ _)
  | shutdown =>
    have halone := halone (by rw [hpc]; rfl)
    by_cases hclient : (s.conn j).client.pc = .returned
    · rw [loopStep_returned hpc hclient] at hs
      cases hs
      refine h.update j (.loop c { p with pc := .returned }) (s.conn j) (s.spawned j) rfl
        (Function.update_eq_self ..).symm (Function.update_eq_self ..).symm (fun _ _ => rfl)
        (fun _ _ => rfl) ⟨hspawned, fun _ => ?_⟩
      rw [connLog_nil, List.append_nil]
      exact halone
    · rw [loopStep_shutdown hpc hclient] at hs
      obtain ⟨⟨conn, cev⟩, hr, hs⟩ := Option.map_eq_some_iff.mp hs
      cases hs
      refine h.update j (s.run j) conn (s.spawned j) (Function.update_eq_self ..).symm rfl
        (Function.update_eq_self ..).symm (fun _ _ => rfl)
        (fun k hk => connLog_control_of_ne hk cev) ?_
      rw [hloop, connLog_control_self]
      exact ⟨hspawned, fun _ => (halone.step hr).mono (Nat.le_succ _)⟩
  | _ =>
    have hsignal : ∀ i seq, p.pc ≠ .signal i seq := by simp [hpc]
    have hshutdown : p.pc ≠ .shutdown := by simp [hpc]
    rw [loopStep_producer hsignal hshutdown] at hs
    obtain ⟨⟨p', push, m, sev⟩, hr, hs⟩ := Option.map_eq_some_iff.mp hs
    cases hs
    have halone := halone (producerTrans_of_step hr).not_failed
    refine h.update j (.loop c p') (s.conn j) (s.spawned j) rfl (Function.update_eq_self ..).symm
      (Function.update_eq_self ..).symm (fun _ _ => rfl) (fun k _ => connLog_sys k _)
      ⟨hspawned, fun _ => ?_⟩
    rw [connLog_sys, List.append_nil]
    exact halone

/-- A step at the ends of `j`'s connection. -/
theorem AllOnward.ends (h : AllOnward sj cfg jobs s log n) {j : ι} {a : StreamAction}
    (hrun : s.run j = .attach ∨ ∃ c p, s.run j = .loop c p) {c' : StreamState}
    {cev : List (StreamEvent φ)} (hs : streamStep sj cfg (s.conn j) a = some (c', cev))
    (hrun' : s'.run = s.run) (hconn : s'.conn = Function.update s.conn j c')
    (hspawned : s'.spawned = s.spawned) :
    AllOnward sj cfg jobs s' (log ++ cev.map (.control j))
      (fun k => n k + ((WiredAction.control j a).isControl k).toNat) := by
  refine h.update j (s.run j) c' (s.spawned j) (hrun'.trans (Function.update_eq_self ..).symm) hconn
    (hspawned.trans (Function.update_eq_self ..).symm) (fun k hk => ?_)
    (fun k hk => connLog_control_of_ne hk cev) ?_
  · simp [WiredAction.isControl, hk.symm]
  · have hj := h.conn j
    have hone : ((WiredAction.control j a).isControl j).toNat = 1 := by simp [WiredAction.isControl]
    rw [connLog_control_self, hone]
    rcases hrun with hrun | ⟨c, p, hrun⟩
    · rw [hrun] at hj ⊢
      exact ⟨hj.1, hj.2.step hs⟩
    · rw [hrun] at hj ⊢
      exact ⟨hj.1, fun hp => (hj.2 hp).step hs⟩

theorem AllOnward.connect (hc : Conveys hl cfg codec jobs s log q slog)
    (h : AllOnward sj cfg jobs s log n) {j : ι}
    (hs : wiredStep sj cfg codec mm jobs s (.connect j) = some (s', ev)) :
    AllOnward sj cfg jobs s' (log ++ ev) n := by
  simp only [wiredStep] at hs
  split at hs
  · rename_i hrun
    cases hs
    have hj := h.conn j
    have hlink := hc.link j
    rw [hrun] at hj hlink
    exact h.update j .recvFd (s.conn j) (s.spawned j) rfl (Function.update_eq_self ..).symm
      (Function.update_eq_self ..).symm (fun _ _ => rfl) (fun _ _ => rfl) ⟨hj, .inl hlink.1⟩
  · cases hs

theorem AllOnward.sendFd (hc : Conveys hl cfg codec jobs s log q slog)
    (h : AllOnward sj cfg jobs s log n)
    (hs : wiredStep sj cfg codec mm jobs s .sendFd = some (s', ev)) :
    AllOnward sj cfg jobs s' (log ++ ev) n := by
  simp only [wiredStep] at hs
  split at hs
  · rename_i j haccept
    cases hs
    have hrun : s.run j = .recvFd := ((hc.waits j).mp (by simp [Wired.waiting, haccept])).1
    have hj := h.conn j
    rw [hrun] at hj
    refine h.update j (s.run j) ((s.conn j).reply MARKER) true (Function.update_eq_self ..).symm rfl
      rfl (fun _ _ => rfl) (fun _ _ => rfl) ?_
    rw [hrun]
    exact ⟨hj.1, .inr rfl⟩
  · cases hs

theorem AllOnward.recvFd (hc : Conveys hl cfg codec jobs s log q slog)
    (h : AllOnward sj cfg jobs s log n) {j : ι}
    (hs : wiredStep sj cfg codec mm jobs s (.recvFd j) = some (s', ev)) :
    AllOnward sj cfg jobs s' (log ++ ev) n := by
  simp only [wiredStep] at hs
  split at hs
  · rename_i b bytes hrun hbytes
    cases hs
    have hj := h.conn j
    have hlink := hc.link j
    rw [hrun] at hj hlink
    have hopen : s.conn j ≠ .start sj (jobs j).name := by
      intro hstart
      rw [hstart] at hbytes
      cases hbytes
    obtain ⟨hmarker, hstart⟩ := reply_taken (hlink.1.resolve_left hopen)
    rw [← hbytes, hmarker, hstart]
    refine h.update j .attach (.start sj (jobs j).name) (s.spawned j) rfl rfl
      (Function.update_eq_self ..).symm (fun _ _ => rfl) (fun _ _ => rfl)
      ⟨hj.2.resolve_left hopen, [], ?_, Nat.le_of_eq hj.1⟩
    rw [hlink.2.1]
    exact .nil
  · cases hs

theorem AllOnward.begin (h : AllOnward sj cfg jobs s log n) {j : ι}
    (hs : wiredStep sj cfg codec mm jobs s (.begin j) = some (s', ev)) :
    AllOnward sj cfg jobs s' (log ++ ev) n := by
  simp only [wiredStep] at hs
  split at hs
  · rename_i info hrun hinfo
    cases hs
    have hj := h.conn j
    rw [hrun] at hj
    refine h.update j (.loop info.ringConfig (.start info.ringConfig codec))
      (s.conn j) (s.spawned j)
      rfl (Function.update_eq_self ..).symm (Function.update_eq_self ..).symm (fun _ _ => rfl)
      (fun _ _ => rfl) ⟨hj.1, fun _ => ?_⟩
    rw [connLog_nil, List.append_nil]
    exact hj.2
  · cases hs

theorem AllOnward.control (hc : Conveys hl cfg codec jobs s log q slog)
    (h : AllOnward sj cfg jobs s log n) {j : ι} {a : StreamAction}
    (hs : wiredStep sj cfg codec mm jobs s (.control j a) = some (s', ev)) :
    AllOnward sj cfg jobs s' (log ++ ev)
      (fun k => n k + ((WiredAction.control j a).isControl k).toNat) := by
  simp only [wiredStep, controlStep] at hs
  split at hs
  · split at hs
    · obtain ⟨⟨c', cev⟩, hstep, hs⟩ := Option.map_eq_some_iff.mp hs
      cases hs
      exact h.ends (hc.attached hstep) hstep rfl rfl rfl
    · cases hs
  · split at hs
    · cases hs
    · split at hs
      · rename_i hrun
        obtain ⟨⟨c', cev⟩, hstep, hs⟩ := Option.map_eq_some_iff.mp hs
        cases hs
        exact h.ends (.inl hrun) hstep rfl rfl rfl
      · rename_i c p hrun
        obtain ⟨⟨c', cev⟩, hstep, hs⟩ := Option.map_eq_some_iff.mp hs
        cases hs
        exact h.ends (.inr ⟨c, p, hrun⟩) hstep rfl rfl rfl
      · cases hs

theorem AllOnward.drop (h : AllOnward sj cfg jobs s log n) {j : ι}
    (hs : wiredStep sj cfg codec mm jobs s (.drop j) = some (s', ev)) :
    AllOnward sj cfg jobs s' (log ++ ev) n := by
  simp only [wiredStep] at hs
  split at hs
  · rename_i c p hloop
    split at hs
    · rename_i hfailed
      cases hs
      have hj := h.conn j
      rw [hloop] at hj
      refine h.update j (s.run j) (s.conn j).dropped (s.spawned j)
        (Function.update_eq_self ..).symm rfl
        (Function.update_eq_self ..).symm (fun _ _ => rfl) (fun _ _ => rfl) ?_
      rw [hloop]
      exact ⟨hj.1, fun hp => absurd (hp.symm.trans hfailed) (by simp)⟩
    · cases hs
  · cases hs

theorem AllOnward.step (hc : Conveys hl cfg codec jobs s log q slog)
    (h : AllOnward sj cfg jobs s log n) {a : WiredAction ι}
    (hs : wiredStep sj cfg codec mm jobs s a = some (s', ev)) :
    AllOnward sj cfg jobs s' (log ++ ev) (fun j => n j + (a.isControl j).toNat) := by
  cases a with
  | connect j => exact h.connect hc hs
  | sendFd => exact h.sendFd hc hs
  | recvFd j => exact h.recvFd hc hs
  | begin j => exact h.begin hs
  | control j a => exact h.control hc hs
  | drop j => exact h.drop hs
  | producer j now spurious =>
    simp only [wiredStep] at hs
    split at hs
    · rename_i c p hloop
      exact h.loop hloop hs
    · cases hs
  | accept =>
    simp only [wiredStep] at hs
    split at hs
    · cases hs
      exact h.same rfl rfl rfl fun _ => rfl
    · cases hs
  | unpark j =>
    simp only [wiredStep] at hs
    split at hs
    · cases hs
      exact h.same rfl rfl rfl fun _ => rfl
    · cases hs
  | consumer =>
    obtain ⟨⟨c, pop, m, sev⟩, hstep, hs⟩ := Option.map_eq_some_iff.mp hs
    cases hs
    exact h.same rfl rfl rfl fun k => connLog_sys k _
  | commit thread =>
    obtain ⟨m, hstep, hs⟩ := Option.map_eq_some_iff.mp hs
    cases hs
    exact h.same rfl rfl rfl fun _ => rfl
  | stop =>
    cases hs
    exact h.same rfl rfl rfl fun _ => rfl

variable {as : List (WiredAction ι)}

/-- In its loop `run` goes on by itself. -/
theorem Conveys.loop_isSome [Fintype ι] (hN : 2 ≤ cfg.N)
    (hsum : ∑ j, (jobs j).n.toNat < 2 ^ 63 - cfg.N) {bs : List (SysAction ι)}
    (hsc : ScRun cfg codec jobs Machine.free bs (s.system q) slog)
    (hc : Conveys hl cfg codec jobs s log q slog) {j : ι} {c : RingConfig} {p : Producer C UInt64}
    (hr : s.run j = .loop c p) (hok : p.pc.isFailed = false) (hpc : p.pc.awaits = false)
    (now : UInt64) (spurious : Bool) :
    (wiredStep sj cfg codec (fun c => sc (segOps c)) jobs s (.producer j now spurious)).isSome := by
  have hlink := hc.link j
  rw [hr] at hlink
  obtain ⟨rfl, hq, _, _, _, hcarried⟩ := hlink
  simp only [wiredStep, hr]
  have hshutdown : p.pc ≠ .shutdown := by
    intro hshut
    rw [hshut] at hpc
    cases hpc
  by_cases hsignal : ∃ i seq, p.pc = .signal i seq
  · obtain ⟨i, seq, hsig⟩ := hsignal
    have hplace := (hcarried.online hok).place
    rw [hsig] at hplace
    obtain ⟨⟨info, hclient⟩, _⟩ := hplace
    rw [loopStep_signal hsig]
    simp [streamStep, hclient]
  · obtain ⟨cs, hinit⟩ := (hsc.windowed_of_total hsum).initRun
    obtain ⟨u, ulog, hR⟩ := hinit.refines hN
    have hloops := hsc.loopsOk
    have hcalls := hloops.calls.push j
    rw [show ((s.system q).producer j).pc = p.pc from carrying_pc hq] at hcalls
    rw [loopStep_producer (fun i seq h => hsignal ⟨i, seq, h⟩) hshutdown, Option.isSome_map]
    refine hR.loop_isSome hinit.admitted hinit.fits hN ?_ hcalls hpc now
    intro i _ _ _
    exact Nat.lt_of_le_of_lt ((reservedSince_le i _).trans hloops.reserves_length_le) hsum

end Every

open RingConfig

end ShmMpsc
