import ShmMpsc.System.WiredInv

/-!
# The connections carry the notifications

Whatever the sockets do, the program does nothing that the system with its queues does not do.
-/

namespace ShmMpsc

set_option autoImplicit false

variable {ι C M φ : Type}

/-! ### The loop of a producer -/

section Loop

variable {cfg : RingConfig} {codec : Codec C} {ops : SegOps UInt64 M} {job : Job} {j : ι}
  {now : UInt64} {spurious : Bool} {p p' q : Producer C UInt64} {push push' : PushPc UInt64}
  {m m' : M} {sev : List (SysEvent ι UInt64)}

theorem afterPush_place (cfg : RingConfig) (data : List UInt8) (i : UInt64) (push : PushPc UInt64)
    {socket queue : List UInt64} {counted : Bool} {client : ClientPc}
    (h : (∃ info, client = .attached info) ∧ socket.length = counted.toNat) :
    Place socket queue counted client (afterPush cfg data i push) := by
  cases push with
  | done r =>
    cases r with
    | ok pos => exact h
    | error e => cases e <;> exact h
  | _ => exact h

/-- Between its calls of the client the loop does not look at the connection. -/
theorem ProducerTrans.carrying
    (ht : ProducerTrans cfg codec ops job j now spurious p push m p' push' m' sev)
    (hsignal : ∀ i seq, p.pc ≠ .signal i seq) (hshutdown : p.pc ≠ .shutdown)
    (q : Producer C UInt64) :
    ProducerTrans cfg codec ops job j now spurious (p.carrying q) push m (p'.carrying q)
      push' m' sev ∧
      (∀ e ∈ sev, e.isLocal = true) ∧
      ∀ (socket queue : List UInt64) counted client,
        Place socket queue counted client p.pc → Place socket queue counted client p'.pc := by
  cases ht with
  | encodeErr hpc hi he =>
    refine ⟨.encodeErr hpc hi he, by simp, fun _ _ _ _ h => ?_⟩
    rw [hpc] at h
    exact h
  | encode hpc hi he =>
    refine ⟨.encode hpc hi he, by simp [SysEvent.isLocal], fun _ _ _ _ h => ?_⟩
    rw [hpc] at h
    exact afterPush_place _ _ _ _ h
  | finish hpc hi =>
    refine ⟨.finish hpc hi, by simp, fun _ _ _ _ h => ?_⟩
    rw [hpc] at h
    exact ⟨.inl h.1, h.2⟩
  | push hpc hr =>
    refine ⟨.push hpc hr, local_ring _ _, fun _ _ _ _ h => ?_⟩
    rw [hpc] at h
    exact afterPush_place _ _ _ _ h
  | retry hpc =>
    refine ⟨.retry hpc, by simp [SysEvent.isLocal], fun _ _ _ _ h => ?_⟩
    rw [hpc] at h
    exact afterPush_place _ _ _ _ h
  | won hpc hc =>
    refine ⟨.won hpc hc, by simp [SysEvent.isLocal], fun _ _ _ _ h => ?_⟩
    rw [hpc] at h
    exact h
  | lost hpc hc =>
    refine ⟨.lost hpc hc, by simp [SysEvent.isLocal], fun _ _ _ _ h => ?_⟩
    rw [hpc] at h
    exact h
  | signal hpc => exact absurd hpc (hsignal _ _)
  | returned hpc => exact absurd hpc hshutdown

theorem ProducerTrans.not_failed
    (ht : ProducerTrans cfg codec ops job j now spurious p push m p' push' m' sev) :
    p.pc.isFailed = false := by
  cases ht with
  | encodeErr hpc | encode hpc | finish hpc | push hpc | retry hpc | won hpc | lost hpc | signal hpc
  | returned hpc => rw [hpc]; rfl

end Loop

section Sends

variable [DecidableEq ι] {cfg : RingConfig} {codec : Codec C} {mm : MemModel ι UInt64 M}
  {jobs : ι → Job}

variable (cfg codec mm jobs) in
/-- Some notifications go from the queue to the socket. -/
theorem send_run (s : Wired ι C M) (j : ι) (slog : List (SysEvent ι UInt64)) (qs rest : List UInt64)
    (q : ι → Producer C UInt64) (h : (q j).queue = qs ++ rest) :
    ∃ bs, (sysMachine cfg codec mm jobs).Run Machine.free (s.system q) slog bs
      (s.system (Function.update q j
        { q j with queue := rest, socket := (q j).socket ++ qs })) slog := by
  induction qs generalizing q with
  | nil =>
    refine ⟨[], ?_⟩
    have hq : { q j with queue := rest, socket := (q j).socket ++ [] } = q j := by
      rw [List.append_nil, ← List.nil_append rest, ← h]
    rw [hq, Function.update_eq_self]
    exact .nil
  | cons seq qs ih =>
    let p : Producer C UInt64 :=
      { q j with queue := qs ++ rest, socket := (q j).socket ++ [seq] }
    have hsend : sysStep cfg codec mm jobs (s.system q) (.send j) =
        some (s.system (Function.update q j p), []) := by
      have hstep : sendStep (q j) = some p := by
        simp only [sendStep, h, List.cons_append]
        rfl
      simp only [sysStep, Wired.system, hstep, Option.map_some]
    obtain ⟨bs, hrun⟩ := ih (Function.update q j p) (by simp [p])
    refine ⟨[.send j] ++ bs, ?_⟩
    have hfirst : (sysMachine cfg codec mm jobs).Run Machine.free (s.system q) slog [.send j]
        (s.system (Function.update q j p)) (slog ++ []) := .single trivial hsend
    rw [List.append_nil] at hfirst
    refine hfirst.trans ?_
    simpa [p] using hrun

end Sends

@[simp] theorem posts_signal (seq : UInt64) : posts [(.signal seq : StreamEvent φ)] = 0 := rfl

@[simp] theorem signals_signal (seq : UInt64) : signals [(.signal seq : StreamEvent φ)] = [seq] :=
  rfl

theorem noted_signal {counted : Bool} {log : List (StreamEvent φ)} {j : ι} [DecidableEq ι]
    {sig cnt del : List UInt64} (h : Noted counted log sig cnt del)
    (hposts : posts log ≤ (signals log).length) (seq : UInt64) :
    Noted counted (log ++ [.signal seq]) (sig ++ owned j (signalled [SysEvent.signal j seq]))
      (cnt ++ []) (del ++ []) where
  signalled := by simp [h.signalled, signalled, owned]
  posted := by
    simp only [posts_append, posts_signal, signals_append, signals_signal, Nat.add_zero,
      List.append_nil]
    rw [h.posted, List.take_append_of_le_length hposts]
  unparked := by
    simp only [posts_append, posts_signal, signals_append, signals_signal, Nat.add_zero,
      List.append_nil]
    rw [h.unparked, List.take_append_of_le_length ((Nat.sub_le _ _).trans hposts)]

/-- Neither a call nor a line that was handled. -/
theorem Noted.quiet {counted : Bool} {log ev : List (StreamEvent φ)} {sig cnt del : List UInt64}
    (h : Noted counted log sig cnt del) (hsignals : signals ev = []) (hposts : posts ev = 0) :
    Noted counted (log ++ ev) (sig ++ []) (cnt ++ []) (del ++ []) where
  signalled := by simp [h.signalled, hsignals]
  posted := by simp [h.posted, hsignals, hposts]
  unparked := by simp [h.unparked, hsignals, hposts]

/-! ### One step -/

section Steps

variable [DecidableEq ι] {sj : SerdeJson φ} {hl : sj.OneLine} {cfg : RingConfig} {codec : Codec C}
  {mm : RingConfig → MemModel ι UInt64 M} {jobs : ι → Job} {s s' : Wired ι C M}
  {log ev : List (WiredEvent ι φ)} {q : ι → Producer C UInt64} {slog : List (SysEvent ι UInt64)}

variable (hl cfg codec mm jobs) in
/-- The system can go on to where the program is. -/
def Keeps (t : System ι C UInt64 M) (slog : List (SysEvent ι UInt64)) (s : Wired ι C M)
    (log : List (WiredEvent ι φ)) : Prop :=
  ∃ bs q' slog', (sysMachine cfg codec (mm cfg) jobs).Run Machine.free t slog bs
    (s.system q') slog' ∧
    Conveys hl cfg codec jobs s log q' slog'

/-- A step at the ends of `j`'s connection that the system need not follow. -/
theorem Conveys.calm (h : Conveys hl cfg codec jobs s log q slog) {j : ι} (run : RunPc C UInt64)
    (conn : StreamState) (cev : List (StreamEvent φ)) (hrun : s'.run = Function.update s.run j run)
    (hconn : s'.conn = Function.update s.conn j conn) (hcounted : s'.counted = s.counted)
    (hsys : s'.system q = s.system q) (hsignals : signals cev = []) (hposts : posts cev = 0)
    (hlink : Joined hl cfg codec (jobs j).name run conn (s.counted j) (connLog j log ++ cev) (q j))
    (hline : s'.waiting.Nodup)
    (hwaits : ∀ k, k ∈ s'.waiting ↔ (s'.run k = .recvFd ∧ s'.conn k = .start sj (jobs k).name)) :
    Keeps hl cfg codec mm jobs (s.system q) slog s' (log ++ cev.map (.control j)) := by
  refine ⟨[], q, slog ++ [], by rw [hsys, List.append_nil]; exact .nil, ?_⟩
  have hkeep := h.change run conn (s.counted j) [] hrun hconn
    (hcounted.trans (Function.update_eq_self ..).symm) (fun k hk => connLog_control_of_ne hk cev)
    (fun _ _ => ⟨rfl, rfl, rfl⟩) (sysLog_control j cev).symm
    (by rw [connLog_control_self]; exact hlink)
    (by rw [connLog_control_self]; exact (h.books j).quiet hsignals hposts) hline hwaits
  rwa [Function.update_eq_self] at hkeep

/-- And `j` has been sent its descriptor. -/
theorem Conveys.calm_own (h : Conveys hl cfg codec jobs s log q slog) {j : ι} (conn : StreamState)
    (cev : List (StreamEvent φ)) (hrun : s'.run = s.run)
    (hconn : s'.conn = Function.update s.conn j conn) (hcounted : s'.counted = s.counted)
    (hsys : s'.system q = s.system q) (hwaiting : s'.waiting = s.waiting) (hnot : s.run j ≠ .recvFd)
    (hsignals : signals cev = []) (hposts : posts cev = 0)
    (hlink : Joined hl cfg codec (jobs j).name (s.run j) conn (s.counted j) (connLog j log ++ cev)
      (q j)) :
    Keeps hl cfg codec mm jobs (s.system q) slog s' (log ++ cev.map (.control j)) := by
  have hrun' : s'.run = Function.update s.run j (s.run j) :=
    hrun.trans (Function.update_eq_self ..).symm
  obtain ⟨hline, hwaits⟩ := h.line hrun' hconn hwaiting hnot hnot
  exact h.calm (s.run j) conn cev hrun' hconn hcounted hsys hsignals hposts hlink hline hwaits

theorem owned_signal {j k : ι} (seq : UInt64) (h : k ≠ j) :
    owned k (signalled [SysEvent.signal j seq]) = [] := by
  simp [owned, signalled, h.symm]

theorem setProducer_run (s' : Wired ι C M) (slog : List (SysEvent ι UInt64)) {j : ι} (now : UInt64)
    (spurious : Bool) {p : Producer C UInt64}
    {push : PushPc UInt64} {m : M} {sev : List (SysEvent ι UInt64)}
    (ht : ProducerTrans cfg codec ((mm cfg).producer j) (jobs j) j now spurious (q j)
      (s.ring.push j)
      s.ring.mem p push m sev)
    (hs : s'.system (Function.update q j p) = (s.system q).setProducer j p push m) :
    (sysMachine cfg codec (mm cfg) jobs).Run Machine.free (s.system q) slog
      [.producer j now spurious] (s'.system (Function.update q j p)) (slog ++ sev) := by
  refine .single trivial ?_
  rw [hs]
  exact congrArg (Option.map _) ht.step

section Loops

variable {j : ι} {p : Producer C UInt64}

theorem Carried.online {name : String} {pc : ProducerPc UInt64} {c : StreamState} {counted : Bool}
    {clog : List (StreamEvent φ)} {socket queue : List UInt64}
    (h : Carried hl cfg name pc c counted clog socket queue) (hpc : pc.isFailed = false) :
    Online hl cfg name pc c counted clog socket queue := by
  refine h.resolve_right fun hoff => ?_
  have hfailed := hoff.failed
  rw [hpc] at hfailed
  cases hfailed

/-- `signal_posted` is called. -/
theorem Conveys.signal (hd : sj.Documented) (h : Conveys hl cfg codec jobs s log q slog)
    (hloop : s.run j = .loop cfg p) {i seq : UInt64} (hpc : p.pc = .signal i seq)
    {info : AttachInfo} (hclient : (s.conn j).client.pc = .attached info) :
    Keeps hl cfg codec mm jobs (s.system q) slog
      { s with
        run := Function.update s.run j (.loop cfg { p with pc := .encode (i + 1) })
        conn := Function.update s.conn j { s.conn j with
          client := { (s.conn j).client with queue := (s.conn j).client.queue ++ [seq] } } }
      (log ++ [.control j (.signal seq)]) := by
  have hlink := h.link j
  rw [hloop] at hlink
  obtain ⟨-, hq, hcounted, hle, hposts, hcarried⟩ := hlink
  have hon := hcarried.online (by rw [hpc]; rfl)
  obtain ⟨taken, done, todo, hstream⟩ := hon.stream
  have hplace := hon.place
  rw [hpc] at hplace
  have hqpc : (q j).pc = .signal i seq := (carrying_pc hq).trans hpc
  refine ⟨_, _, _, setProducer_run _ _ 0 false (.signal hqpc) ?_, ?_⟩
  · simp only [Wired.system, System.setProducer, Function.update_eq_self]
  refine h.own (.loop cfg { p with pc := .encode (i + 1) }) _ (s.counted j) rfl rfl
    (Function.update_eq_self ..).symm rfl (by simp [hloop]) (by simp)
    (fun k hk => connLog_control_of_ne hk [.signal seq])
    (fun k hk => ⟨owned_signal seq hk, rfl, rfl⟩) rfl ?_ ?_
  · rw [connLog_signal]
    refine ⟨rfl, ?_, hcounted, by simpa using hle, ?_, .inl ⟨?_, ?_, ?_⟩⟩
    · rw [hq]
      rfl
    · simp only [posts_append, posts_signal, signals_append, signals_signal, List.length_append]
      omega
    · exact ⟨_, _, _, (hstream.signal hd hclient seq).1⟩
    · have hwaiting := hon.waiting
      simp only [posts_append, posts_signal, signals_append, signals_signal, Nat.add_zero]
      rw [List.drop_append_of_le_length ((Nat.sub_le _ _).trans hposts), ← hwaiting,
        List.append_assoc]
    · exact hplace
  · rw [connLog_signal]
    exact noted_signal (h.books j) hposts seq

/-- `shutdown` is called. -/
theorem Conveys.shutdown (hd : sj.Documented) (h : Conveys hl cfg codec jobs s log q slog)
    (hloop : s.run j = .loop cfg p) (hpc : p.pc = .shutdown) {c' : StreamState}
    {cev : List (StreamEvent φ)} (hs : streamStep sj cfg (s.conn j) .shutdown = some (c', cev)) :
    Keeps hl cfg codec mm jobs (s.system q) slog { s with conn := Function.update s.conn j c' }
      (log ++ cev.map (.control j)) := by
  have hlink := h.link j
  rw [hloop] at hlink
  obtain ⟨-, hq, hcounted, hle, hposts, hcarried⟩ := hlink
  have hon := hcarried.online (by rw [hpc]; rfl)
  obtain ⟨taken, done, todo, hstream⟩ := hon.stream
  obtain ⟨taken', done', todo', hstream', _⟩ := hstream.step hd hs
  have hplace := hon.place
  rw [hpc] at hplace
  simp only [streamStep] at hs
  split at hs
  · cases hs
    refine h.calm_own _ [] rfl rfl rfl rfl rfl (by simp [hloop]) rfl rfl ?_
    rw [List.append_nil] at hstream'
    rw [hloop, List.append_nil]
    refine ⟨rfl, hq, hcounted, hle, hposts, .inl ⟨⟨_, _, _, hstream'⟩, hon.waiting, ?_⟩⟩
    rw [hpc]
    exact ⟨.inr (.inl rfl), hplace.2⟩
  · cases hs

/-- `shutdown` returns when everything is written, so that the queue of the system is empty. -/
theorem Conveys.returned (h : Conveys hl cfg codec jobs s log q slog)
    (hloop : s.run j = .loop cfg p) (hpc : p.pc = .shutdown)
    (hclient : (s.conn j).client.pc = .returned) :
    Keeps hl cfg codec mm jobs (s.system q) slog
      { s with run := Function.update s.run j (.loop cfg { p with pc := .returned }) }
      (log ++ []) := by
  have hlink := h.link j
  rw [hloop] at hlink
  obtain ⟨-, hq, hcounted, hle, hposts, hcarried⟩ := hlink
  have hon := hcarried.online (by rw [hpc]; rfl)
  let p1 : Producer C UInt64 := { q j with queue := [], socket := (q j).socket ++ (q j).queue }
  obtain ⟨bs, hsend⟩ := send_run cfg codec (mm cfg) jobs s j slog (q j).queue [] q (by simp)
  have hp1 : Function.update q j p1 j = p1 := Function.update_self ..
  have hqpc : (Function.update q j p1 j).pc = .shutdown := by
    rw [hp1]
    exact (carrying_pc hq).trans hpc
  have hret := setProducer_run s slog 0 false
    (.returned hqpc (by rw [hp1]) : ProducerTrans cfg codec ((mm cfg).producer j) (jobs j) j 0
      false (Function.update q j p1 j) (s.ring.push j) s.ring.mem _ _ _ [])
    (by simp only [Wired.system, System.setProducer, Function.update_eq_self])
  rw [hp1, Function.update_idem] at hret
  refine ⟨_, _, _, hsend.trans hret, ?_⟩
  refine h.own (.loop cfg { p with pc := .returned }) (s.conn j) (s.counted j) rfl
    (Function.update_eq_self ..).symm (Function.update_eq_self ..).symm rfl (by simp [hloop])
    (by simp) (fun _ _ => rfl) (fun _ _ => ⟨rfl, rfl, rfl⟩) rfl ?_ ((h.books j).quiet rfl rfl)
  rw [connLog_nil, List.append_nil]
  refine ⟨rfl, ?_, hcounted, hle, hposts, .inl ⟨hon.stream, ?_, hclient, rfl⟩⟩
  · exact congrArg (fun r : Producer C UInt64 => { r with pc := .returned })
      (carrying_with hq _ _ _)
  · rw [List.append_nil]
    exact hon.waiting

/-- A step of the loop between its calls of the client is one of the system. -/
theorem Conveys.producer (h : Conveys hl cfg codec jobs s log q slog)
    (hloop : s.run j = .loop cfg p) {now : UInt64} {spurious : Bool} {p' : Producer C UInt64}
    {push : PushPc UInt64} {m : M} {sev : List (SysEvent ι UInt64)}
    (ht : ProducerTrans cfg codec ((mm cfg).producer j) (jobs j) j now spurious p (s.ring.push j)
      s.ring.mem p' push m sev)
    (hsignal : ∀ i seq, p.pc ≠ .signal i seq) (hshutdown : p.pc ≠ .shutdown) :
    Keeps hl cfg codec mm jobs (s.system q) slog
      { s with
        ring := { s.ring with push := Function.update s.ring.push j push, mem := m }
        run := Function.update s.run j (.loop cfg p') } (log ++ sev.map .sys) := by
  have hlink := h.link j
  rw [hloop] at hlink
  obtain ⟨-, hq, hcounted, hle, hposts, hcarried⟩ := hlink
  have hon := hcarried.online ht.not_failed
  obtain ⟨hcarry, hlocal, hkeep⟩ := ht.carrying hsignal hshutdown (q j)
  rw [← hq] at hcarry
  obtain ⟨hsig, hcnt, hdel⟩ := local_notes hlocal
  refine ⟨_, _, _, setProducer_run _ slog now spurious hcarry rfl, ?_⟩
  refine h.own (.loop cfg p') (s.conn j) (s.counted j) rfl (Function.update_eq_self ..).symm
    (Function.update_eq_self ..).symm rfl (by simp [hloop]) (by simp) (fun k _ => connLog_sys k _)
    (fun _ _ => by rw [hsig, hcnt, hdel]; exact ⟨rfl, rfl, rfl⟩) ?_ ?_ ?_
  · rw [List.filter_eq_self.mpr hlocal, sysLog_sys]
  · rw [connLog_sys, List.append_nil]
    exact ⟨rfl, rfl, hcounted, hle, hposts, .inl ⟨hon.stream, hon.waiting, hkeep _ _ _ _ hon.place⟩⟩
  · rw [connLog_sys, hsig, hcnt, hdel]
    exact (h.books j).quiet rfl rfl

theorem Conveys.loop (hd : sj.Documented) (h : Conveys hl cfg codec jobs s log q slog)
    {c : RingConfig} {now : UInt64} {spurious : Bool} (hloop : s.run j = .loop c p)
    (hs : loopStep sj cfg codec mm jobs s j c p now spurious = some (s', ev)) :
    Keeps hl cfg codec mm jobs (s.system q) slog s' (log ++ ev) := by
  obtain rfl : c = cfg := by
    have hlink := h.link j
    rw [hloop] at hlink
    exact hlink.1
  cases hpc : p.pc with
  | signal i seq =>
    rw [loopStep_signal hpc] at hs
    obtain ⟨r, hr, hs⟩ := Option.map_eq_some_iff.mp hs
    cases hs
    simp only [streamStep] at hr
    split at hr
    · rename_i info hclient
      cases hr
      exact h.signal hd hloop hpc hclient
    · cases hr
  | shutdown =>
    by_cases hclient : (s.conn j).client.pc = .returned
    · rw [loopStep_returned hpc hclient] at hs
      cases hs
      exact h.returned hloop hpc hclient
    · rw [loopStep_shutdown hpc hclient] at hs
      obtain ⟨r, hr, hs⟩ := Option.map_eq_some_iff.mp hs
      cases hs
      exact h.shutdown hd hloop hpc hr
  | _ =>
    have hsignal : ∀ i seq, p.pc ≠ .signal i seq := by simp [hpc]
    have hshutdown : p.pc ≠ .shutdown := by simp [hpc]
    rw [loopStep_producer hsignal hshutdown] at hs
    obtain ⟨r, hr, hs⟩ := Option.map_eq_some_iff.mp hs
    cases hs
    exact h.producer hloop (producerTrans_of_step hr) hsignal hshutdown

end Loops

/-! ### A step at the ends of a connection -/

theorem Place.client {socket queue : List UInt64} {counted : Bool} {c c' : StreamState}
    {ev : List (StreamEvent φ)} {pc : ProducerPc UInt64} (hc : ClientStep c c' ev)
    (h : Place socket queue counted c.client.pc pc) :
    Place socket queue counted c'.client.pc pc := by
  have hattached : (∃ info, c.client.pc = .attached info) → ∃ info, c'.client.pc = .attached info :=
    fun ⟨info, hinfo⟩ => ⟨info, hc.attached info hinfo⟩
  cases pc with
  | returned => exact ⟨hc.returned h.1, h.2⟩
  | shutdown =>
    refine ⟨?_, h.2⟩
    rcases h.1 with hatt | hshut | hret
    · exact .inl (hattached hatt)
    · exact .inr (hc.shutdown hshut)
    · exact .inr (.inr (hc.returned hret))
  | _ => exact ⟨hattached h.1, h.2⟩

/-- A client that is gone takes no step. -/
theorem dropped_idle {c : StreamState} (hgone : c.dropped = c)
    (hatt : ∃ info, c.client.pc = .attached info) {a : StreamAction} (hcall : a.isCall = false)
    (hserver : ∀ b, a ≠ .server b) : streamStep sj cfg c a = none := by
  obtain ⟨info, hinfo⟩ := hatt
  have hwriter : c.client.writer = .done := (congrArg (·.client.writer) hgone).symm
  cases a with
  | signalPosted seq => cases hcall
  | shutdown => cases hcall
  | server b => exact absurd rfl (hserver b)
  | write n => simp [streamStep, hinfo]
  | fill n => simp [streamStep, hinfo]
  | scan => simp [streamStep, hinfo]
  | eof => simp [streamStep, hinfo]
  | recv => simp [streamStep, hwriter]
  | writeTask n => simp [streamStep, hwriter]
  | join => simp [streamStep, hinfo]

/-- The client or its writer task. -/
theorem Conveys.client (hd : sj.Documented) (hN : cfg.numSlots.toNat < 2 ^ 32)
    (hS : cfg.slotSize.toNat < 2 ^ 32) (h : Conveys hl cfg codec jobs s log q slog) {j : ι}
    {a : StreamAction} (hcall : a.isCall = false) (hserver : ∀ b, a ≠ .server b)
    (hrun : s.run j = .attach ∨ ∃ c p, s.run j = .loop c p) {c' : StreamState}
    {cev : List (StreamEvent φ)} (hs : streamStep sj cfg (s.conn j) a = some (c', cev)) :
    Keeps hl cfg codec mm jobs (s.system q) slog { s with conn := Function.update s.conn j c' }
      (log ++ cev.map (.control j)) := by
  have hlink := h.link j
  have hc := clientStep_of_step hcall hserver hs
  have hnot : s.run j ≠ .recvFd := by
    rintro heq
    rcases hrun with hrun | ⟨c, p, hrun⟩ <;> rw [hrun] at heq <;> cases heq
  suffices hlink' : Joined hl cfg codec (jobs j).name (s.run j) c' (s.counted j)
      (connLog j log ++ cev) (q j) by
    exact h.calm_own c' cev rfl rfl rfl rfl rfl hnot hc.signals hc.posts hlink'
  rcases hrun with hrun | ⟨c, p, hrun⟩
  · rw [hrun] at hlink ⊢
    obtain ⟨⟨taken, done, todo, hstream⟩, hsig, hcounted, hq, hinfo⟩ := hlink
    obtain ⟨taken', done', todo', hstream', _⟩ := hstream.step hd hs
    refine ⟨⟨_, _, _, hstream'⟩, by rw [signals_append, hsig, hc.signals]; rfl, hcounted, hq, ?_⟩
    intro info hpc
    rw [hstream'.geometry info hpc]
    exact AttachInfo.ringConfig_eq hN hS
  · rw [hrun] at hlink ⊢
    obtain ⟨rfl, hq, hcounted, hle, hposts, hon | hoff⟩ := hlink
    · obtain ⟨taken, done, todo, hstream⟩ := hon.stream
      obtain ⟨taken', done', todo', hstream', _⟩ := hstream.step hd hs
      refine ⟨rfl, hq, hcounted, ?_, ?_, .inl ⟨⟨_, _, _, hstream'⟩, ?_, hon.place.client hc⟩⟩
      · rw [posts_append, hc.posts]
        exact hle
      · rw [posts_append, hc.posts, signals_append, hc.signals, List.append_nil]
        exact hposts
      · rw [posts_append, hc.posts, signals_append, hc.signals, List.append_nil]
        exact hon.waiting
    · rw [dropped_idle hoff.gone hoff.attached hcall hserver] at hs
      cases hs

theorem posts_server (sev : List (ServeEvent φ)) :
    posts (sev.map (StreamEvent.server (φ := φ))) = sev.countP ServeEvent.isUnpark := by
  simp [posts]

theorem Streaming.posts_le (hd : sj.Documented) {name : String} {c : StreamState}
    {clog : List (StreamEvent φ)} {taken : List UInt8} {done todo : List TextLine}
    (h : Streaming hl cfg name c clog taken done todo) : posts clog ≤ (signals clog).length := by
  rw [← h.unparks hd]
  exact Nat.le_add_right _ _

/-- Before the attach request is written there is nothing for `serve` to do. -/
theorem start_idle {name : String} {c : StreamState}
    (hc : c = .start sj name ∨ c = (StreamState.start sj name).reply MARKER) (b : ServeAction) :
    streamStep sj cfg c (.server b) = none := by
  rcases hc with rfl | rfl <;> cases b
  all_goals
    simp [streamStep, JsonServer.step, StreamState.start, StreamState.reply, LineReader.empty]
    try omega

variable (cfg codec mm jobs) in
theorem serve_run (s' : Wired ι C M) (slog : List (SysEvent ι UInt64)) {j : ι}
    {p : Producer C UInt64} {token : Bool} {calls : UInt64} {sev : List (SysEvent ι UInt64)}
    (ht : ServeTrans j (q j) s.token s.postedCalls p token calls sev)
    (hs : s'.system (Function.update q j p) = { s.system q with
      producer := Function.update q j p, token := token, postedCalls := calls }) :
    (sysMachine cfg codec (mm cfg) jobs).Run Machine.free (s.system q) slog [.serve j]
      (s'.system (Function.update q j p)) (slog ++ sev) := by
  refine .single trivial ?_
  rw [hs]
  exact congrArg (Option.map _) ht.step

variable (s cfg codec mm jobs) in
/-- A notification that the server has come to is in the socket, or can be sent. -/
theorem comes_to_post (slog : List (SysEvent ι UInt64)) {j : ι} {seq : UInt64} {rest : List UInt64}
    (hall : (q j).socket ++ (q j).queue = seq :: rest) :
    ∃ socket queue bs, (seq :: socket) ++ queue = (q j).socket ++ (q j).queue ∧
      ((q j).socket = seq :: socket ∧ queue = (q j).queue ∨ (q j).socket = [] ∧ socket = []) ∧
      (sysMachine cfg codec (mm cfg) jobs).Run Machine.free (s.system q) slog bs
        (s.system (Function.update q j { q j with socket := seq :: socket, queue := queue }))
          slog := by
  cases hsocket : (q j).socket with
  | cons x xs =>
    rw [hsocket] at hall
    obtain ⟨rfl, -⟩ := List.cons.inj hall
    refine ⟨xs, (q j).queue, [], rfl, .inl ⟨rfl, rfl⟩, ?_⟩
    rw [← hsocket, Function.update_eq_self]
    exact .nil
  | nil =>
    rw [hsocket, List.nil_append] at hall
    obtain ⟨bs, hrun⟩ := send_run cfg codec (mm cfg) jobs s j slog [seq] rest q hall
    rw [hsocket] at hrun
    exact ⟨[], rest, bs, by rw [hall]; rfl, .inr ⟨rfl, rfl⟩, hrun⟩

theorem Offline.server {pc : ProducerPc UInt64} {c c' : StreamState} {counted : Bool}
    {clog cev : List (StreamEvent φ)} {socket queue : List UInt64} {b : ServeAction}
    (h : Offline sj cfg pc c counted clog socket queue)
    (hs : streamStep sj cfg c (.server b) = some (c', cev)) : c'.dropped = c' := by
  obtain ⟨⟨srv, sev⟩, hsrv, heq⟩ := Option.map_eq_some_iff.mp hs
  cases heq
  have hclient := congrArg StreamState.client h.gone
  have hclosed : c.server.inp.closed = true := (congrArg (·.server.inp.closed) h.gone).symm
  rw [← JsonServer.step_closed hsrv] at hclosed
  simp only [StreamState.dropped] at hclient ⊢
  rw [hclient, ← hclosed]

theorem server_of_step {c c' : StreamState} {b : ServeAction} {sev : List (ServeEvent φ)}
    (hs : streamStep sj cfg c (.server b) = some (c', sev.map .server)) :
    JsonServer.step sj cfg c.server b = some (c'.server, sev) := by
  obtain ⟨-, sev', heq, hserver⟩ := serverStep_of_step hs
  have hinj : sev = sev' := by
    have hserved := congrArg served heq
    rwa [served_server, served_server] at hserved
  rw [hinj]
  exact hserver

theorem Place.post {socket queue socket' queue' : List UInt64} {seq : UInt64} {client : ClientPc}
    {pc : ProducerPc UInt64} (h : Place socket queue false client pc)
    (hcase : socket = seq :: socket' ∧ queue' = queue ∨ socket = [] ∧ socket' = [])
    (hne : socket ++ queue ≠ []) : Place (seq :: socket') queue' true client pc := by
  have hlen (hsocket : socket.length = false.toNat) : (seq :: socket').length = true.toNat := by
    obtain ⟨rfl, -⟩ | ⟨-, rfl⟩ := hcase
    · cases hsocket
    · rfl
  cases pc with
  | returned =>
    refine ⟨h.1, ?_⟩
    obtain ⟨-, rfl⟩ | ⟨rfl, -⟩ := hcase
    · exact h.2
    · exact absurd h.2 hne
  | _ => exact ⟨h.1, hlen h.2⟩

theorem lt_of_drop_eq_cons {α : Type} {l rest : List α} {n : Nat} {x : α}
    (h : l.drop n = x :: rest) : n + 1 ≤ l.length := by
  refine Nat.lt_of_not_le fun hle => ?_
  rw [List.drop_of_length_le hle] at h
  cases h

theorem take_succ_of_drop {α : Type} {l rest : List α} {n : Nat} {x : α}
    (h : l.drop n = x :: rest) : l.take (n + 1) = l.take n ++ [x] := by
  rw [List.take_add, h]
  rfl

theorem tail_of_drop {α : Type} {l rest : List α} {n : Nat} {x : α}
    (h : l.drop (n - 1) = x :: rest) (hn : 1 ≤ n) : rest = l.drop n := by
  have htail := congrArg List.tail h
  rw [List.tail_drop, Nat.sub_add_cancel hn] at htail
  exact htail.symm

theorem Place.queue {queue : List UInt64} {client : ClientPc} {pc : ProducerPc UInt64}
    (h : Place [] queue true client pc) : queue = [] := by
  cases pc with
  | returned => exact h.2
  | _ => cases h.2

theorem Place.unpark {socket queue : List UInt64} {seq : UInt64} {client : ClientPc}
    {pc : ProducerPc UInt64} (h : Place (seq :: socket) queue true client pc) :
    Place socket queue false client pc := by
  cases pc with
  | returned => exact h
  | _ => exact ⟨h.1, Nat.succ.inj h.2⟩

/-! ### What the connection carries -/

section Carried

variable {name : String} {pc : ProducerPc UInt64} {c c' : StreamState} {counted : Bool}
  {clog : List (StreamEvent φ)} {socket queue : List UInt64} {b : ServeAction}
  {sev : List (ServeEvent φ)}

/-- `serve` comes to no notification. -/
theorem Carried.quiet (hd : sj.Documented) (h : Carried hl cfg name pc c counted clog socket queue)
    (hs : streamStep sj cfg c (.server b) = some (c', sev.map .server))
    (hposts : posts (sev.map (StreamEvent.server (φ := φ))) = 0) :
    Carried hl cfg name pc c' counted (clog ++ sev.map .server) socket queue := by
  have hsame : (signals (clog ++ sev.map .server)).drop (posts (clog ++ sev.map .server) -
      counted.toNat) = (signals clog).drop (posts clog - counted.toNat) := by
    rw [posts_append, hposts, signals_append, signals_server, List.append_nil, Nat.add_zero]
  have hclient := (serverStep_of_step hs).1
  rcases h with hon | hoff
  · obtain ⟨taken, done, todo, hstream⟩ := hon.stream
    obtain ⟨taken', done', todo', hstream', _⟩ := hstream.step hd hs
    refine .inl ⟨⟨_, _, _, hstream'⟩, hsame ▸ hon.waiting, ?_⟩
    rw [hclient]
    exact hon.place
  · obtain ⟨left, lines, tail, htorn, hlen⟩ := hoff.rest
    obtain ⟨left', lines', tail', htorn', hleft⟩ := htorn.step (server_of_step hs)
    rw [posts_server] at hposts
    refine .inr ⟨hoff.failed, hoff.server hs, ?_, ⟨left', lines', tail', htorn', by omega⟩,
      hsame ▸ hoff.waiting, hoff.empty⟩
    rw [hclient]
    exact hoff.attached

/-- `serve` comes to a notification, which is the next that is signalled, and in the socket as soon
as it has been sent. -/
theorem Carried.post (hd : sj.Documented) (h : Carried hl cfg name pc c false clog socket queue)
    (hs : streamStep sj cfg c (.server b) = some (c', sev.map .server))
    (hposts : posts (sev.map (StreamEvent.server (φ := φ))) = 1) :
    ∃ seq rest rest', (signals clog).drop (posts clog) = seq :: rest ∧
      socket ++ queue = seq :: rest' ∧
      ∀ socket' queue', (seq :: socket') ++ queue' = socket ++ queue →
        (socket = seq :: socket' ∧ queue' = queue ∨ socket = [] ∧ socket' = []) →
        Carried hl cfg name pc c' true (clog ++ sev.map .server) (seq :: socket') queue' := by
  have hsame : (signals (clog ++ sev.map .server)).drop (posts (clog ++ sev.map .server) -
      true.toNat) = (signals clog).drop (posts clog) := by
    rw [posts_append, hposts, signals_append, signals_server, List.append_nil]
    rfl
  have hclient := (serverStep_of_step hs).1
  rcases h with hon | hoff
  · obtain ⟨taken, done, todo, hstream⟩ := hon.stream
    obtain ⟨taken', done', todo', hstream', _⟩ := hstream.step hd hs
    have hlt := hstream'.posts_le hd
    rw [posts_append, hposts, signals_append, signals_server, List.append_nil] at hlt
    have hwaiting : socket ++ queue = (signals clog).drop (posts clog) := hon.waiting
    have hdrop := List.drop_eq_getElem_cons hlt
    refine ⟨_, _, _, hdrop, hwaiting.trans hdrop, fun socket' queue' heq hcase => .inl ?_⟩
    refine ⟨⟨_, _, _, hstream'⟩, ?_, ?_⟩
    · rw [heq, hwaiting, hsame]
    · rw [hclient]
      exact hon.place.post hcase (by rw [hwaiting, hdrop]; exact List.cons_ne_nil _ _)
  · obtain ⟨left, lines, tail, htorn, hlen⟩ := hoff.rest
    obtain ⟨left', lines', tail', htorn', hleft⟩ := htorn.step (server_of_step hs)
    rw [posts_server] at hposts
    rw [Bool.toNat_false] at hlen
    obtain ⟨more, hdrop⟩ := hoff.waiting
    cases socket with
    | nil =>
      have hzero : 0 = left + 0 := hlen
      omega
    | cons seq rest =>
      refine ⟨seq, rest ++ more, rest, hdrop.symm, by rw [hoff.empty, List.append_nil],
        fun socket' queue' heq hcase => .inr ?_⟩
      obtain ⟨heq', rfl⟩ | ⟨hnil, -⟩ := hcase
      · obtain rfl : rest = socket' := (List.cons.inj heq').2
        refine ⟨hoff.failed, hoff.server hs, by rw [hclient]; exact hoff.attached,
          ⟨left', lines', tail', htorn', ?_⟩, ?_, hoff.empty⟩
        · have hlen' : rest.length + 1 = left + 0 := hlen
          rw [List.length_cons, Bool.toNat_true]
          omega
        · rw [hsame]
          exact ⟨more, hdrop⟩
      · cases hnil

/-- The notification that `serve` has counted is the first in the socket. -/
theorem Carried.unpark (h : Carried hl cfg name pc c true clog socket queue)
    (hpos : 1 ≤ posts clog) (hle : posts clog ≤ (signals clog).length) :
    ∃ seq socket' rest, socket = seq :: socket' ∧
      (signals clog).drop (posts clog - 1) = seq :: rest ∧
      Carried hl cfg name pc c false clog socket' queue := by
  rcases h with hon | hoff
  · have hwaiting := hon.waiting
    have hplace := hon.place
    cases socket with
    | nil =>
      rw [hplace.queue] at hwaiting
      have hlen := congrArg List.length hwaiting
      rw [List.length_drop, List.length_append, List.length_nil, Bool.toNat_true] at hlen
      omega
    | cons seq socket' =>
      exact ⟨seq, socket', _, rfl, hwaiting.symm,
        .inl ⟨hon.stream, tail_of_drop hwaiting.symm hpos, hplace.unpark⟩⟩
  · obtain ⟨left, lines, tail, htorn, hlen⟩ := hoff.rest
    obtain ⟨more, hdrop⟩ := hoff.waiting
    cases socket with
    | nil =>
      have hzero : 0 = left + 1 := hlen
      omega
    | cons seq socket' =>
      have hlen' : socket'.length + 1 = left + 1 := hlen
      exact ⟨seq, socket', socket' ++ more, rfl, hdrop.symm, .inr ⟨hoff.failed, hoff.gone,
        hoff.attached, ⟨left, lines, tail, htorn, Nat.succ.inj hlen'⟩,
        ⟨more, tail_of_drop hdrop.symm hpos⟩, hoff.empty⟩⟩

end Carried

theorem Noted.post {clog cev : List (StreamEvent φ)} {sig cnt del rest : List UInt64} {j : ι}
    {seq : UInt64} (h : Noted false clog sig cnt del) (hposts : posts cev = 1)
    (hsignals : signals cev = []) (hseq : (signals clog).drop (posts clog) = seq :: rest) :
    Noted true (clog ++ cev) (sig ++ []) (cnt ++ owned j (counted [SysEvent.posted j seq]))
      (del ++ []) where
  signalled := by simp [h.signalled, hsignals]
  posted := by
    rw [posts_append, hposts, signals_append, hsignals, List.append_nil, take_succ_of_drop hseq,
      h.posted]
    simp [owned, counted]
  unparked := by
    rw [posts_append, hposts, signals_append, hsignals, List.append_nil, List.append_nil]
    exact h.unparked

theorem Noted.unpark {clog : List (StreamEvent φ)} {sig cnt del rest : List UInt64} {j : ι}
    {seq : UInt64} (h : Noted true clog sig cnt del) (hle : 1 ≤ posts clog)
    (hseq : (signals clog).drop (posts clog - 1) = seq :: rest) :
    Noted false (clog ++ []) (sig ++ []) (cnt ++ [])
      (del ++ owned j (delivered [SysEvent.unpark j seq])) where
  signalled := by simp [h.signalled]
  posted := by simp [h.posted]
  unparked := by
    have htake := take_succ_of_drop hseq
    rw [Nat.sub_add_cancel hle] at htake
    rw [List.append_nil, h.unparked]
    simpa [owned, delivered] using htake.symm

/-! ### `serve` -/

/-- `serve` has something to do when `attach` has been called. -/
theorem Conveys.attached (h : Conveys hl cfg codec jobs s log q slog) {j : ι} {b : ServeAction}
    {r : StreamState × List (StreamEvent φ)}
    (hs : streamStep sj cfg (s.conn j) (.server b) = some r) :
    s.run j = .attach ∨ ∃ c p, s.run j = .loop c p := by
  have hlink := h.link j
  cases hr : s.run j with
  | connect =>
    rw [hr] at hlink
    rw [start_idle (.inl hlink.1)] at hs
    cases hs
  | recvFd =>
    rw [hr] at hlink
    rw [start_idle hlink.1] at hs
    cases hs
  | failed err =>
    rw [hr] at hlink
    exact hlink.elim
  | attach => exact .inl rfl
  | loop c p => exact .inr ⟨c, p, rfl⟩

/-- `serve` takes a step in which it comes to no notification. -/
theorem Conveys.serve_quiet (hd : sj.Documented)
    (h : Conveys hl cfg codec jobs s log q slog) {j : ι} {b : ServeAction} {c' : StreamState}
    {sev : List (ServeEvent φ)}
    (hs : streamStep sj cfg (s.conn j) (.server b) = some (c', sev.map .server))
    (hposts : posts (sev.map (StreamEvent.server (φ := φ))) = 0) (hs' : s'.system q = s.system q)
    (hrun : s'.run = s.run) (hconn : s'.conn = Function.update s.conn j c')
    (hcounted : s'.counted = s.counted) (hwaiting : s'.waiting = s.waiting) :
    Keeps hl cfg codec mm jobs (s.system q) slog s'
      (log ++ (sev.map .server).map (.control j)) := by
  have hlink := h.link j
  have hattached := h.attached hs
  have hnot : s.run j ≠ .recvFd := by
    intro heq
    rcases hattached with hr | ⟨c, p, hr⟩ <;> rw [hr] at heq <;> cases heq
  refine h.calm_own c' _ hrun hconn hcounted hs' hwaiting hnot (signals_server _) hposts ?_
  rcases hattached with hr | ⟨c, p, hr⟩
  · rw [hr] at hlink ⊢
    obtain ⟨⟨taken, done, todo, hstream⟩, hsig, hcounted, hq, hinfo⟩ := hlink
    obtain ⟨taken', done', todo', hstream', _⟩ := hstream.step hd hs
    refine ⟨⟨_, _, _, hstream'⟩, ?_, hcounted, hq, ?_⟩
    · rw [signals_append, hsig, signals_server]
      rfl
    · rw [(serverStep_of_step hs).1]
      exact hinfo
  · rw [hr] at hlink ⊢
    obtain ⟨rfl, hq, hcounted, hle, hbound, hcarried⟩ := hlink
    refine ⟨rfl, hq, hcounted, ?_, ?_, hcarried.quiet hd hs hposts⟩
    · rw [posts_append, hposts]
      exact hle
    · rw [posts_append, hposts, signals_append, signals_server, List.append_nil]
      exact hbound

/-- `serve` counts a notification. -/
theorem Conveys.serve_posted (hd : sj.Documented)
    (h : Conveys hl cfg codec jobs s log q slog) {j : ι} {b : ServeAction} {c' : StreamState}
    {sev : List (ServeEvent φ)} (hc : s.counted j = false)
    (hs : streamStep sj cfg (s.conn j) (.server b) = some (c', sev.map .server))
    (hposts : posts (sev.map (StreamEvent.server (φ := φ))) = 1)
    (hs' : ∀ q', s'.system q' = { s.system q' with postedCalls := s.postedCalls + 1 })
    (hrun : s'.run = s.run) (hconn : s'.conn = Function.update s.conn j c')
    (hcounted : s'.counted = Function.update s.counted j true) (hwaiting : s'.waiting = s.waiting) :
    Keeps hl cfg codec mm jobs (s.system q) slog s'
      (log ++ (sev.map .server).map (.control j)) := by
  have hlink := h.link j
  have hbooks := h.books j
  rcases h.attached hs with hr | ⟨c, p, hr⟩
  · -- nothing has been signalled
    rw [hr] at hlink
    obtain ⟨⟨taken, done, todo, hstream⟩, hsig, -, -, -⟩ := hlink
    obtain ⟨taken', done', todo', hstream', _⟩ := hstream.step hd hs
    have hle := hstream'.posts_le hd
    rw [posts_append, hposts, signals_append, hsig, signals_server] at hle
    cases hle
  · rw [hr] at hlink
    obtain ⟨rfl, hq, hqc, -, -, hcarried⟩ := hlink
    rw [hc] at hqc hbooks hcarried
    obtain ⟨seq, rest, rest', hseq, hall, hcarried'⟩ := hcarried.post hd hs hposts
    obtain ⟨socket, queue, bs, heq, hcase, hsend⟩ := comes_to_post c codec mm jobs s slog hall
    let p1 : Producer C UInt64 := { q j with socket := seq :: socket, queue := queue }
    have hp1 : Function.update q j p1 j = p1 := Function.update_self ..
    have hserve := serve_run c codec mm jobs s' slog (q := Function.update q j p1) (s := s) (j := j)
      (.count (congrArg Producer.socket hp1) (by rw [hp1]; exact hqc)) (hs' _)
    rw [hp1, Function.update_idem] at hserve
    refine ⟨_, _, _, hsend.trans hserve, ?_⟩
    refine h.own (s.run j) c' true (hrun.trans (Function.update_eq_self ..).symm) hconn hcounted
      hwaiting (by simp [hr]) (by simp [hr]) (fun k hk => connLog_control_of_ne hk _)
      (fun k hk => ?_) (sysLog_control j _).symm ?_ ?_
    · refine ⟨rfl, ?_, rfl⟩
      simp [owned, counted, hk.symm]
    · rw [connLog_control_self, hr]
      refine ⟨rfl, ?_, rfl, ?_, ?_, hcarried' socket queue heq hcase⟩
      · exact carrying_with hq _ _ _
      · rw [posts_append, hposts]
        exact Nat.le_add_left 1 _
      · rw [posts_append, hposts, signals_append, signals_server, List.append_nil]
        exact lt_of_drop_eq_cons hseq
    · rw [connLog_control_self]
      exact hbooks.post hposts (signals_server _) hseq

/-- A notification is counted in the loop. -/
theorem Conveys.counted_loop (h : Conveys hl cfg codec jobs s log q slog) {j : ι}
    (hc : s.counted j = true) : ∃ c p, s.run j = .loop c p := by
  have hlink := h.link j
  cases hr : s.run j with
  | loop c p => exact ⟨c, p, rfl⟩
  | connect =>
    rw [hr, hc] at hlink
    cases hlink.2.2.1
  | recvFd =>
    rw [hr, hc] at hlink
    cases hlink.2.2.1
  | attach =>
    rw [hr, hc] at hlink
    cases hlink.2.2.1
  | failed err =>
    rw [hr] at hlink
    exact hlink.elim

theorem Place.failed {socket queue : List UInt64} {counted : Bool} {client : ClientPc}
    {pc : ProducerPc UInt64} (h : Place socket queue counted client pc) (hpc : pc.isFailed = true) :
    (∃ info, client = .attached info) ∧ socket.length = counted.toNat := by
  cases pc with
  | failed e => exact h
  | _ => cases hpc

variable (cfg codec mm jobs) in
theorem drop_run (s : Wired ι C M) (slog : List (SysEvent ι UInt64)) {j : ι}
    (hfailed : (q j).pc.isFailed = true) :
    (sysMachine cfg codec (mm cfg) jobs).Run Machine.free (s.system q) slog [.drop j]
      (s.system (Function.update q j { q j with queue := [] })) (slog ++ []) := by
  have hstep : sysStep cfg codec (mm cfg) jobs (s.system q) (.drop j) =
      some (s.system (Function.update q j { q j with queue := [] }), []) := if_pos hfailed
  exact .single trivial hstep

/-- `serve` calls `unpark`. -/
theorem Conveys.unpark (h : Conveys hl cfg codec jobs s log q slog) {j : ι}
    (hc : s.counted j = true) :
    Keeps hl cfg codec mm jobs (s.system q) slog
      { s with counted := Function.update s.counted j false, token := true }
        (log ++ [.unpark j]) := by
  have hlink := h.link j
  have hbooks := h.books j
  obtain ⟨c, p, hr⟩ := h.counted_loop hc
  rw [hr] at hlink
  obtain ⟨rfl, hq, hqc, hle, hbound, hcarried⟩ := hlink
  rw [hc] at hqc hle hbooks hcarried
  obtain ⟨seq, socket, rest, hsocket, hseq, hcarried'⟩ := hcarried.unpark hle hbound
  refine ⟨_, _, _, serve_run c codec mm jobs _ slog (.unpark hsocket hqc) rfl, ?_⟩
  refine h.own (s.run j) (s.conn j) false (Function.update_eq_self ..).symm
    (Function.update_eq_self ..).symm rfl rfl (by simp [hr]) (by simp [hr]) (fun _ _ => rfl)
    (fun k hk => ?_) rfl ?_ (hbooks.unpark hle hseq)
  · refine ⟨rfl, rfl, ?_⟩
    simp [owned, delivered, hk.symm]
  · rw [hr, connLog_unpark, List.append_nil]
    exact ⟨rfl, carrying_with hq _ _ _, rfl, Nat.zero_le _, hbound, hcarried'⟩

/-- The client of a run that failed is gone. -/
theorem Conveys.drop (hd : sj.Documented) (hw : sj.NeedsWhole)
    (h : Conveys hl cfg codec jobs s log q slog) {j : ι} {c : RingConfig} {p : Producer C UInt64}
    (hloop : s.run j = .loop c p) (hfailed : p.pc.isFailed = true) :
    Keeps hl cfg codec mm jobs (s.system q) slog
      { s with conn := Function.update s.conn j (s.conn j).dropped } (log ++ []) := by
  have hlink := h.link j
  rw [hloop] at hlink
  obtain ⟨rfl, hq, hqc, hle, hbound, hside⟩ := hlink
  have hnot : s.run j ≠ .recvFd := by simp [hloop]
  rcases hside with hon | hoff
  · obtain ⟨taken, done, todo, hstream⟩ := hon.stream
    obtain ⟨left, lines, tail, htorn, hleft⟩ := hstream.torn hw
    have hall := hstream.unparks hd
    have hplace := hon.place.failed hfailed
    have hlen := congrArg List.length hon.waiting
    rw [List.length_append, List.length_drop, hplace.2] at hlen
    obtain ⟨bs, hsend⟩ := send_run c codec (mm c) jobs s j slog ((q j).queue.take left)
      ((q j).queue.drop left) q (List.take_append_drop ..).symm
    let p1 : Producer C UInt64 := { q j with
      queue := (q j).queue.drop left, socket := (q j).socket ++ (q j).queue.take left }
    have hp1 : Function.update q j p1 j = p1 := Function.update_self ..
    have hdrop := drop_run c codec mm jobs s slog
      (q := Function.update q j p1) (j := j) (by
        rw [hp1]
        exact (congrArg ProducerPc.isFailed (carrying_pc hq)).trans hfailed)
    rw [hp1, Function.update_idem] at hdrop
    refine ⟨_, _, _, hsend.trans hdrop, ?_⟩
    refine h.own (s.run j) (s.conn j).dropped (s.counted j) (Function.update_eq_self ..).symm rfl
      (Function.update_eq_self ..).symm rfl hnot hnot (fun _ _ => rfl)
        (fun _ _ => ⟨rfl, rfl, rfl⟩) rfl
      ?_ ((h.books j).quiet rfl rfl)
    · rw [connLog_nil, List.append_nil, hloop]
      refine ⟨rfl, ?_, hqc, hle, hbound,
        .inr ⟨hfailed, rfl, hplace.1, ⟨left, lines, tail, htorn, ?_⟩, ?_, rfl⟩⟩
      · exact carrying_with hq _ _ _
      · simp only [p1, List.length_append, List.length_take, hplace.2]
        change posts _ + _ = _ at hall
        omega
      · rw [← hon.waiting]
        exact (List.prefix_append_right_inj _).mpr (List.take_prefix _ _)
  · refine ⟨[], _, _, .nil, ?_⟩
    rw [hoff.gone, Function.update_eq_self, List.append_nil]
    exact h

/-! ### Until the loop begins -/

theorem reply_ne_start (name : String) :
    (StreamState.start sj name).reply MARKER ≠ .start sj name := by
  intro heq
  cases congrArg (·.server.out.bytes) heq

/-- What `recv_fd` takes is the marker, and nothing else was sent. -/
theorem reply_taken {name : String} {c : StreamState}
    (h : c = (StreamState.start sj name).reply MARKER) :
    c.server.out.bytes = MARKER ∧ { c with
      server := { c.server with out := { c.server.out with bytes := MARKER.drop 64 } } } =
        .start sj name := by
  rw [h]
  exact ⟨rfl, rfl⟩

/-- A step of `j` before its loop. -/
theorem Conveys.early (h : Conveys hl cfg codec jobs s log q slog) {j : ι} (run : RunPc C UInt64)
    (conn : StreamState) (hrun : s'.run = Function.update s.run j run)
    (hconn : s'.conn = Function.update s.conn j conn) (hcounted : s'.counted = s.counted)
    (hsys : s'.system q = s.system q)
    (hlink : Joined hl cfg codec (jobs j).name run conn (s.counted j) (connLog j log) (q j))
    (hline : s'.waiting.Nodup)
    (hwaits : ∀ k, k ∈ s'.waiting ↔ (s'.run k = .recvFd ∧ s'.conn k = .start sj (jobs k).name)) :
    Keeps hl cfg codec mm jobs (s.system q) slog s' (log ++ []) := by
  refine h.calm run conn [] hrun hconn hcounted hsys rfl rfl ?_ hline hwaits
  rwa [List.append_nil]

theorem Conveys.connect (h : Conveys hl cfg codec jobs s log q slog) {j : ι}
    (hrun : s.run j = .connect) :
    Keeps hl cfg codec mm jobs (s.system q) slog
      { s with
        run := Function.update s.run j .recvFd
        backlog := s.backlog ++ [j] } (log ++ []) := by
  have hlink := h.link j
  rw [hrun] at hlink
  obtain ⟨hstart, hlog, hcounted, hq⟩ := hlink
  have hnot : j ∉ s.waiting := by
    intro hm
    have hrecv := ((h.waits j).mp hm).1
    rw [hrun] at hrecv
    cases hrecv
  have hwaiting : Wired.waiting { s with
      run := Function.update s.run j .recvFd, backlog := s.backlog ++ [j] } = s.waiting ++ [j] := by
    unfold Wired.waiting
    cases s.accept <;> rfl
  refine h.early .recvFd (s.conn j) rfl (Function.update_eq_self ..).symm rfl rfl
    ⟨.inl hstart, hlog, hcounted, hq⟩ ?_ fun k => ?_
  · rw [hwaiting]
    exact List.nodup_append.mpr ⟨h.inLine, by simp, by
      rintro k hk _ hj rfl
      rw [List.mem_singleton.mp hj] at hk
      exact hnot hk⟩
  · rw [hwaiting, List.mem_append, List.mem_singleton, h.waits k]
    by_cases hk : k = j
    · subst hk
      simp [hstart]
    · simp [hk]

theorem Conveys.sendFd (h : Conveys hl cfg codec jobs s log q slog) {j : ι}
    (haccept : s.accept = .sendFd j) :
    Keeps hl cfg codec mm jobs (s.system q) slog
      { s with
        accept := .accept
        conn := Function.update s.conn j ((s.conn j).reply MARKER)
        spawned := Function.update s.spawned j true } (log ++ []) := by
  have hlink := h.link j
  have hline := h.inLine
  have hwaits := h.waits
  simp only [Wired.waiting, haccept] at hline hwaits
  obtain ⟨hrun, hstart⟩ := (hwaits j).mp (List.mem_cons_self ..)
  rw [hrun] at hlink
  obtain ⟨-, hlog, hcounted, hq⟩ := hlink
  refine h.early .recvFd ((s.conn j).reply MARKER)
    (hrun ▸ (Function.update_eq_self ..).symm) rfl rfl rfl
    ⟨.inr (by rw [hstart]), hlog, hcounted, hq⟩ (List.nodup_cons.mp hline).2 fun k => ?_
  by_cases hk : k = j
  · subst hk
    have hne : (StreamState.start sj (jobs k).name).reply MARKER ≠ .start sj (jobs k).name :=
      reply_ne_start _
    simp [Wired.waiting, (List.nodup_cons.mp hline).1, hstart, hne]
  · have hmem := hwaits k
    simp only [List.mem_cons, hk, false_or] at hmem
    simpa [Wired.waiting, hk] using hmem

theorem Conveys.recvFd (h : Conveys hl cfg codec jobs s log q slog) {j : ι} {b : UInt8}
    {bytes : List UInt8} (hrun : s.run j = .recvFd)
    (hbytes : (s.conn j).server.out.bytes = b :: bytes) {next : RunPc C UInt64}
    (hnext : next = if (b :: bytes).take 64 = MARKER then .attach
      else .failed s!"unexpected marker: {(b :: bytes).take 64}") :
    Keeps hl cfg codec mm jobs (s.system q) slog
      { s with
        run := Function.update s.run j next
        conn := Function.update s.conn j { s.conn j with
          server := { (s.conn j).server with
            out := { (s.conn j).server.out with bytes := (b :: bytes).drop 64 } } } }
      (log ++ []) := by
  have hlink := h.link j
  rw [hrun] at hlink
  obtain ⟨hstart | hreply, hlog, hcounted, hq⟩ := hlink
  · rw [hstart] at hbytes
    cases hbytes
  · obtain ⟨hmarker, hstart⟩ := reply_taken hreply
    rw [← hbytes, hmarker] at hnext ⊢
    obtain rfl : next = .attach := hnext
    rw [hstart]
    have hnot : j ∉ s.waiting := by
      intro hm
      have hfresh := ((h.waits j).mp hm).2
      rw [hreply] at hfresh
      exact reply_ne_start _ hfresh
    refine h.early .attach _ rfl rfl rfl rfl
      ⟨⟨_, _, _, by rw [hlog]; exact .start _⟩, by rw [hlog]; rfl, hcounted, hq, nofun⟩ h.inLine
      fun k => ?_
    change k ∈ s.waiting ↔ _
    by_cases hk : k = j
    · subst hk
      simp [hnot]
    · simpa [hk] using h.waits k

theorem Conveys.begin (hd : sj.Documented) (h : Conveys hl cfg codec jobs s log q slog) {j : ι}
    {info : AttachInfo} (hrun : s.run j = .attach)
    (hinfo : (s.conn j).client.pc = .attached info) :
    Keeps hl cfg codec mm jobs (s.system q) slog
      { s with
        run := Function.update s.run j (.loop info.ringConfig (.start info.ringConfig codec)) }
      (log ++ []) := by
  have hlink := h.link j
  rw [hrun] at hlink
  obtain ⟨⟨taken, done, todo, hstream⟩, hsig, hcounted, hq, hcfg⟩ := hlink
  have hposts : posts (connLog j log) = 0 := by
    have hle := hstream.posts_le hd
    rw [hsig] at hle
    exact Nat.le_zero.mp hle
  rw [hcfg info hinfo]
  refine h.early (.loop cfg (.start cfg codec))
    (s.conn j) rfl (Function.update_eq_self ..).symm rfl rfl
    ?_ h.inLine fun k => ?_
  · rw [hq, hcounted]
    refine ⟨rfl, rfl, rfl, Nat.zero_le _, by rw [hposts]; exact Nat.zero_le _,
      .inl ⟨⟨_, _, _, hstream⟩, ?_, ⟨info, hinfo⟩, rfl⟩⟩
    rw [hsig, List.drop_nil]
    rfl
  · change k ∈ s.waiting ↔ _
    rw [h.waits k]
    by_cases hk : k = j
    · subst hk
      simp [hrun]
    · simp [hk]

/-! ### Every step -/

omit [DecidableEq ι] in
theorem ConsumerTrans.isLocal {ops : SegOps UInt64 M} {stop : Bool} {c c' : Consumer C}
    {pop pop' : PopPc UInt64} {m m' : M} {sev : List (SysEvent ι UInt64)}
    (h : ConsumerTrans ι codec ops stop c pop m c' pop' m' sev) : ∀ e ∈ sev, e.isLocal = true := by
  cases h with
  | drain | recheck => exact local_ring _ _
  | halt | top | storeParked | storeRunningHit | addEvents | addWire | decodeDrain | decodeRecheck
  | unparked | storeRunning => simp [SysEvent.isLocal]

/-- A step that is the system's own. -/
theorem Conveys.same (h : Conveys hl cfg codec jobs s log q slog) {a : SysAction ι}
    (sev : List (SysEvent ι UInt64))
    (hs : sysStep cfg codec (mm cfg) jobs (s.system q) a = some (s'.system q, sev))
    (hrun : s'.run = s.run) (hconn : s'.conn = s.conn) (hcounted : s'.counted = s.counted)
    (hwaiting : s'.waiting = s.waiting) (hlocal : ∀ e ∈ sev, e.isLocal = true) :
    Keeps hl cfg codec mm jobs (s.system q) slog s' (log ++ sev.map .sys) :=
  ⟨[a], q, slog ++ sev, .single trivial hs, h.quiet s' sev hrun hconn hcounted hwaiting hlocal⟩

theorem Conveys.control (hd : sj.Documented) (hN : cfg.numSlots.toNat < 2 ^ 32)
    (hS : cfg.slotSize.toNat < 2 ^ 32) (h : Conveys hl cfg codec jobs s log q slog) {j : ι}
    {a : StreamAction} (hs : controlStep sj cfg s j a = some (s', ev)) :
    Keeps hl cfg codec mm jobs (s.system q) slog s' (log ++ ev) := by
  unfold controlStep at hs
  split at hs
  · rename_i b
    split at hs
    · rename_i hready
      obtain ⟨⟨c', cev⟩, hstep, hs⟩ := Option.map_eq_some_iff.mp hs
      cases hs
      obtain ⟨-, sev, rfl, hserver⟩ := serverStep_of_step hstep
      have hone := JsonServer.unparks_step_le hserver
      cases hposted : sev.any ServeEvent.isUnpark with
      | false =>
        have hnone : sev.countP ServeEvent.isUnpark = 0 := by
          rw [List.countP_eq_zero]
          intro e he hunpark
          rw [List.any_eq_false] at hposted
          exact hposted e he hunpark
        simp only [served_server, hposted, Bool.false_eq_true, if_false]
        refine h.serve_quiet hd hstep ((posts_server sev).trans hnone) rfl rfl rfl ?_ rfl
        rw [← hready.2]
        exact Function.update_eq_self ..
      | true =>
        have hpos : 0 < sev.countP ServeEvent.isUnpark := by
          rw [List.countP_pos_iff]
          exact List.any_eq_true.mp hposted
        simp only [served_server, hposted, if_true]
        exact h.serve_posted hd hready.2 hstep ((posts_server sev).trans (by omega))
          (fun _ => rfl) rfl
          rfl rfl rfl
    · cases hs
  · rename_i hserver
    split at hs
    · cases hs
    · rename_i hcall
      split at hs
      · rename_i hrun
        obtain ⟨⟨c', cev⟩, hstep, hs⟩ := Option.map_eq_some_iff.mp hs
        cases hs
        exact h.client hd hN hS (Bool.not_eq_true _ ▸ hcall) (fun b => hserver b) (.inl hrun) hstep
      · rename_i c p hrun
        obtain ⟨⟨c', cev⟩, hstep, hs⟩ := Option.map_eq_some_iff.mp hs
        cases hs
        exact h.client hd hN hS (Bool.not_eq_true _ ▸ hcall) (fun b => hserver b)
          (.inr ⟨c, p, hrun⟩)
          hstep
      · cases hs

theorem Conveys.step (hd : sj.Documented) (hw : sj.NeedsWhole) (hN : cfg.numSlots.toNat < 2 ^ 32)
    (hS : cfg.slotSize.toNat < 2 ^ 32) (h : Conveys hl cfg codec jobs s log q slog)
    {a : WiredAction ι} (hs : wiredStep sj cfg codec mm jobs s a = some (s', ev)) :
    Keeps hl cfg codec mm jobs (s.system q) slog s' (log ++ ev) := by
  cases a with
  | connect j =>
    simp only [wiredStep] at hs
    split at hs
    · rename_i hrun
      cases hs
      exact h.connect hrun
    · cases hs
  | accept =>
    simp only [wiredStep] at hs
    split at hs
    · rename_i j rest haccept hbacklog
      cases hs
      refine ⟨[], q, slog, .nil, ?_⟩
      have hkeep := h.quiet { s with accept := .sendFd j, backlog := rest } [] rfl rfl rfl
        (by simp [Wired.waiting, haccept, hbacklog]) (by simp)
      rw [List.append_nil slog] at hkeep
      exact hkeep
    · cases hs
  | sendFd =>
    simp only [wiredStep] at hs
    split at hs
    · rename_i j haccept
      cases hs
      exact h.sendFd haccept
    · cases hs
  | recvFd j =>
    simp only [wiredStep] at hs
    split at hs
    · rename_i b bytes hrun hbytes
      cases hs
      exact h.recvFd hrun hbytes rfl
    · cases hs
  | begin j =>
    simp only [wiredStep] at hs
    split at hs
    · rename_i info hrun hinfo
      cases hs
      exact h.begin hd hrun hinfo
    · cases hs
  | producer j now spurious =>
    simp only [wiredStep] at hs
    split at hs
    · rename_i c p hloop
      exact h.loop hd hloop hs
    · cases hs
  | control j a => exact h.control hd hN hS hs
  | unpark j =>
    simp only [wiredStep] at hs
    split at hs
    · rename_i hc
      cases hs
      exact h.unpark hc
    · cases hs
  | drop j =>
    simp only [wiredStep] at hs
    split at hs
    · rename_i c p hloop
      split at hs
      · rename_i hfailed
        cases hs
        exact h.drop hd hw hloop hfailed
      · cases hs
    · cases hs
  | consumer =>
    obtain ⟨⟨c, pop, m, sev⟩, hstep, hs⟩ := Option.map_eq_some_iff.mp hs
    cases hs
    refine h.same sev (a := .consumer) ?_ rfl rfl rfl rfl (consumerTrans_of_step hstep).isLocal
    exact congrArg (Option.map _) hstep
  | commit thread =>
    obtain ⟨m, hstep, hs⟩ := Option.map_eq_some_iff.mp hs
    cases hs
    exact h.same [] (a := .commit thread) (congrArg (Option.map _) hstep) rfl rfl rfl rfl
      (by simp)
  | stop =>
    cases hs
    exact h.same [] (a := .stop) rfl rfl rfl rfl rfl (by simp)

theorem Conveys.start (m : M) :
    Conveys hl cfg codec jobs (Wired.start sj cfg codec jobs m) ([] : List (WiredEvent ι φ))
      (fun _ => .start cfg codec) [] where
  link := fun _ => ⟨rfl, rfl, rfl, rfl⟩
  books := fun _ => ⟨rfl, rfl, rfl⟩
  others := rfl
  inLine := List.nodup_nil
  waits := fun _ => by simp [Wired.waiting, Wired.start]

/-- What the program comes to on whatever memory, the system comes to. -/
theorem wired_simulated (hd : sj.Documented) (hl : sj.OneLine) (hw : sj.NeedsWhole)
    (hN : cfg.numSlots.toNat < 2 ^ 32) (hS : cfg.slotSize.toNat < 2 ^ 32)
    {as : List (WiredAction ι)} {m : M} (hrun : (wiredMachine sj cfg codec mm jobs).Run Machine.free
      (Wired.start sj cfg codec jobs m) [] as s log) :
    ∃ bs q slog, (sysMachine cfg codec (mm cfg) jobs).Run Machine.free (System.start cfg codec m) []
      bs (s.system q) slog ∧ Conveys hl cfg codec jobs s log q slog := by
  have hstep : ∀ s log (t : System ι C UInt64 M) slog a s' ev,
      (∃ q, t = s.system q ∧ Conveys hl cfg codec jobs s log q slog) → Machine.free s log a →
      wiredStep sj cfg codec mm jobs s a = some (s', ev) →
      ∃ bs t' slog', (sysMachine cfg codec (mm cfg) jobs).Run Machine.free t slog bs t' slog' ∧
        ∃ q, t' = s'.system q ∧ Conveys hl cfg codec jobs s' (log ++ ev) q slog' := by
    rintro s log _ slog a s' ev ⟨q, rfl, hc⟩ _ hs
    obtain ⟨bs, q', slog', hsys, hc'⟩ := hc.step hd hw hN hS hs
    exact ⟨bs, _, slog', hsys, q', rfl, hc'⟩
  obtain ⟨bs, t, slog, hsys, q, rfl, hc⟩ := hrun.simulate
    (R := fun s log t slog => ∃ q, t = s.system q ∧ Conveys hl cfg codec jobs s log q slog)
    (t := System.start cfg codec m) ⟨_, rfl, .start m⟩ hstep
  exact ⟨bs, q, slog, hsys, hc⟩

end Steps

end ShmMpsc
