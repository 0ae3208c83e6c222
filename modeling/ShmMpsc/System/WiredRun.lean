import ShmMpsc.System.OnePerPark
import ShmMpsc.System.StoreFifo
import ShmMpsc.System.Wakeup
import ShmMpsc.System.WiredSim

/-!
# The program as a whole

From `connect` to the statistics: the handshake, the JSON lines of every connection, the ring
and the park, in one run.
-/

namespace ShmMpsc

set_option autoImplicit false

variable {ι C φ : Type}

def RunPc.isFailed {W : Type} : RunPc C W → Bool
  | .loop _ p => p.pc.isFailed
  | .failed _ => true
  | _ => false

/-- The loops of the producers, those that have not begun included. -/
def Wired.loops {M : Type} (cfg : RingConfig) (codec : Codec C) (s : Wired ι C M) (j : ι) :
    Producer C UInt64 :=
  match s.run j with
  | .loop _ p => p
  | _ => .start cfg codec

/-! ### What a log says without the notifications -/

section Filter

variable {W : Type} {slog log : List (SysEvent ι W)}

theorem filterMap_local {β : Type} {f : SysEvent ι W → Option β}
    (hf : ∀ e, e.isLocal = false → f e = none) (h : slog.filter SysEvent.isLocal = log) :
    slog.filterMap f = log.filterMap f := by
  rw [← h, List.filterMap_filter]
  refine List.filterMap_congr fun e _ => ?_
  cases hlocal : e.isLocal with
  | true => rfl
  | false => exact hf e hlocal

theorem ringLog_local (h : slog.filter SysEvent.isLocal = log) : ringLog slog = ringLog log :=
  filterMap_local (by rintro (_ | _) he <;> first | rfl | cases he) h

theorem winners_local (h : slog.filter SysEvent.isLocal = log) : winners slog = winners log :=
  filterMap_local (by rintro (_ | _) he <;> first | rfl | cases he) h

theorem encodings_local [DecidableEq ι] (j : ι) (h : slog.filter SysEvent.isLocal = log) :
    encodings j slog = encodings j log :=
  filterMap_local (by rintro (_ | _) he <;> first | rfl | cases he) h

theorem parks_local (h : slog.filter SysEvent.isLocal = log) : parks slog = parks log := by
  rw [← h, parks, List.countP_filter]
  refine List.countP_congr fun e _ => ?_
  cases e <;> simp [SysEvent.isLocal]

end Filter

/-! ### The system behind a run -/

section Runs

variable [DecidableEq ι] {sj : SerdeJson φ} {hl : sj.OneLine} {cfg : RingConfig} {codec : Codec C}
  {jobs : ι → Job} {as : List (WiredAction ι)} {s : Wired ι C Memory} {log : List (WiredEvent ι φ)}
  {q : ι → Producer C UInt64} {slog : List (SysEvent ι UInt64)}

theorem WiredRun.system (hd : sj.Documented) (hl : sj.OneLine) (hw : sj.NeedsWhole)
    (hslots : cfg.numSlots.toNat < 2 ^ 32) (hsize : cfg.slotSize.toNat < 2 ^ 32)
    (h : WiredRun sj cfg codec jobs as s log) :
    ∃ bs q slog, ScRun cfg codec jobs Machine.free bs (s.system q) slog ∧
      Conveys hl cfg codec jobs s log q slog := by
  obtain ⟨m, m', hm, hi, hrun⟩ := h
  obtain ⟨bs, q, slog, hsys, hc⟩ := wired_simulated hd hl hw hslots hsize hrun
  exact ⟨bs, q, slog, ⟨m, m', hm, hi, hsys⟩, hc⟩

/-- A producer of the system stands where the loop stands. -/
theorem Conveys.pc (h : Conveys hl cfg codec jobs s log q slog) (j : ι) :
    (q j).pc = (s.loops cfg codec j).pc := by
  have hlink := h.link j
  unfold Wired.loops
  cases hr : s.run j with
  | loop c p =>
    rw [hr] at hlink
    exact carrying_pc hlink.2.1
  | failed err =>
    rw [hr] at hlink
    exact hlink.elim
  | connect =>
    rw [hr] at hlink
    exact congrArg Producer.pc hlink.2.2.2
  | recvFd =>
    rw [hr] at hlink
    exact congrArg Producer.pc hlink.2.2.2
  | attach =>
    rw [hr] at hlink
    exact congrArg Producer.pc hlink.2.2.2.1

theorem Conveys.posts_le (h : Conveys hl cfg codec jobs s log q slog) (hd : sj.Documented) (j : ι) :
    posts (connLog j log) ≤ (signals (connLog j log)).length := by
  have hlink := h.link j
  cases hr : s.run j with
  | loop c p =>
    rw [hr] at hlink
    exact hlink.2.2.2.2.1
  | failed err =>
    rw [hr] at hlink
    exact hlink.elim
  | connect =>
    rw [hr] at hlink
    rw [hlink.2.1]
    exact Nat.le_refl 0
  | recvFd =>
    rw [hr] at hlink
    rw [hlink.2.1]
    exact Nat.le_refl 0
  | attach =>
    rw [hr] at hlink
    obtain ⟨⟨taken, done, todo, hstream⟩, -⟩ := hlink
    exact hstream.posts_le hd

/-- As long as the client is there the connection is that of one client and one server. -/
theorem Conveys.streaming (h : Conveys hl cfg codec jobs s log q slog) {j : ι}
    (hok : (s.run j).isFailed = false) :
    ((s.conn j = .start sj (jobs j).name ∨
      s.conn j = (StreamState.start sj (jobs j).name).reply MARKER) ∧
        connLog j log = []) ∨
      ∃ taken done todo,
        Streaming hl cfg (jobs j).name (s.conn j) (connLog j log) taken done todo := by
  have hlink := h.link j
  cases hr : s.run j with
  | loop c p =>
    rw [hr] at hlink hok
    obtain ⟨-, -, -, -, -, hon | hoff⟩ := hlink
    · exact .inr hon.stream
    · exact absurd (hoff.failed.symm.trans hok) (by simp)
  | failed err =>
    rw [hr] at hlink
    exact hlink.elim
  | connect =>
    rw [hr] at hlink
    exact .inl ⟨.inl hlink.1, hlink.2.1⟩
  | recvFd =>
    rw [hr] at hlink
    exact .inl ⟨hlink.1, hlink.2.1⟩
  | attach =>
    rw [hr] at hlink
    exact .inr hlink.1

theorem length_eq_sum_posts [Fintype ι] (h : Conveys hl cfg codec jobs s log q slog)
    (hd : sj.Documented) : (counted slog).length = ∑ j, posts (connLog j log) := by
  have hsum := Multiset.sum_count_eq_card (s := Finset.univ)
    (m := (((counted slog).map Prod.fst : List ι) : Multiset ι)) fun j _ => Finset.mem_univ j
  rw [Multiset.coe_card, List.length_map] at hsum
  rw [← hsum]
  refine Finset.sum_congr rfl fun j _ => ?_
  rw [Multiset.coe_count, count_map_fst, (h.books j).posted, List.length_take]
  exact Nat.min_eq_left (h.posts_le hd j)

/-! ### Every event, every notification -/

/-- What a run of the program comes to. -/
structure WiredOk [Fintype ι] (sj : SerdeJson φ) (cfg : RingConfig) (codec : Codec C)
    (jobs : ι → Job) (s : Wired ι C Memory) (log : List (WiredEvent ι φ)) : Prop where
  /-- Nobody is turned away, and every loop goes by the geometry of the segment. -/
  welcome : ∀ j err, s.run j ≠ .failed err
  geometry : ∀ j c p, s.run j = .loop c p → c = cfg
  /-- Every event is pushed, popped and counted once. -/
  events : EndToEnd cfg codec jobs (s.system (s.loops cfg codec)) (sysLog log)
  /-- A producer signals what it wins, -/
  wins : ∀ j, (winners (sysLog log)).count j =
    (signals (connLog j log)).length + (s.loops cfg codec j).pc.signalling.toNat
  /-- and the server reads what it has signalled, line for line. -/
  lines : ∀ j, (s.run j).isFailed = false →
    served (connLog j log) <+: expected sj cfg (jobs j).name (signals (connLog j log))
  posts_le : ∀ j, posts (connLog j log) ≤ (signals (connLog j log)).length
  served : ∀ j ok, (s.run j).isFailed = false → (s.conn j).server.pc = .returned ok →
    ok = true ∧ posts (connLog j log) = (signals (connLog j log)).length
  calls : s.postedCalls = UInt64.ofNat (∑ j, posts (connLog j log))
  /-- There are no more of them than the consumer has parked. -/
  parks : ∑ j, posts (connLog j log) ≤ parks (sysLog log)

theorem EndToEnd.of_local [Fintype ι] {t t' : System ι C UInt64 Memory}
    {slog log : List (SysEvent ι UInt64)}
    (h : EndToEnd cfg codec jobs t slog) (hlog : slog.filter SysEvent.isLocal = log)
    (hring : t'.ring = t.ring) (hconsumer : t'.consumer = t.consumer)
    (hpc : ∀ j, (t'.producer j).pc = (t.producer j).pc) : EndToEnd cfg codec jobs t' log := by
  have hringLog := ringLog_local hlog
  have hpopped : popped slog = popped log := by rw [popped, hringLog, popped]
  have hpushes (j : ι) : pushes j slog = pushes j log := by rw [pushes, hringLog, pushes]
  have hprocessed (j : ι) : processed j slog = processed j log := by
    rw [processed, hringLog, hpopped, processed]
  have hencodings (j : ι) := encodings_local j hlog
  constructor
  case numbered => simpa only [hencodings] using h.numbered
  case bounded => simpa only [hencodings] using h.bounded
  case pushed => simpa only [hencodings, hpushes] using h.pushed
  case returned => simpa only [hencodings, hpushes, hpc] using h.returned
  case inOrder => simpa only [hprocessed, hpushes] using h.inOrder
  case fifo => simpa only [hpopped, hringLog] using h.fifo
  case counted => simpa only [hpopped, hconsumer] using h.counted
  case events_le => simpa only [hconsumer] using h.events_le
  case drained => simpa only [hpc, hring, hpopped, hprocessed, hencodings,
    hconsumer] using h.drained
  case empty => simpa only [hpc, hring] using h.empty

/-- From `connect` on, every event of every producer is popped and counted once, and every
notification is for a park of the consumer and comes to the server at most once, in its order. -/
theorem wired_end_to_end [Fintype ι] (hd : sj.Documented) (hl : sj.OneLine) (hw : sj.NeedsWhole)
    (hN : 2 ≤ cfg.N) (hslots : cfg.numSlots.toNat < 2 ^ 32) (hsize : cfg.slotSize.toNat < 2 ^ 32)
    (hsum : ∑ j, (jobs j).n.toNat < 2 ^ 63 - cfg.N) (h : WiredRun sj cfg codec jobs as s log) :
    WiredOk sj cfg codec jobs s log := by
  obtain ⟨bs, q, slog, hsc, hc⟩ := h.system hd hl hw hslots hsize
  have hwindowed := hsc.windowed_of_total hsum
  obtain ⟨cs, hinit⟩ := hwindowed.initRun
  obtain ⟨u, ulog, hR⟩ := hinit.refines hN
  have hend := endToEnd_of_refines hinit.admitted hinit.fits hsc.loopsOk hR
  have hnotify := hsc.notifyInv
  have hposts := length_eq_sum_posts hc hd
  obtain ⟨-, hcounts, hsignals⟩ := hnotify.counts_le
  constructor
  case welcome =>
    intro j err hr
    have hlink := hc.link j
    rw [hr] at hlink
    exact hlink
  case geometry =>
    intro j c p hr
    have hlink := hc.link j
    rw [hr] at hlink
    exact hlink.1
  case events => exact hend.of_local hc.others rfl rfl fun j => (hc.pc j).symm
  case wins =>
    intro j
    have hwins := (hnotify.relay j).wins
    rw [winners_local hc.others, (hc.books j).signalled] at hwins
    rw [hwins, ← hc.pc j]
    rfl
  case lines =>
    intro j hok
    rcases hc.streaming hok with ⟨-, hnil⟩ | ⟨taken, done, todo, hstream⟩
    · rw [hnil]
      exact List.nil_prefix
    · rw [hstream.serving.log_eq, ← shown_clientLines hl hd, ← hstream.lines, List.flatMap_append]
      exact List.prefix_append _ _
  case posts_le => exact hc.posts_le hd
  case served =>
    intro j ok hok hpc
    rcases hc.streaming hok with ⟨hstart | hreply, -⟩ | ⟨taken, done, todo, hstream⟩
    · rw [hstart] at hpc
      cases hpc
    · rw [hreply] at hpc
      cases hpc
    · obtain ⟨htrue, rfl, -⟩ := hstream.serving.returned ok hpc
      exact ⟨htrue, hstream.unparks hd⟩
  case calls =>
    have hcalls := hnotify.calls
    rwa [hposts] at hcalls
  case parks =>
    have hle := Flips.winners_le (a := []) hnotify.watched.flips
    rw [← hposts, ← parks_local hc.others]
    exact (hcounts.trans hsignals).trans (Nat.le_trans (Nat.le_add_right _ _) hle)

/-! ### No wake-up is lost -/

omit [DecidableEq ι] in
theorem loops_isFailed {j : ι} (h : (s.run j).isFailed = false) :
    (s.loops cfg codec j).pc.isFailed = false := by
  unfold Wired.loops
  cases hr : s.run j with
  | loop c p =>
    rw [hr] at h
    exact h
  | _ => rfl

/-- What the system has between the queue and `unpark` is a line on its way, or is with `serve`. -/
theorem Conveys.on_its_way (h : Conveys hl cfg codec jobs s log q slog)
    (hnotify : NotifyInv (segOps cfg) (s.system q) slog) {j : ι}
    (hne : (q j).socket ≠ [] ∨ (q j).queue ≠ []) :
    posts (connLog j log) < (signals (connLog j log)).length ∨ s.counted j = true := by
  obtain ⟨lost, hsent, -⟩ := (hnotify.relay j).sent
  change _ = _ ++ (q j).socket ++ (q j).queue ++ lost at hsent
  rw [(h.books j).signalled, (h.books j).unparked] at hsent
  have hlen := congrArg List.length hsent
  have hpos : 0 < (q j).socket.length + (q j).queue.length := by
    rcases hne with hne | hne
    · exact Nat.add_pos_left (List.length_pos_iff.mpr hne) _
    · exact Nat.add_pos_right _ (List.length_pos_iff.mpr hne)
  simp only [List.length_append, List.length_take] at hlen
  cases hc : s.counted j with
  | true => exact .inr rfl
  | false =>
    rw [hc, Bool.toNat_false] at hlen
    exact .inl (by omega)

/-- A consumer that sleeps on a published message is going to be woken: by a CAS, by a notification
that the server has not come to, or by `serve`. -/
theorem wired_no_lost_wakeup (hd : sj.Documented) (hl : sj.OneLine) (hw : sj.NeedsWhole)
    (hslots : cfg.numSlots.toNat < 2 ^ 32) (hsize : cfg.slotSize.toNat < 2 ^ 32)
    (h : WiredRun sj cfg codec jobs as s log) (hok : ∀ j, (s.run j).isFailed = false)
    (hpark : s.consumer.pc = .park) (hpub : (segOps cfg).HeadPublished s.ring.mem) :
    ((segOps cfg).loadState s.ring.mem = some STATE_PARKED ∧
        ∃ j, (s.loops cfg codec j).pc.casAhead = true) ∨
      ((segOps cfg).loadState s.ring.mem = some STATE_RUNNING ∧
        ((∃ j, (s.loops cfg codec j).pc.signalling = true) ∨
          (∃ j, posts (connLog j log) < (signals (connLog j log)).length) ∨
          (∃ j, s.counted j = true) ∨ s.token = true)) := by
  obtain ⟨bs, q, slog, hsc, hc⟩ := h.system hd hl hw hslots hsize
  have hnotify := hsc.notifyInv
  obtain ⟨cs, hrun⟩ := hsc.flushed
  obtain ⟨_, hst, hcas⟩ := hrun.parkInv.parked hpark
  have hway (j : ι) (hne : (q j).socket ≠ [] ∨ (q j).queue ≠ []) :
      (∃ j, posts (connLog j log) < (signals (connLog j log)).length) ∨
        (∃ j, s.counted j = true) ∨ s.token = true := by
    rcases hc.on_its_way hnotify hne with hlt | hcounted
    · exact .inl ⟨j, hlt⟩
    · exact .inr (.inl ⟨j, hcounted⟩)
  rcases hst with hst | ⟨hst, _, ⟨j, hj⟩ | ⟨j, hj | hj | hj⟩ | ht⟩
  · obtain ⟨j, hj⟩ := hcas hst hpub
    exact .inl ⟨hst, j, hc.pc j ▸ hj⟩
  · -- nobody has failed
    have hfailed : (s.loops cfg codec j).pc.isFailed = false := loops_isFailed (hok j)
    rw [← hc.pc j] at hfailed
    exact absurd (hfailed.symm.trans hj) (by simp)
  · exact .inr ⟨hst, .inl ⟨j, hc.pc j ▸ hj⟩⟩
  · exact .inr ⟨hst, .inr (hway j (.inr hj))⟩
  · exact .inr ⟨hst, .inr (hway j (.inl hj))⟩
  · exact .inr ⟨hst, .inr (.inr (.inr ht))⟩

end Runs

/-! ### Runs of one producer -/

open RingConfig

abbrev WiredPair := Wired Unit Unit Memory × List (WiredEvent Unit Empty)

def execWired (as : List (WiredAction Unit)) : Option WiredPair :=
  (init tiny blank).bind fun m =>
    (wiredMachine compactJson tiny plain (fun c => sc (segOps c)) oneEvent).exec
      (Wired.start compactJson tiny plain oneEvent m, []) as

theorem wiredRun_of_execWired {as : List (WiredAction Unit)} {c : WiredPair}
    (h : execWired as = some c) : WiredRun compactJson tiny plain oneEvent as c.1 c.2 := by
  obtain ⟨m, hi, hrun⟩ := Option.bind_eq_some_iff.mp h
  exact ⟨blank, m, rfl, hi, Machine.run_of_exec hrun⟩

/-- The consumer parks, the producer connects and attaches, and its event wins the CAS. -/
def attachAndSignal : List (WiredAction Unit) :=
  List.replicate 6 .consumer ++ [.connect (), .accept, .sendFd, .recvFd ()] ++
    ([.write 66, .server (.fill 66), .server .scan, .server (.write 60), .fill 60, .scan].map
      (WiredAction.control ())) ++
    .begin () :: List.replicate 9 (.producer () 0 false)

/-- The notification comes to the server in two pieces; then everybody returns but the consumer. -/
def wholeRun : List (WiredAction Unit) :=
  attachAndSignal ++
    ([.recv, .writeTask 20, .server (.fill 20), .server .scan, .writeTask 35, .server (.fill 35),
      .server .scan].map (WiredAction.control ())) ++
    .unpark () :: List.replicate 14 .consumer ++ List.replicate 2 (.producer () 0 false) ++
    ([.recv, .server .eof, .join].map (WiredAction.control ())) ++ [.producer () 0 false]

theorem attachAndSignal_exec : (execWired attachAndSignal).map (fun c =>
    decide (c.1.consumer.pc = .park ∧ (segOps tiny).loadHead c.1.ring.mem = some 0 ∧
      (segOps tiny).loadSeq 0 c.1.ring.mem = some 1 ∧ (c.1.run ()).isFailed = false ∧
      signals (connLog () c.2) = [0] ∧ posts (connLog () c.2) = 0)) = some true := by
  decide +kernel

theorem wired_no_lost_wakeup_attached : ∃ s log,
    WiredRun compactJson tiny plain oneEvent attachAndSignal s log ∧
    s.consumer.pc = .park ∧ (segOps tiny).HeadPublished s.ring.mem ∧
    (((segOps tiny).loadState s.ring.mem = some STATE_PARKED ∧
        ∃ j, (s.loops tiny plain j).pc.casAhead = true) ∨
      ((segOps tiny).loadState s.ring.mem = some STATE_RUNNING ∧
        ((∃ j, (s.loops tiny plain j).pc.signalling = true) ∨
          (∃ j, posts (connLog j log) < (signals (connLog j log)).length) ∨
          (∃ j, s.counted j = true) ∨ s.token = true))) := by
  obtain ⟨c, hc, hd⟩ := Option.map_eq_some_iff.mp attachAndSignal_exec
  obtain ⟨hpark, hhead, hseq, hok, _⟩ := of_decide_eq_true hd
  have hrun := wiredRun_of_execWired hc
  have hpub : (segOps tiny).HeadPublished c.1.ring.mem := ⟨0, hhead, hseq⟩
  exact ⟨c.1, c.2, hrun, hpark, hpub, wired_no_lost_wakeup compactJson_documented
    compactJson_oneLine compactJson_needsWhole (by decide) (by decide) hrun
      (fun _ => hok) hpark hpub⟩

theorem wholeRun_exec : (execWired wholeRun).map (fun c =>
    decide (popped (sysLog c.2) = [[7]] ∧ c.1.consumer.pc.accounting = false ∧
      (c.1.run ()).isFailed = false ∧ (c.1.conn ()).server.pc.running = false ∧
      signals (connLog () c.2) = [0])) = some true := by
  decide +kernel

theorem wired_end_to_end_wholeRun : ∃ s log,
    WiredRun compactJson tiny plain oneEvent wholeRun s log ∧
    WiredOk compactJson tiny plain oneEvent s log ∧
    s.consumer.stats = { events := 1, wireBytes := 1, payloadBytes := 1 } ∧
    posts (connLog () log) = 1 ∧ s.postedCalls = 1 := by
  obtain ⟨c, hc, hd⟩ := Option.map_eq_some_iff.mp wholeRun_exec
  obtain ⟨hpopped, hacc, hfailed, hover, hsignals⟩ := of_decide_eq_true hd
  have hrun := wiredRun_of_execWired hc
  have hok := wired_end_to_end compactJson_documented compactJson_oneLine compactJson_needsWhole
    (by decide) (by decide) (by decide) (by decide) hrun
  have hstats := hok.events.counted hacc
  rw [hpopped] at hstats
  have hposts : posts (connLog () c.2) = 1 := by
    cases hpc : (c.1.conn ()).server.pc with
    | returned ok =>
      rw [(hok.served () ok hfailed hpc).2, hsignals]
      rfl
    | _ =>
      rw [hpc] at hover
      cases hover
  have hcalls := hok.calls
  rw [Fintype.sum_unique] at hcalls
  refine ⟨c.1, c.2, hrun, hok, hstats, hposts, ?_⟩
  rw [hcalls]
  exact congrArg UInt64.ofNat hposts

end ShmMpsc
