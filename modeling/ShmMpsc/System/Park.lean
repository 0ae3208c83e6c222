import ShmMpsc.System.Buffers

/-!
# The park handshake

What the consumer may rely on while it parks, behind store buffers: a `PARKED` store that
has left its buffer before the re-check loads `seq` is seen by everyone who publishes
later. Plain interleaving is the case of buffers that are always empty.
-/

namespace ShmMpsc

set_option autoImplicit false

variable {ι C W M : Type}

def ProducerPc.signalling : ProducerPc W → Bool
  | .signal _ _ => true
  | _ => false

/-- A notification of the producer has not come to `unpark` yet. -/
def Producer.Outstanding (p : Producer C W) : Prop :=
  p.pc.signalling = true ∨ p.queue ≠ [] ∨ p.socket ≠ []

/-- A notification is between a won CAS and the end of `park_timeout`. -/
def System.Pending (s : System ι C W M) : Prop :=
  (∃ j, (s.producer j).Outstanding) ∨ s.token = true

def System.Failed (s : System ι C W M) : Prop := ∃ j, (s.producer j).pc.isFailed

/-- Some producer has won the CAS since the consumer's last `PARKED` store. -/
def wonSincePark (log : List (SysEvent ι W)) : Bool :=
  log.foldl (fun won e => match e with
    | .storeState v => if v = STATE_PARKED then false else won
    | .casState _ w => won || w
    | _ => won) false

theorem exists_update [DecidableEq ι] {α : Type} {f : ι → α} {P : α → Prop} {j : ι} {x : α}
    (h : ∃ k, P (f k)) (hj : P (f j) → P x) : ∃ k, P (Function.update f j x k) := by
  obtain ⟨k, hk⟩ := h
  by_cases hkj : k = j
  · subst hkj
    exact ⟨k, by simpa using hj hk⟩
  · exact ⟨k, by simpa [hkj] using hk⟩

/-- The producers owe the parked consumer a notification, or one of them has failed. -/
def System.Awake (ops : SegOps W M) (s : TsoSystem ι C W M) (log : List (SysEvent ι W)) : Prop :=
  ops.loadState s.ring.mem.mem = some STATE_RUNNING ∧ wonSincePark log = true ∧
    (s.Failed ∨ s.Pending)

structure ParkInv (ops : SegOps W M) (s : TsoSystem ι C W M) (log : List (SysEvent ι W)) :
    Prop where
  buffers : BufferInv ops s
  probing : s.consumer.pc = .recheck → s.ring.pop.probing →
    (∃ bs, s.ring.mem.buf none = bs ++ [.state STATE_PARKED]) ∨
      s.ring.mem.buf none = [] ∧
        (ops.loadState s.ring.mem.mem = some STATE_PARKED ∨ s.Awake ops log)
  parked : s.consumer.pc = .park →
    s.ring.mem.buf none = [] ∧
      (ops.loadState s.ring.mem.mem = some STATE_PARKED ∨ s.Awake ops log) ∧
      (ops.loadState s.ring.mem.mem = some STATE_PARKED → ops.HeadPublished s.ring.mem.mem →
        ∃ j, (s.producer j).pc.casAhead)

/-- The re-check does not miss a message, or its load of `seq` comes after the `PARKED` store
has reached the memory, as behind a `SeqCst` fence. -/
def fenced [DecidableEq ι] (ops : SegOps W M) :
    Machine.Guard (TsoSystem ι C W M) (SysAction ι) (SysEvent ι W) := fun s _ a =>
  a = .consumer → s.consumer.pc = .recheck → ∀ out head, s.ring.pop = .loadSeq out head →
    s.ring.mem.buf none = [] ∨
      (ops.buffered none).loadSeq head s.ring.mem = some (ops.next head)

section Steps

variable [DecidableEq ι] {cfg : RingConfig} {codec : Codec C} {ops : SegOps W M}
  {jobs : ι → Job} {s s' : TsoSystem ι C W M} {log ev : List (SysEvent ι W)}

theorem pending_update {p : Producer C W} {j : ι}
    (hprod : s'.producer = Function.update s.producer j p)
    (hfail : (s.producer j).pc.isFailed → p.pc.isFailed)
    (hown : (s.producer j).Outstanding → p.Outstanding ∨ s'.token = true ∨ p.pc.isFailed)
    (htoken : s.token = true → s'.token = true) (h : s.Failed ∨ s.Pending) :
    s'.Failed ∨ s'.Pending := by
  rcases h with h | ⟨k, hk⟩ | h
  · refine .inl ?_
    unfold System.Failed
    rw [hprod]
    exact exists_update (P := fun q : Producer C W => q.pc.isFailed = true) h hfail
  · by_cases hkj : k = j
    · subst hkj
      rcases hown hk with h | h | h
      · exact .inr (.inl ⟨k, by simpa [hprod] using h⟩)
      · exact .inr (.inr h)
      · exact .inl ⟨k, by simpa [hprod] using h⟩
    · exact .inr (.inl ⟨k, by simpa [hprod, hkj] using hk⟩)
  · exact .inr (.inr (htoken h))

omit [DecidableEq ι] in
theorem SendTrans.outstanding {p p' : Producer C W} (h : SendTrans p p') : p'.Outstanding := by
  cases h
  exact .inr (.inr (by simp))

omit [DecidableEq ι] in
theorem ServeTrans.outstanding {j : ι} {p p' : Producer C W} {token token' : Bool}
    {calls calls' : UInt64} (h : ServeTrans j p token calls p' token' calls' ev) :
    (token = true → token' = true) ∧ (p.Outstanding → p'.Outstanding ∨ token' = true) ∧
      ∀ log, wonSincePark (log ++ ev) = wonSincePark log := by
  cases h with
  | unpark => exact ⟨fun _ => rfl, fun _ => .inr rfl, fun log => by simp [wonSincePark]⟩
  | count => exact ⟨id, .inl, fun log => by simp [wonSincePark]⟩

omit [DecidableEq ι] in
/-- A step of a producer or of its relay that leaves `consumer_state` alone. -/
theorem ParkInv.env (h : ParkInv ops s log) (hb : BufferInv ops s')
    (hsame : ops.Same s.ring.mem.mem s'.ring.mem.mem)
    (hbuf : s'.ring.mem.buf none = s.ring.mem.buf none) (hpop : s'.ring.pop = s.ring.pop)
    (hcons : s'.consumer = s.consumer) (hwon : wonSincePark (log ++ ev) = wonSincePark log)
    (hpend : s.Failed ∨ s.Pending → s'.Failed ∨ s'.Pending)
    (hcas : (∃ j, (s.producer j).pc.casAhead) → ∃ j, (s'.producer j).pc.casAhead) :
    ParkInv ops s' (log ++ ev) := by
  have hawake : ops.loadState s.ring.mem.mem = some STATE_PARKED ∨ s.Awake ops log →
      ops.loadState s'.ring.mem.mem = some STATE_PARKED ∨ s'.Awake ops (log ++ ev) := by
    rintro (hst | ⟨hst, hw, hp⟩)
    · exact .inl (hsame.state.trans hst)
    · exact .inr ⟨hsame.state.trans hst, hwon.trans hw, hpend hp⟩
  refine ⟨hb, fun hpc hprob => ?_, fun hpc => ?_⟩
  · rw [hcons] at hpc
    rw [hpop] at hprob
    rw [hbuf]
    exact (h.probing hpc hprob).imp_right fun h => ⟨h.1, hawake h.2⟩
  · rw [hcons] at hpc
    obtain ⟨hnil, haw, hpub⟩ := h.parked hpc
    refine ⟨hbuf.trans hnil, hawake haw, fun hst hp => ?_⟩
    exact hcas (hpub (hsame.state.symm.trans hst) (hsame.headPublished.mp hp))

theorem Producer.outstanding_of {p q : Producer C W} (hpc : p.pc.signalling = false)
    (hq : q.queue = p.queue) (hs : q.socket = p.socket) (h : p.Outstanding) : q.Outstanding := by
  rcases h with h | h | h
  · rw [hpc] at h
    cases h
  · exact .inr (.inl (hq ▸ h))
  · exact .inr (.inr (hs ▸ h))

omit [DecidableEq ι] in
theorem wonSincePark_ring (log : List (SysEvent ι W)) {α : Type} (f : α → RingEvent ι W)
    (es : List α) :
    wonSincePark (log ++ es.map fun e => .ring (f e)) = wonSincePark log := by
  simp [wonSincePark, List.foldl_map]

theorem ParkInv.producer (hF : ops.Framed) (h : ParkInv ops s log) {j : ι} {now : UInt64}
    {spurious : Bool} {p : Producer C W} {push : PushPc W} {b : Buffered (Option ι) (Store W) M}
    (hb : BufferInv ops (s.setProducer j p push b))
    (ht : ProducerTrans cfg codec (ops.buffered (some j)) (jobs j) j now spurious (s.producer j)
      (s.ring.push j) s.ring.mem p push b ev) :
    ParkInv ops (s.setProducer j p push b) (log ++ ev) := by
  have hents := h.buffers.entries j
  -- a step outside the CAS: the memory shows what it showed, no notification is lost
  have henv : ops.Same s.ring.mem.mem b.mem → b.buf none = s.ring.mem.buf none →
      wonSincePark (log ++ ev) = wonSincePark log → (s.producer j).pc.casAhead = false →
      (s.producer j).pc.isFailed = false →
      ((s.producer j).Outstanding → p.Outstanding ∨ p.pc.isFailed) →
      ParkInv ops (s.setProducer j p push b) (log ++ ev) := by
    intro hsame hbuf hwon hcas hfail hown
    refine h.env hb hsame hbuf rfl rfl hwon
      (pending_update rfl (fun hf => by simp [hfail] at hf) (fun ho => ?_) id) ?_
    · exact (hown ho).imp_right .inr
    · intro hex
      exact exists_update (P := fun q : Producer C W => q.pc.casAhead = true) hex
        fun hc => by simp [hcas] at hc
  have hrefl : ops.Same s.ring.mem.mem s.ring.mem.mem := ⟨rfl, rfl, fun _ => rfl⟩
  have hkeep {q : Producer C W} (hsig : (s.producer j).pc.signalling = false)
      (hq : q.queue = (s.producer j).queue) (hs : q.socket = (s.producer j).socket) :
      (s.producer j).Outstanding → q.Outstanding ∨ q.pc.isFailed := fun ho =>
    .inl (Producer.outstanding_of hsig hq hs ho)
  cases ht with
  | push hpc hr =>
    rw [hpc] at hents
    have hq := pushTrans_quietly hF hents (h.buffers.data j) (pushTrans_of_step hr)
    exact henv hq.same (hq.buf none (by simp)) (wonSincePark_ring log _ _)
      (by simp [hpc, ProducerPc.casAhead])
      (by simp [hpc, ProducerPc.isFailed]) (hkeep (by simp [hpc, ProducerPc.signalling]) rfl rfl)
  | encode hpc _ _ =>
    exact henv hrefl rfl (by simp [wonSincePark]) (by simp [hpc, ProducerPc.casAhead])
      (by simp [hpc, ProducerPc.isFailed]) (hkeep (by simp [hpc, ProducerPc.signalling]) rfl rfl)
  | retry hpc =>
    exact henv hrefl rfl (by simp [wonSincePark]) (by simp [hpc, ProducerPc.casAhead])
      (by simp [hpc, ProducerPc.isFailed]) (hkeep (by simp [hpc, ProducerPc.signalling]) rfl rfl)
  | encodeErr hpc _ _ =>
    exact henv hrefl rfl (by simp) (by simp [hpc, ProducerPc.casAhead])
      (by simp [hpc, ProducerPc.isFailed]) fun _ => .inr rfl
  | finish hpc _ =>
    exact henv hrefl rfl (by simp) (by simp [hpc, ProducerPc.casAhead])
      (by simp [hpc, ProducerPc.isFailed]) (hkeep (by simp [hpc, ProducerPc.signalling]) rfl rfl)
  | returned hpc _ =>
    exact henv hrefl rfl (by simp) (by simp [hpc, ProducerPc.casAhead])
      (by simp [hpc, ProducerPc.isFailed]) (hkeep (by simp [hpc, ProducerPc.signalling]) rfl rfl)
  | signal hpc =>
    exact henv hrefl rfl (by simp [wonSincePark]) (by simp [hpc, ProducerPc.casAhead])
      (by simp [hpc, ProducerPc.isFailed]) fun _ => .inl (.inr (.inl (by simp)))
  | @won i seq _ hpc hc =>
    -- the notification is on its way
    obtain ⟨hbuf, _, _, hst⟩ := casState_mem hF hents hc
    have hnone := hbuf none (by simp)
    have hawake : System.Awake ops (s.setProducer j { s.producer j with pc := .signal i seq }
        (s.ring.push j) b) (log ++ [.casState j true]) :=
      ⟨hst, by simp [wonSincePark], .inr (.inl ⟨j, .inl (by simp [System.setProducer,
        ProducerPc.signalling])⟩)⟩
    refine ⟨hb, fun hrc hprob => ?_, fun hpark => ?_⟩
    · exact (h.probing hrc hprob).imp (fun hex => hnone.symm ▸ hex)
        fun hh => ⟨hnone.trans hh.1, .inr hawake⟩
    · refine ⟨hnone.trans (h.parked hpark).1, .inr hawake, fun hst' => ?_⟩
      exact absurd (Eq.trans (Eq.symm hst) hst') (by decide)
  | @lost i seq _ hpc hc =>
    -- the word was not `PARKED`, so there is nothing to hope for from this CAS
    obtain ⟨hbuf, _, _, hne, hst⟩ := casState_mem hF hents hc
    have hnone := hbuf none (by simp)
    have hawake : ops.loadState s.ring.mem.mem = some STATE_PARKED ∨ s.Awake ops log →
        System.Awake ops (s.setProducer j { s.producer j with pc := .encode (i + 1) }
          (s.ring.push j) b)
          (log ++ [.casState j false]) := by
      rintro (hp | ⟨hrun, hw, hp⟩)
      · exact absurd hp hne
      · exact ⟨hst.trans hrun, by simpa [wonSincePark] using hw,
          pending_update rfl (fun hf => by simp [hpc, ProducerPc.isFailed] at hf)
            (fun ho => .inl (Producer.outstanding_of (p := s.producer j)
              (by simp [hpc, ProducerPc.signalling]) rfl rfl ho)) id hp⟩
    refine ⟨hb, fun hrc hprob => ?_, fun hpark => ?_⟩
    · exact (h.probing hrc hprob).imp (fun hex => hnone.symm ▸ hex)
        fun hh => ⟨hnone.trans hh.1, .inr (hawake hh.2)⟩
    · obtain ⟨hnil, haw, _⟩ := h.parked hpark
      refine ⟨hnone.trans hnil, .inr (hawake haw), fun hst' => ?_⟩
      exact absurd (hst.symm.trans hst') hne

theorem ParkInv.commit (hF : ops.Framed) (h : ParkInv ops s log) {t : Option ι}
    {b : Buffered (Option ι) (Store W) M}
    (hc : Buffered.commit (Store.apply ops) t s.ring.mem = some b) :
    ParkInv ops { s with ring := { s.ring with mem := b } } log := by
  have hb := h.buffers.commit hF hc
  obtain ⟨e, es, m, hbuf, hm, rfl⟩ := Buffered.commit_eq_some hc
  cases t with
  | none =>
    refine ⟨hb, fun hrc hprob => ?_, fun hpark => ?_⟩
    · rcases h.probing hrc hprob with ⟨bs, hbs⟩ | ⟨hnil, _⟩
      · rw [hbuf] at hbs
        cases bs with
        | nil =>
          -- the `PARKED` store itself
          cases hbs
          exact .inr ⟨by simp, .inl (hF.storeState hm).1⟩
        | cons b bs =>
          cases hbs
          exact .inl ⟨bs, by simp⟩
      · rw [hbuf] at hnil
        cases hnil
    · have hnil := (h.parked hpark).1
      rw [hbuf] at hnil
      cases hnil
  | some j =>
    have hent := h.buffers.entries j e (by rw [hbuf]; exact List.mem_cons_self)
    by_cases hahead : (s.producer j).pc.casAhead = true
    · -- a publishing store: its producer still has the CAS ahead
      have hst := (hent.state_head hF hm).1
      have hawake : ops.loadState s.ring.mem.mem = some STATE_PARKED ∨ s.Awake ops log →
          ops.loadState m = some STATE_PARKED ∨ System.Awake ops { s with ring := { s.ring with
            mem := ⟨m, Function.update s.ring.mem.buf (some j) es⟩ } } log := by
        rintro (hp | ⟨hrun, hw, hp⟩)
        · exact .inl (hst.trans hp)
        · exact .inr ⟨hst.trans hrun, hw, hp⟩
      refine ⟨hb, fun hrc hprob => ?_, fun hpark => ?_⟩
      · simpa using (h.probing hrc hprob).imp_right fun h => ⟨h.1, hawake h.2⟩
      · obtain ⟨hnil, haw, _⟩ := h.parked hpark
        exact ⟨by simpa using hnil, hawake haw, fun _ _ => ⟨j, hahead⟩⟩
    · have hsame := Store.Entry.same hF (by simpa [hahead] using hent) hm
      rw [← List.append_nil log]
      exact h.env hb hsame (by simp) rfl rfl (by simp) id id

omit [DecidableEq ι] in
/-- Pending notifications are no concern of the consumer's, except where it returns from its
park. -/
theorem System.Awake.consumer (c : Consumer C) (pop : PopPc W)
    {b : Buffered (Option ι) (Store W) M} (h : s.Awake ops log) (hpc : s.consumer.pc ≠ .park)
    (hmem : b.mem = s.ring.mem.mem) (hwon : wonSincePark (log ++ ev) = wonSincePark log) :
    (s.setConsumer c pop b).Awake ops (log ++ ev) := by
  obtain ⟨hst, hw, hp⟩ := h
  refine ⟨hmem.symm ▸ hst, hwon.trans hw, hp.imp_right fun hp => hp.imp_right fun ht => ?_⟩
  unfold System.setConsumer
  dsimp only
  split
  · contradiction
  · exact ht

theorem ParkInv.recheck (h : ParkInv ops s log) (hpc : s.consumer.pc = .recheck)
    {pop : PopPc W} {b : Buffered (Option ι) (Store W) M} {pev : List (PopEvent W)}
    (hg : ∀ out head, s.ring.pop = .loadSeq out head → s.ring.mem.buf none = [] ∨
      (ops.buffered none).loadSeq head s.ring.mem = some (ops.next head))
    (hr : PopTrans (ops.buffered none) s.ring.pop s.ring.mem pop b pev)
    (hb : BufferInv ops (s.setConsumer (afterPop .storeRunningHit .park s.consumer pop) pop b)) :
    ParkInv ops (s.setConsumer (afterPop .storeRunningHit .park s.consumer pop) pop b)
      (log ++ pev.map fun e => .ring (.pop e)) := by
  have hne : s.consumer.pc ≠ .park := by simp [hpc]
  rcases hr.probe with ⟨hprob, ⟨out, head, rfl⟩, rfl, rfl⟩ |
    ⟨out, head, seq, hpop, hq, hseq, rfl, rfl, rfl⟩ | ⟨hno, hmiss⟩
  · -- it looks on
    have hlook :=
      (h.probing hpc hprob).imp_right fun hh => And.intro hh.1 <| hh.2.imp_right fun haw =>
      haw.consumer s.consumer (.loadSeq out head) hne rfl
        (wonSincePark_ring log RingEvent.pop [])
    exact ⟨hb, fun _ _ => hlook, fun hpark => absurd hpark hne⟩
  · -- it finds nothing and parks: by then the store has left the buffer
    have hnil : s.ring.mem.buf none = [] := by
      rcases hg out head hpop with hnil | hpub
      · exact hnil
      · exact absurd (Option.some.inj (hq.symm.trans hpub)) hseq
    have hlook : ops.loadState s.ring.mem.mem = some STATE_PARKED ∨ s.Awake ops log := by
      rcases h.probing hpc (by rw [hpop]; rfl) with ⟨bs, hbs⟩ | hh
      · simp [hnil] at hbs
      · exact hh.2
    have hhead := h.buffers.head out head hpop
    rw [hnil] at hhead
    obtain ⟨m, hv, hq⟩ := Option.bind_eq_some_iff.mp hq
    rw [Buffered.view_of_nil hnil] at hv
    cases hv
    refine ⟨hb, fun hrc => (by cases hrc), fun _ => ⟨hnil, ?_, ?_⟩⟩
    · exact hlook.imp_right fun haw => haw.consumer _ _ hne rfl (wonSincePark_ring log _ _)
    · rintro _ ⟨head', hh, hq'⟩
      cases hhead.symm.trans hh
      exact absurd (Option.some.inj (hq.symm.trans hq')) hseq
  · have hpcs : (afterPop .storeRunningHit .park s.consumer pop).pc = .storeRunningHit ∨ _ :=
      afterPop_pc_of_ne hmiss
    refine ⟨hb, fun _ hprob => ?_, fun hpark => ?_⟩
    · exact absurd (hno.symm.trans hprob) (by simp)
    · rcases hpcs with h | h
      · exact absurd (hpark.symm.trans h) (by simp)
      · exact absurd (hpark.symm.trans (h.trans hpc)) (by simp)

/-- The consumer, whose re-check is what the guard is about. -/
theorem ParkInv.consumer (h : ParkInv ops s log) (hg : fenced ops s log .consumer)
    {stop : Bool} {c : Consumer C} {pop : PopPc W} {b : Buffered (Option ι) (Store W) M}
    (ht : ConsumerTrans ι codec (ops.buffered none) stop s.consumer s.ring.pop
      s.ring.mem c pop b ev)
    (hb : BufferInv ops (s.setConsumer c pop b)) :
    ParkInv ops (s.setConsumer c pop b) (log ++ ev) := by
  have helse (hrc : c.pc ≠ .recheck) (hpark : c.pc ≠ .park) :
      ParkInv ops (s.setConsumer c pop b) (log ++ ev) :=
    ⟨hb, fun h => absurd h hrc, fun h => absurd h hpark⟩
  cases ht with
  | recheck hpc hr => exact h.recheck hpc (hg rfl hpc) hr hb
  | storeParked hpc hm =>
    cases Buffered.store_eq_some hm
    exact ⟨hb, fun _ _ => .inl ⟨s.ring.mem.buf none, by simp [System.setConsumer]⟩,
      fun hpark => by cases hpark⟩
  | @drain drained _ _ _ hpc _ =>
    have hpcs := afterPop_pc (.addEvents (.drain (drained + 1)))
      (if drained = 0 then .storeParked else .stop) s.consumer pop
    rw [hpc] at hpcs
    refine helse ?_ ?_
    · rcases hpcs with h | h | h <;> rw [h] <;> (try split) <;> simp
    · rcases hpcs with h | h | h <;> rw [h] <;> (try split) <;> simp
  | _ => exact helse (by simp) (by simp)

theorem ParkInv.step [DecidableEq W] (hF : ops.Framed) (h : ParkInv ops s log) {a : SysAction ι}
    (hg : fenced ops s log a) (hs : sysStep cfg codec (tso ops) jobs s a = some (s', ev)) :
    ParkInv ops s' (log ++ ev) := by
  have hb := h.buffers.step hF hs
  have hrelay {j : ι} {p : Producer C W} (hpc : p.pc = (s.producer j).pc) {token : Bool}
      {calls : UInt64} (htoken : s.token = true → token = true)
      (hown : (s.producer j).Outstanding → p.Outstanding ∨ token = true ∨ p.pc.isFailed)
      (hwon : wonSincePark (log ++ ev) = wonSincePark log) : ParkInv ops { s with
        producer := Function.update s.producer j p, token := token, postedCalls := calls }
        (log ++ ev) :=
    h.env (h.buffers.relay hpc token calls) ⟨rfl, rfl, fun _ => rfl⟩ rfl rfl rfl hwon
      (pending_update rfl (fun hf => hpc ▸ hf) hown htoken)
      fun hex => exists_update (P := fun q : Producer C W => q.pc.casAhead = true) hex
        fun hc => hpc ▸ hc
  cases sysTrans_of_step hs with
  | @producer j now spurious p push b _ ht =>
    exact h.producer hF hb ht
  | @send j p hp =>
    exact hrelay (hp.pc) id (fun _ => .inl (hp.outstanding)) (by simp)
  | @serve j p token calls _ hp =>
    obtain ⟨htoken, hown, hwon⟩ := hp.outstanding
    exact hrelay (hp.pc) htoken (fun ho => (hown ho).imp_right .inl) (hwon log)
  | @drop j hf =>
    exact hrelay (j := j) (p := { s.producer j with queue := [] }) rfl id (fun _ => .inr (.inr hf))
      (by simp)
  | @consumer c pop b _ ht =>
    exact h.consumer hg ht hb
  | @commit t b hc =>
    simpa using h.commit hF hc
  | stop =>
    exact h.env hb ⟨rfl, rfl, fun _ => rfl⟩ rfl rfl rfl (by simp) id id

omit [DecidableEq ι] in
theorem parkInv_start (m : M) :
    ParkInv ops (System.start cfg codec (.flushed m) : TsoSystem ι C W M) [] where
  buffers := bufferInv_start m
  probing := fun hpc => by cases hpc
  parked := fun hpc => by cases hpc

end Steps

end ShmMpsc
