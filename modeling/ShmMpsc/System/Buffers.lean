import ShmMpsc.System.Orders

/-!
# What waits in the store buffers

A producer has nothing but the bytes of its message waiting, until its publishing store;
that store leaves the buffer with the CAS on `consumer_state` at the latest.
-/

namespace ShmMpsc

set_option autoImplicit false

variable {ι C W M : Type}

def ProducerPc.casAhead : ProducerPc W → Bool
  | .casState _ _ => true
  | _ => false

/-- `try_pop` has not seen a message yet. -/
def PopPc.probing : PopPc W → Bool
  | .loadHead _ | .loadSeq _ _ => true
  | _ => false

/-- A step of `try_pop` looks on, finds nothing, or has found something. -/
theorem PopTrans.probe {ops : SegOps W M} {pop pop' : PopPc W} {m m' : M} {ev : List (PopEvent W)}
    (h : PopTrans ops pop m pop' m' ev) :
    (pop.probing = true ∧ (∃ out head, pop' = .loadSeq out head) ∧ m' = m ∧ ev = []) ∨
      (∃ out head seq, pop = .loadSeq out head ∧ ops.loadSeq head m = some seq ∧
        seq ≠ ops.next head ∧ pop' = .done none out ∧ m' = m ∧ ev = [.none out]) ∨
      (pop'.probing = false ∧ ∀ out, pop' ≠ .done none out) := by
  cases h with
  | loadHead => exact .inl ⟨rfl, ⟨_, _, rfl⟩, rfl, rfl⟩
  | empty hq hne => exact .inr (.inl ⟨_, _, _, rfl, hq, hne, rfl, rfl, rfl⟩)
  | ready => exact .inr (.inr ⟨rfl, fun _ h => by cases h⟩)
  | readLen => exact .inr (.inr ⟨rfl, fun _ h => by cases h⟩)
  | readPayload => exact .inr (.inr ⟨rfl, fun _ h => by cases h⟩)
  | release => exact .inr (.inr ⟨rfl, fun _ h => by cases h⟩)
  | storeHead => exact .inr (.inr ⟨rfl, fun _ h => by cases h⟩)

/-- A store that a producer may have waiting; only one with its CAS ahead (`ahead`) has a
publishing store there. -/
def Store.Entry (L : Nat) (ahead : Bool) : Store W → Prop
  | .len _ _ => True
  | .payload _ bs => bs.length ≤ L
  | .seq _ _ => ahead = true
  | .head _ | .state _ => False

/-- A store that the consumer may have waiting. -/
def Store.Released : Store W → Prop
  | .len _ _ | .payload _ _ => False
  | .seq _ _ | .head _ | .state _ => True

/-- What the consumer's head will be once its stores have reached the memory. -/
def headAfter (head : Option W) : Store W → Option W
  | .head v => some v
  | _ => head

section Drain

variable {ops : SegOps W M} {m m' : M} {b : Store W} {bs : List (Store W)}

theorem Store.Released.head (hF : ops.Framed) (hb : b.Released) (h : b.apply ops m = some m') :
    ops.loadHead m' = headAfter (ops.loadHead m) b := by
  cases b with
  | seq pos v => exact (hF.storeSeq h).2
  | len pos v => cases hb
  | payload pos bs => cases hb
  | head v => exact (hF.storeHead h).2
  | state v => exact (hF.storeState h).2

theorem Store.Entry.state_head (hF : ops.Framed) {ahead : Bool} (hb : b.Entry ops.maxLen ahead)
    (h : b.apply ops m = some m') :
    ops.loadState m' = ops.loadState m ∧ ops.loadHead m' = ops.loadHead m := by
  cases b with
  | seq pos v => exact hF.storeSeq h
  | len pos v => exact ⟨(hF.storeLen h).state, (hF.storeLen h).head⟩
  | payload pos bs => exact ⟨(hF.writePayload hb h).state, (hF.writePayload hb h).head⟩
  | head v => cases hb
  | state v => cases hb

theorem Store.Entry.same (hF : ops.Framed) (hb : b.Entry ops.maxLen false)
    (h : b.apply ops m = some m') : ops.Same m m' := by
  cases b with
  | seq pos v => cases hb
  | len pos v => exact hF.storeLen h
  | payload pos bs => exact hF.writePayload hb h
  | head v => cases hb
  | state v => cases hb

theorem Store.Entry.mono {L : Nat} {ahead : Bool} (hb : b.Entry L false) : b.Entry L ahead := by
  cases b <;> first | exact hb | cases hb

theorem drain_state_head (hF : ops.Framed) {ahead : Bool} (hbs : ∀ b ∈ bs, b.Entry ops.maxLen ahead)
    (h : Buffered.drain (Store.apply ops) bs m = some m') :
    ops.loadState m' = ops.loadState m ∧ ops.loadHead m' = ops.loadHead m :=
  ⟨Buffered.drain_keeps (fun b hb _ _ h => ((hbs b hb).state_head hF h).1) h,
    Buffered.drain_keeps (fun b hb _ _ h => ((hbs b hb).state_head hF h).2) h⟩

theorem drain_same (hF : ops.Framed) (hbs : ∀ b ∈ bs, b.Entry ops.maxLen false)
    (h : Buffered.drain (Store.apply ops) bs m = some m') : ops.Same m m' where
  state := Buffered.drain_keeps (fun b hb _ _ h => ((hbs b hb).same hF h).state) h
  head := Buffered.drain_keeps (fun b hb _ _ h => ((hbs b hb).same hF h).head) h
  seq := fun pos => Buffered.drain_keeps (fun b hb _ _ h => ((hbs b hb).same hF h).seq pos) h

end Drain

/-! ### What a thread does to the memory -/

def PushPc.succeeded : PushPc W → Bool
  | .done (.ok _) => true
  | _ => false

@[simp] theorem casAhead_afterPush (cfg : RingConfig) (scratch : List UInt8) (i : UInt64)
    (push : PushPc W) : (afterPush cfg scratch i push).casAhead = push.succeeded := by
  cases push with
  | done r =>
    cases r with
    | ok pos => rfl
    | error e => cases e <;> rfl
  | _ => rfl

section Threads

variable [DecidableEq ι] {ops : SegOps W M} {b b' : Buffered (Option ι) (Store W) M} {j : ι}

/-- A step of producer `j` that does not touch `consumer_state`. -/
structure Quietly (ops : SegOps W M) (j : ι) (ahead : Bool)
    (b b' : Buffered (Option ι) (Store W) M) : Prop where
  buf : ∀ k, k ≠ some j → b'.buf k = b.buf k
  same : ops.Same b.mem b'.mem
  entries : ∀ e ∈ b'.buf (some j), e.Entry ops.maxLen ahead

omit [DecidableEq ι] in
theorem Quietly.refl {ahead : Bool} (he : ∀ e ∈ b.buf (some j), e.Entry ops.maxLen ahead) :
    Quietly ops j ahead b b :=
  ⟨fun _ _ => rfl, ⟨rfl, rfl, fun _ => rfl⟩, he⟩

theorem Quietly.store {ahead : Bool} {e : Store W}
    (hents : ∀ e ∈ b.buf (some j), e.Entry ops.maxLen false) (he : e.Entry ops.maxLen ahead)
    (h : b.store (Store.apply ops) (some j) e = some b') : Quietly ops j ahead b b' := by
  cases Buffered.store_eq_some h
  refine ⟨fun k hk => by simp [hk], ⟨rfl, rfl, fun _ => rfl⟩, ?_⟩
  intro e' he'
  simp only [Function.update_self, List.mem_append, List.mem_singleton] at he'
  rcases he' with he' | rfl
  · exact (hents e' he').mono
  · exact he

theorem pushTrans_quietly (hF : ops.Framed)
    (hents : ∀ e ∈ b.buf (some j), e.Entry ops.maxLen false) {spurious : Bool}
    {push push' : PushPc W} {ev : List (PushEvent W)}
    (hdata : ∀ data, push.data = some data → data.length ≤ ops.maxLen)
    (h : PushTrans (ops.buffered (some j)) spurious push b push' b' ev) :
    Quietly ops j push'.succeeded b b' := by
  have hmono : ∀ {ahead}, ∀ e ∈ b.buf (some j), e.Entry ops.maxLen ahead :=
    fun e he => (hents e he).mono
  have hcas : ∀ {expected new won}, (ops.buffered (some j)).casTail expected new b =
      some (b', won) →
      Quietly ops j false b b' := by
    intro expected new won hc
    obtain ⟨m, m', hv, hop, rfl⟩ := Buffered.rmw_eq_some hc
    have h1 := drain_same hF hents hv
    have h2 := hF.casTail hop
    exact ⟨fun k hk => by simp [hk], ⟨h2.state.trans h1.state, h2.head.trans h1.head,
      fun pos => (h2.seq pos).trans (h1.seq pos)⟩, by simp⟩
  cases h with
  | loadTail => exact .refl hmono
  | free => exact .refl hmono
  | full => exact .refl hmono
  | stale => exact .refl hmono
  | spurious => exact .refl hmono
  | won _ hc => exact hcas hc
  | lost _ hc => exact hcas hc
  | writeLen hm => exact .store (e := .len _ _) hents trivial hm
  | writePayload hm => exact .store (e := .payload _ _) hents (hdata _ rfl) hm
  | publish hm => exact .store (e := .seq _ _) hents rfl hm

/-- The consumer's stores wait; what it loads changes nothing. -/
structure Waits (b b' : Buffered (Option ι) (Store W) M) : Prop where
  mem : b'.mem = b.mem
  buf : ∀ k, k ≠ none → b'.buf k = b.buf k
  released : ∀ e ∈ b'.buf none, e ∈ b.buf none ∨ e.Released

omit [DecidableEq ι] in
theorem Waits.refl : Waits b b := ⟨rfl, fun _ _ => rfl, fun _ he => .inl he⟩

theorem Waits.store {e : Store W} (he : e.Released)
    (h : b.store (Store.apply ops) none e = some b') : Waits b b' := by
  cases Buffered.store_eq_some h
  refine ⟨rfl, fun k hk => by simp [hk], ?_⟩
  intro e' he'
  simp only [Function.update_self, List.mem_append, List.mem_singleton] at he'
  rcases he' with he' | rfl
  · exact .inl he'
  · exact .inr he

theorem popTrans_waits {pop pop' : PopPc W} {ev : List (PopEvent W)}
    (h : PopTrans (ops.buffered (none : Option ι)) pop b pop' b' ev) :
    Waits b b' ∧ (pop.probing → b' = b) := by
  cases h with
  | loadHead => exact ⟨.refl, fun _ => rfl⟩
  | empty => exact ⟨.refl, fun _ => rfl⟩
  | ready => exact ⟨.refl, fun _ => rfl⟩
  | readLen => exact ⟨.refl, fun _ => rfl⟩
  | readPayload => exact ⟨.refl, fun _ => rfl⟩
  | release hm => exact ⟨.store (e := .seq _ _) trivial hm, fun h => by cases h⟩
  | storeHead hm => exact ⟨.store (e := .head _) trivial hm, fun h => by cases h⟩

theorem casState_mem (hF : ops.Framed) {ahead won : Bool}
    (hents : ∀ e ∈ b.buf (some j), e.Entry ops.maxLen ahead)
    (h : (ops.buffered (some j)).casState STATE_PARKED STATE_RUNNING b = some (b', won)) :
    (∀ k, k ≠ some j → b'.buf k = b.buf k) ∧ b'.buf (some j) = [] ∧
      ops.loadHead b'.mem = ops.loadHead b.mem ∧
      (if won then ops.loadState b'.mem = some STATE_RUNNING
        else ops.loadState b.mem ≠ some STATE_PARKED ∧ ops.loadState b'.mem =
          ops.loadState b.mem) := by
  obtain ⟨m, m', hv, hop, rfl⟩ := Buffered.rmw_eq_some h
  have hd := drain_state_head hF hents hv
  refine ⟨fun k hk => by simp [hk], by simp, ?_⟩
  cases won with
  | true =>
    have hw := hF.won hop
    exact ⟨hw.2.2.trans hd.2, hw.2.1⟩
  | false =>
    obtain ⟨rfl, hne⟩ := hF.lost hop
    exact ⟨hd.2, hd.1 ▸ hne, hd.1⟩

end Threads

/-! ### The buffers along a run -/

structure BufferInv (ops : SegOps W M) (s : TsoSystem ι C W M) : Prop where
  data : ∀ j data, (s.ring.push j).data = some data → data.length ≤ ops.maxLen
  entries : ∀ j, ∀ e ∈ s.ring.mem.buf (some j), e.Entry ops.maxLen (s.producer j).pc.casAhead
  released : ∀ e ∈ s.ring.mem.buf none, e.Released
  head : ∀ out head, s.ring.pop = .loadSeq out head →
    (s.ring.mem.buf none).foldl headAfter (ops.loadHead s.ring.mem.mem) = some head

theorem pushCall_data {ops : SegOps W M} {data data' : List UInt8}
    (h : (pushCall ops data).data = some data') : data'.length ≤ ops.maxLen := by
  unfold pushCall at h
  split at h
  · cases h
  · rename_i hle
    cases h
    omega

section Invariant

variable [DecidableEq ι] {cfg : RingConfig} {codec : Codec C} {ops : SegOps W M}
  {jobs : ι → Job} {s s' : TsoSystem ι C W M} {log : List (SysEvent ι W)}

/-- What a step of producer `j` leaves of the buffers. -/
theorem producerTrans_buffers (hF : ops.Framed) (h : BufferInv ops s) {j : ι} {now : UInt64}
    {spurious : Bool} {p : Producer C W} {push : PushPc W}
    {b : Buffered (Option ι) (Store W) M} {ev : List (SysEvent ι W)}
    (ht : ProducerTrans cfg codec (ops.buffered (some j)) (jobs j) j now spurious (s.producer j)
      (s.ring.push j) s.ring.mem p push b ev) :
    (∀ data, push.data = some data → data.length ≤ ops.maxLen) ∧
      (∀ k, k ≠ some j → b.buf k = s.ring.mem.buf k) ∧
      (∀ e ∈ b.buf (some j), e.Entry ops.maxLen p.pc.casAhead) ∧
      ops.loadHead b.mem = ops.loadHead s.ring.mem.mem := by
  have hents := h.entries j
  have hdata := h.data j
  cases ht with
  | push hpc hr =>
    have htr := pushTrans_of_step hr
    rw [hpc] at hents
    have hq := pushTrans_quietly hF hents hdata htr
    refine ⟨fun d hd => hdata d (htr.data_eq hd), hq.buf, ?_, hq.same.head⟩
    simpa using hq.entries
  | won hpc hc =>
    obtain ⟨hb, hnil, hh, _⟩ := casState_mem hF hents hc
    exact ⟨hdata, hb, by simp [hnil], hh⟩
  | lost hpc hc =>
    obtain ⟨hb, hnil, hh, _⟩ := casState_mem hF hents hc
    exact ⟨hdata, hb, by simp [hnil], hh⟩
  | encode hpc _ _ =>
    rw [hpc] at hents
    exact ⟨fun d hd => pushCall_data hd, fun _ _ => rfl, fun e he => (hents e he).mono, rfl⟩
  | retry hpc =>
    rw [hpc] at hents
    exact ⟨fun d hd => pushCall_data hd, fun _ _ => rfl, fun e he => (hents e he).mono, rfl⟩
  | encodeErr hpc _ _ => exact ⟨hdata, fun _ _ => rfl, by rwa [hpc] at hents, rfl⟩
  | finish hpc _ => exact ⟨hdata, fun _ _ => rfl, by rwa [hpc] at hents, rfl⟩
  | signal hpc => exact ⟨hdata, fun _ _ => rfl, by rwa [hpc] at hents, rfl⟩
  | returned hpc _ => exact ⟨hdata, fun _ _ => rfl, by rwa [hpc] at hents, rfl⟩

/-- The head that `try_pop` has loaded is the consumer's. -/
theorem popTrans_head (hF : ops.Framed) {b b' : Buffered (Option ι) (Store W) M}
    (hrel : ∀ e ∈ b.buf none, e.Released) {pop : PopPc W} {ev : List (PopEvent W)}
    {out : List UInt8} {head : W}
    (h : PopTrans (ops.buffered (none : Option ι)) pop b (.loadSeq out head) b' ev) :
    (b'.buf none).foldl headAfter (ops.loadHead b'.mem) = some head := by
  cases h with
  | loadHead hh =>
    obtain ⟨m, hv, hh⟩ := Option.bind_eq_some_iff.mp hh
    rw [← hh, Buffered.drain_foldl (fun e he _ _ ha => (hrel e he).head hF ha) hv]

theorem consumerTrans_buffers (hF : ops.Framed) (h : BufferInv ops s) {stop : Bool} {c : Consumer C}
    {pop : PopPc W} {b : Buffered (Option ι) (Store W) M} {ev : List (SysEvent ι W)}
    (ht : ConsumerTrans ι codec (ops.buffered none) stop s.consumer s.ring.pop
      s.ring.mem c pop b ev) :
    Waits s.ring.mem b ∧ (∀ out head, pop = .loadSeq out head →
      (b.buf none).foldl headAfter (ops.loadHead b.mem) = some head) := by
  have hstate : ∀ {v b}, (ops.buffered none).storeState v s.ring.mem = some b →
      Waits s.ring.mem b ∧ (∀ out head, s.ring.pop = .loadSeq out head →
        (b.buf none).foldl headAfter (ops.loadHead b.mem) = some head) := by
    intro v b hm
    refine ⟨.store (e := .state v) trivial hm, ?_⟩
    cases Buffered.store_eq_some hm
    intro out head hpop
    simpa [headAfter] using h.head out head hpop
  cases ht with
  | halt => exact ⟨.refl, h.head⟩
  | top => exact ⟨.refl, fun _ _ hpop => by cases hpop⟩
  | drain _ hr =>
    exact ⟨(popTrans_waits hr).1, fun _ _ hpop => popTrans_head hF h.released (hpop ▸ hr)⟩
  | storeParked _ hm => exact ⟨(hstate hm).1, fun _ _ hpop => by cases hpop⟩
  | recheck _ hr =>
    exact ⟨(popTrans_waits hr).1, fun _ _ hpop => popTrans_head hF h.released (hpop ▸ hr)⟩
  | storeRunningHit _ hm => exact hstate hm
  | addEvents => exact ⟨.refl, h.head⟩
  | addWire => exact ⟨.refl, h.head⟩
  | decodeDrain => exact ⟨.refl, fun _ _ hpop => by cases hpop⟩
  | decodeRecheck => exact ⟨.refl, h.head⟩
  | unparked => exact ⟨.refl, h.head⟩
  | storeRunning _ hm => exact hstate hm

theorem BufferInv.relay (h : BufferInv ops s) {j : ι} {p : Producer C W}
    (hp : p.pc = (s.producer j).pc) (token : Bool) (calls : UInt64) :
    BufferInv ops { s with
      producer := Function.update s.producer j p, token := token, postedCalls := calls } := by
  refine ⟨h.data, fun k => ?_, h.released, h.head⟩
  by_cases hk : k = j
  · subst hk
    simpa [hp] using h.entries k
  · simpa [hk] using h.entries k

theorem BufferInv.commit (hF : ops.Framed) (h : BufferInv ops s) {t : Option ι}
    {b : Buffered (Option ι) (Store W) M}
    (hc : Buffered.commit (Store.apply ops) t s.ring.mem = some b) :
    BufferInv ops { s with ring := { s.ring with mem := b } } := by
  obtain ⟨e, es, m, hbuf, hm, rfl⟩ := Buffered.commit_eq_some hc
  cases t with
  | none =>
    have hrel := h.released
    rw [hbuf] at hrel
    refine ⟨h.data, by simpa using h.entries, ?_, ?_⟩
    · simpa using fun e he => hrel e (List.mem_cons_of_mem _ he)
    · intro out head hpop
      have hh := h.head out head hpop
      rw [hbuf, List.foldl_cons, ← (hrel e List.mem_cons_self).head hF hm] at hh
      simpa using hh
  | some j =>
    have hents := h.entries j
    rw [hbuf] at hents
    refine ⟨h.data, fun k => ?_, by simpa using h.released, ?_⟩
    · by_cases hk : k = j
      · subst hk
        simpa using fun e he => hents e (List.mem_cons_of_mem _ he)
      · simpa [hk] using h.entries k
    · intro out head hpop
      have hh := h.head out head hpop
      rw [← ((hents e List.mem_cons_self).state_head hF hm).2] at hh
      simpa using hh

theorem BufferInv.step [DecidableEq W] (hF : ops.Framed) (h : BufferInv ops s) {a : SysAction ι}
    {ev : List (SysEvent ι W)} (hs : sysStep cfg codec (tso ops) jobs s a = some (s', ev)) :
    BufferInv ops s' := by
  cases sysTrans_of_step hs with
  | @producer j now spurious p push b _ ht =>
    obtain ⟨hdata, hbuf, hents, hhead⟩ := producerTrans_buffers hF h ht
    refine ⟨fun k => ?_, fun k => ?_, ?_, ?_⟩
    · by_cases hk : k = j
      · subst hk
        simpa [System.setProducer] using hdata
      · simpa [System.setProducer, hk] using h.data k
    · by_cases hk : k = j
      · subst hk
        simpa [System.setProducer] using hents
      · simpa [System.setProducer, hk, hbuf (some k) (by simpa using hk)] using h.entries k
    · simpa [System.setProducer, hbuf none (by simp)] using h.released
    · simpa [System.setProducer, hbuf none (by simp), hhead] using h.head
  | @send j p hp =>
    exact h.relay hp.pc s.token s.postedCalls
  | @serve j p token calls _ hp =>
    exact h.relay hp.pc token calls
  | @drop j _ =>
    exact h.relay (j := j) (p := { s.producer j with queue := [] }) rfl s.token s.postedCalls
  | @consumer c pop b _ ht =>
    obtain ⟨hw, hhead⟩ := consumerTrans_buffers hF h ht
    refine ⟨h.data, fun k => ?_, fun e he => ?_, hhead⟩
    · simpa [System.setConsumer, hw.buf (some k) (by simp)] using h.entries k
    · exact (hw.released e he).elim (h.released e) id
  | @commit t b hb =>
    exact h.commit hF hb
  | stop =>
    exact ⟨h.data, h.entries, h.released, h.head⟩

omit [DecidableEq ι] in
theorem bufferInv_start (m : M) :
    BufferInv ops (System.start cfg codec (.flushed m) : TsoSystem ι C W M) where
  data := fun _ _ h => by cases h
  entries := fun _ _ h => by cases h
  released := fun _ h => by cases h
  head := fun _ _ h => by cases h

end Invariant

end ShmMpsc
