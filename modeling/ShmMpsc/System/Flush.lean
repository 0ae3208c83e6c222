import ShmMpsc.Formats.Protobuf
import ShmMpsc.System.OnePerPark

/-!
# What is in the queue when `run` returns

`shutdown` waits for the writer task, but only the loop's regular end comes to it. An encode
error and `TooBig` leave `run` at once, and with it go the notifications that the writer task,
which only runs while `run` awaits something, has not written yet.
-/

namespace ShmMpsc

set_option autoImplicit false

variable {ι C W M : Type}

/-- `run` has returned, with an error or without. -/
def ProducerPc.isOver : ProducerPc W → Bool
  | .returned | .failed _ => true
  | _ => false

/-- `run` is suspended, or there is no `run` any more. -/
def ProducerPc.awaits : ProducerPc W → Bool
  | .sleep _ | .shutdown | .returned | .failed _ => true
  | _ => false

/-- The event at hand has no encoding, or one that fits no slot. -/
def Unsendable (codec : Codec C) (maxLen : Nat) (job : Job) (now : UInt64) (p : Producer C W) :
    Prop :=
  ∃ i, p.pc = .encode i ∧ i < job.n ∧ ∀ c data,
    codec.encode p.codec i now job.name .metric job.payload [] = .ok (c, data) →
      maxLen < data.length

/-- On one thread the writer task has its turn when `run` awaits something. -/
def localSet : Machine.Guard (System ι C W M) (SysAction ι) (SysEvent ι W) := fun s _ a =>
  ∀ j, a = .send j → (s.producer j).pc.awaits = true

/-- An event that cannot be sent finds the queue written out. -/
def writtenOut (codec : Codec C) (mm : MemModel ι W M) (jobs : ι → Job) :
    Machine.Guard (System ι C W M) (SysAction ι) (SysEvent ι W) := fun s _ a =>
  ∀ j now spurious, a = .producer j now spurious →
    Unsendable codec (mm.producer j).maxLen (jobs j) now (s.producer j) → (s.producer j).queue = []

/-- Every CAS that producer `j` won has its notification in the socket, in order, or past it. -/
structure Written [DecidableEq ι] (s : System ι C W M) (log : List (SysEvent ι W))
    (j : ι) : Prop where
  wins : (owned j (signalled log)).length = (winners log).count j
  socket : owned j (signalled log) = owned j (delivered log) ++ (s.producer j).socket

section Steps

variable {cfg : RingConfig} {codec : Codec C} {ops : SegOps W M} {job : Job} {j : ι} {now : UInt64}
  {spurious : Bool} {p p' : Producer C W} {push push' : PushPc W} {m m' : M}
  {ev : List (SysEvent ι W)}

theorem afterPush_not_over {scratch : List UInt8} {i : UInt64} (h : push ≠ .done (.error .tooBig)) :
    (afterPush cfg scratch i push).isOver = false := by
  cases push with
  | done r =>
    cases r with
    | ok pos => rfl
    | error e =>
      cases e with
      | full => rfl
      | tooBig => exact absurd rfl h
  | _ => rfl

/-- A `push` that has begun does not find its message too big any more. -/
theorem PushTrans.not_tooBig {pev : List (PushEvent W)}
    (h : PushTrans ops spurious push m push' m' pev) :
    push' ≠ .done (.error .tooBig) := by
  cases h <;> simp

/-- A message that is being pushed has been found to fit. -/
def Fitting (maxLen : Nat) (p : Producer C W) : Prop :=
  ∀ i, p.pc = .push i ∨ p.pc = .sleep i → p.scratch.length ≤ maxLen

theorem fitting_afterPush {maxLen : Nat} {data : List UInt8} {i k : UInt64}
    (h : data.length ≤ maxLen ∨ push = .done (.error .tooBig))
    (hpc : afterPush cfg data i push = .push k ∨ afterPush cfg data i push = .sleep k) :
    data.length ≤ maxLen := by
  rcases h with h | rfl
  · exact h
  · rcases hpc with hpc | hpc <;> cases hpc

theorem pushCall_fits (ops : SegOps W M) (data : List UInt8) :
    data.length ≤ ops.maxLen ∨ pushCall ops data = .done (.error .tooBig) := by
  unfold pushCall
  split
  · exact .inr rfl
  · exact .inl (by omega)

theorem ProducerTrans.fitting (h : Fitting ops.maxLen p)
    (ht : ProducerTrans cfg codec ops job j now spurious p push m p' push' m' ev) :
    Fitting ops.maxLen p' := by
  intro k hk
  cases ht with
  | encode _ _ _ => exact fitting_afterPush (pushCall_fits ops _) hk
  | push hpc hr => exact h _ (.inl hpc)
  | retry hpc => exact h _ (.inr hpc)
  | encodeErr | finish | won | lost | signal | returned => rcases hk with hk | hk <;> cases hk

theorem SendTrans.queue_ne_nil (ht : SendTrans p p') : p.queue ≠ [] := by
  obtain ⟨hq⟩ := ht
  rw [hq]
  exact List.cons_ne_nil _ _

theorem SendTrans.fitting {maxLen : Nat} (ht : SendTrans p p') (h : Fitting maxLen p) :
    Fitting maxLen p' := by
  cases ht
  exact h

theorem ServeTrans.fitting {maxLen : Nat} {token token' : Bool} {calls calls' : UInt64}
    (ht : ServeTrans j p token calls p' token' calls' ev) (h : Fitting maxLen p) :
    Fitting maxLen p' := by
  cases ht <;> exact h

/-- How `run` returns: written out, or with an event that cannot be sent. -/
theorem ProducerTrans.over (h : Fitting ops.maxLen p)
    (ht : ProducerTrans cfg codec ops job j now spurious p push m p' push' m' ev)
    (hover : p'.pc.isOver = true) :
    (p.queue = [] ∧ ¬Unsendable codec ops.maxLen job now p ∨
      Unsendable codec ops.maxLen job now p) ∧
      p.pc.isFailed = false ∧ p'.queue = p.queue ∧ p'.socket = p.socket ∧ signalled ev = [] := by
  cases ht with
  | encodeErr hpc hi he =>
    refine ⟨.inr ⟨_, hpc, hi, fun c data hok => ?_⟩, by rw [hpc]; rfl, rfl, rfl, rfl⟩
    rw [he] at hok
    cases hok
  | @encode i c data hpc hi he =>
    rcases pushCall_fits ops data with hfits | hbig
    · rw [pushCall, if_neg (Nat.not_lt.mpr hfits)] at hover
      cases hover
    · refine ⟨.inr ⟨i, hpc, hi, fun c' data' hok => ?_⟩, by rw [hpc]; rfl, rfl, rfl, rfl⟩
      rw [he] at hok
      cases hok
      unfold pushCall at hbig
      split at hbig
      · assumption
      · cases hbig
  | push hpc hr =>
    rw [afterPush_not_over (pushTrans_of_step hr).not_tooBig] at hover
    cases hover
  | retry hpc =>
    have hfits := h _ (.inr hpc)
    rw [pushCall, if_neg (Nat.not_lt.mpr hfits)] at hover
    cases hover
  | returned hpc hq =>
    refine ⟨.inl ⟨hq, ?_⟩, by rw [hpc]; rfl, rfl, rfl, rfl⟩
    rintro ⟨i, hi, _⟩
    rw [hpc] at hi
    cases hi
  | finish | won | lost | signal => cases hover

theorem signalling_of_over (h : p.pc.isOver = true) : p.pc.signalling = false := by
  cases hpc : p.pc <;> rw [hpc] at h <;> first | rfl | cases h

/-- `serve` takes notifications off the socket and nothing else. -/
theorem ServeTrans.moves [DecidableEq ι] {token token' : Bool} {calls calls' : UInt64}
    (ht : ServeTrans j p token calls p' token' calls' ev) :
    owned j (delivered ev) ++ p'.socket = p.socket ∧ p'.queue = p.queue := by
  cases ht with
  | unpark hsocket => exact ⟨by simp [delivered, owned, hsocket], rfl⟩
  | count => exact ⟨rfl, rfl⟩

end Steps

section Runs

variable [DecidableEq ι] [DecidableEq W] {cfg : RingConfig} {codec : Codec C} {mm : MemModel ι W M}
  {jobs : ι → Job} {s s' : System ι C W M} {log ev : List (SysEvent ι W)} {as : List (SysAction ι)}

/-- What holds in every run. -/
structure Steady (mm : MemModel ι W M) (s : System ι C W M) (log : List (SysEvent ι W)) : Prop where
  relayed : Relayed s log
  fitting : ∀ j, Fitting (mm.producer j).maxLen (s.producer j)

omit [DecidableEq W] in
theorem steady_start (m : M) : Steady mm (System.start (ι := ι) (W := W) cfg codec m) [] where
  relayed := relayed_start m
  fitting := fun _ _ h => by rcases h with h | h <;> cases h

omit [DecidableEq W] in
theorem fitting_update (h : ∀ j, Fitting (mm.producer j).maxLen (s.producer j)) {j : ι}
    {p : Producer C W} (hp : Fitting (mm.producer j).maxLen p) (k : ι) :
    Fitting (mm.producer k).maxLen (Function.update s.producer j p k) := by
  by_cases hk : k = j
  · subst hk
    rwa [Function.update_self]
  · rw [Function.update_of_ne hk]
    exact h k

theorem Steady.step (h : Steady mm s log) {a : SysAction ι}
    (hs : sysStep cfg codec mm jobs s a = some (s', ev)) : Steady mm s' (log ++ ev) := by
  refine ⟨h.relayed.step hs, ?_⟩
  cases sysTrans_of_step hs with
  | @producer j now spurious p push m _ ht =>
    exact fitting_update h.fitting (ht.fitting (h.fitting j))
  | @send j p hp => exact fitting_update h.fitting (hp.fitting (h.fitting j))
  | @serve j p token calls _ hp => exact fitting_update h.fitting (hp.fitting (h.fitting j))
  | @drop j _ => exact fitting_update h.fitting (h.fitting j)
  | consumer | commit | stop => exact h.fitting

/-- What `run` leaves when it returns: all that it signalled is in the socket or in the queue. -/
theorem Steady.returned (h : Steady mm s log) {j : ι} {now : UInt64} {spurious : Bool}
    (hs : sysStep cfg codec mm jobs s (.producer j now spurious) = some (s', ev))
    (hover : (s'.producer j).pc.isOver = true) :
    (Written s' (log ++ ev) j ↔ (s.producer j).queue = []) ∧
      (s'.producer j).queue = (s.producer j).queue ∧
      (¬Unsendable codec (mm.producer j).maxLen (jobs j) now (s.producer j) →
        (s.producer j).queue = []) := by
  have hrelay := h.relayed.step hs j
  cases sysTrans_of_step hs with | @producer _ _ _ p push m _ ht
  obtain ⟨_, hd, _⟩ := ht.notes
  simp only [System.setProducer, Function.update_self] at hover hrelay ⊢
  obtain ⟨hwhy, hfail, hqueue, hsocket, hsig⟩ := ht.over (h.fitting j) hover
  obtain ⟨lost, hsent, hlost⟩ := (h.relayed j).sent
  obtain rfl := hlost hfail
  have hwins := hrelay.wins
  rw [signalling_of_over hover] at hwins
  have hall : owned j (signalled (log ++ ev)) =
      owned j (delivered (log ++ ev)) ++ p.socket ++ p.queue := by
    rw [signalled_append, hsig, delivered_append, hd, hsocket, hqueue]
    simpa using hsent
  refine ⟨⟨fun hw => ?_, fun hq => ⟨hwins.symm, ?_⟩⟩, hqueue, ?_⟩
  · have hsame := hw.socket
    simp only [Function.update_self] at hsame
    rw [hall, List.append_right_eq_self] at hsame
    rw [← hqueue, hsame]
  · simp only [Function.update_self]
    rw [hall, hqueue, hq, List.append_nil]
  · intro hsendable
    rcases hwhy with ⟨hq, _⟩ | hun
    · exact hq
    · exact absurd hun hsendable

/-- Who is done has nothing in the queue and lost nothing. -/
def Flushed (s : System ι C W M) (log : List (SysEvent ι W)) : Prop :=
  ∀ j, (s.producer j).pc.isOver = true → (s.producer j).queue = [] ∧
    owned j (signalled log) = owned j (delivered log) ++ (s.producer j).socket

omit [DecidableEq W] in
/-- A step that changes one producer and shows nothing of the others' notifications. -/
theorem Flushed.update (h : Flushed s log) {j : ι} {p : Producer C W}
    (hover : p.pc.isOver = true → p.queue = [] ∧
      owned j (signalled (log ++ ev)) = owned j (delivered (log ++ ev)) ++ p.socket)
    (hev : ∀ k, k ≠ j → owned k (signalled ev) = [] ∧ owned k (delivered ev) = [])
    (hs : s'.producer = Function.update s.producer j p) : Flushed s' (log ++ ev) := by
  intro k
  rw [hs]
  by_cases hk : k = j
  · subst hk
    rwa [Function.update_self]
  · obtain ⟨hsig, hd⟩ := hev k hk
    rw [Function.update_of_ne hk, signalled_append, delivered_append, owned_append,
      owned_append, hsig, hd, List.append_nil, List.append_nil]
    exact h k

theorem Flushed.step (hI : Steady mm s log) (h : Flushed s log) {a : SysAction ι}
    (hg : writtenOut codec mm jobs s log a)
    (hs : sysStep cfg codec mm jobs s a = some (s', ev)) : Flushed s' (log ++ ev) := by
  cases sysTrans_of_step hs with
  | @producer j now spurious p push m _ ht =>
    have hreturned := hI.returned hs
    obtain ⟨_, hd, hothers⟩ := ht.notes
    refine h.update ?_ (fun k hk => ⟨(hothers k hk).2, by rw [hd]; rfl⟩) rfl
    intro hover
    simp only [System.setProducer, Function.update_self] at hreturned
    obtain ⟨hwritten, hqueue, hsendable⟩ := hreturned hover
    have hempty : (s.producer j).queue = [] := by
      by_cases hun : Unsendable codec (mm.producer j).maxLen (jobs j) now (s.producer j)
      · exact hg j now spurious rfl hun
      · exact hsendable hun
    have hsocket := (hwritten.mpr hempty).socket
    simp only [Function.update_self] at hsocket
    exact ⟨hqueue.trans hempty, hsocket⟩
  | @consumer c pop m _ ht =>
    obtain ⟨_, hsig, _, hd⟩ := ht.notes
    intro k hover
    rw [signalled_append, delivered_append, hsig, hd, List.append_nil, List.append_nil]
    exact h k hover
  | @send j p hp =>
    refine h.update ?_ (fun _ _ => ⟨rfl, rfl⟩) rfl
    intro hover
    rw [hp.pc] at hover
    exact absurd (h j hover).1 hp.queue_ne_nil
  | @serve j p token calls _ hp =>
    obtain ⟨_, hsig, hothers⟩ := hp.notes
    obtain ⟨hmoves, hqueue⟩ := hp.moves
    refine h.update ?_ (fun k hk => ⟨by rw [hsig]; rfl, (hothers k hk).2⟩) rfl
    intro hover
    rw [hp.pc] at hover
    obtain ⟨hempty, hsent⟩ := h j hover
    refine ⟨hqueue.trans hempty, ?_⟩
    rw [signalled_append, hsig, List.append_nil, hsent, delivered_append, owned_append,
      List.append_assoc, hmoves]
  | @drop j _ =>
    refine h.update ?_ (fun _ _ => ⟨rfl, rfl⟩) rfl
    intro hover
    rw [List.append_nil]
    exact ⟨rfl, (h j hover).2⟩
  | commit | stop =>
    rw [List.append_nil]
    exact h

/-! ### Since the last sleep -/

/-- `run` is in its loop, where the writer task has no turn, and has nothing to signal. -/
def ProducerPc.looping (pc : ProducerPc W) : Bool := !pc.awaits && !pc.signalling

omit [DecidableEq W] in
/-- It came into the loop with an empty queue, or was there before. -/
theorem ProducerTrans.looping {job : Job} {ops : SegOps W M} {j : ι} {now : UInt64}
    {spurious : Bool} {p p' : Producer C W} {push push' : PushPc W} {m m' : M}
    (ht : ProducerTrans cfg codec ops job j now spurious p push m p' push' m' ev)
    (hloop : p'.pc.looping = true) (hq : p'.queue = []) :
    p.queue = [] ∧ (winners ev).count j = 0 ∧ (p.pc.looping = true ∨ ∃ i, p.pc = .sleep i) := by
  cases ht with
  | encodeErr | finish | won | returned => cases hloop
  | signal => simp at hq
  | encode hpc => exact ⟨hq, rfl, .inl (by rw [hpc]; rfl)⟩
  | push hpc => exact ⟨hq, by rw [(Silent.ring _ _).winners]; rfl, .inl (by rw [hpc]; rfl)⟩
  | retry hpc => exact ⟨hq, rfl, .inr ⟨_, hpc⟩⟩
  | lost hpc => exact ⟨hq, rfl, .inl (by rw [hpc]; rfl)⟩

omit [DecidableEq W] in
/-- Without another win nothing comes into the queue. -/
theorem ProducerTrans.stays_empty {job : Job} {ops : SegOps W M} {j : ι} {now : UInt64}
    {spurious : Bool} {p p' : Producer C W} {push push' : PushPc W} {m m' : M}
    (ht : ProducerTrans cfg codec ops job j now spurious p push m p' push' m' ev)
    (hq : p.queue = []) (hpc : p.pc.signalling = false) (hw : (winners ev).count j = 0) :
    p'.queue = [] ∧ p'.pc.signalling = false := by
  cases ht with
  | won => simp [winners] at hw
  | signal hsig =>
    rw [hsig] at hpc
    cases hpc
  | encode | push | retry => exact ⟨hq, signalling_afterPush ..⟩
  | encodeErr | finish | lost | returned => exact ⟨hq, rfl⟩

/-- What the others do leaves `run` where it is, wins nothing for it, and in its loop leaves the
queue alone. -/
theorem sysStep_others (log : List (SysEvent ι W)) {j : ι} {a : SysAction ι}
    (hj : ∀ now spurious, a ≠ .producer j now spurious)
    (hs : sysStep cfg codec mm jobs s a = some (s', ev)) :
    (s'.producer j).pc = (s.producer j).pc ∧ (winners ev).count j = 0 ∧
      ((s.producer j).queue = [] → (s'.producer j).queue = []) ∧
      (localSet s log a → (s.producer j).pc.awaits = false →
        (s'.producer j).queue = (s.producer j).queue) := by
  have hkeep {k : ι} {p : Producer C W} (hpc : p.pc = (s.producer k).pc)
      (hempty : (s.producer k).queue = [] → p.queue = [])
      (hq : localSet s log a → (s.producer k).pc.awaits = false → p.queue = (s.producer k).queue) :
      (Function.update s.producer k p j).pc = (s.producer j).pc ∧
        ((s.producer j).queue = [] → (Function.update s.producer k p j).queue = []) ∧
        (localSet s log a → (s.producer j).pc.awaits = false →
          (Function.update s.producer k p j).queue = (s.producer j).queue) := by
    by_cases hk : j = k
    · subst hk
      rw [Function.update_self]
      exact ⟨hpc, hempty, hq⟩
    · rw [Function.update_of_ne hk]
      exact ⟨rfl, id, fun _ _ => rfl⟩
  cases sysTrans_of_step hs with
  | @producer k now spurious p push m _ ht =>
    have hk : j ≠ k := by
      rintro rfl
      exact hj now spurious rfl
    have hsame : Function.update s.producer k p j = s.producer j := Function.update_of_ne hk ..
    simp only [System.setProducer, hsame]
    exact ⟨trivial, (ht.notes.2.2 j hk).1, id, fun _ _ => trivial⟩
  | @consumer c pop m _ ht =>
    refine ⟨rfl, ?_, id, fun _ _ => rfl⟩
    rw [ht.notes.1]
    rfl
  | @send k p hp =>
    obtain ⟨h1, h2, h3⟩ := hkeep hp.pc (fun hq => absurd hq hp.queue_ne_nil)
      fun hlocal hpc => absurd (hlocal k rfl) (by rw [hpc]; exact Bool.false_ne_true)
    exact ⟨h1, rfl, h2, h3⟩
  | @serve k p token calls _ hp =>
    obtain ⟨_, hqueue⟩ := hp.moves
    obtain ⟨h1, h2, h3⟩ := hkeep hp.pc (fun hq => hqueue.trans hq) fun _ _ => hqueue
    refine ⟨h1, ?_, h2, h3⟩
    rw [hp.notes.1.winners]
    rfl
  | @drop k hfail =>
    have hawaits : (s.producer k).pc.awaits ≠ false := by
      cases hpc : (s.producer k).pc with
      | failed err => simp [ProducerPc.awaits]
      | _ =>
        rw [hpc] at hfail
        cases hfail
    have hdrop := @hkeep k { s.producer k with queue := [] } rfl (fun _ => rfl)
      fun _ hpc => absurd hpc hawaits
    obtain ⟨h1, h2, h3⟩ := hdrop
    exact ⟨h1, rfl, h2, h3⟩
  | commit | stop => exact ⟨rfl, rfl, id, fun _ _ => rfl⟩

/-- In the run `as` producer `j` has won no CAS, or it came out of a sleep with nothing left to
write and has won none since. -/
def Rested (cfg : RingConfig) (codec : Codec C) (mm : MemModel ι W M) (jobs : ι → Job) (m : M)
    (as : List (SysAction ι)) (s : System ι C W M) (log : List (SysEvent ι W)) (j : ι) : Prop :=
  (winners log).count j = 0 ∨ ∃ before now spurious since s₁ log₁ i,
    as = before ++ .producer j now spurious :: since ∧
    (sysMachine cfg codec mm jobs).Run localSet (System.start cfg codec m) [] before s₁ log₁ ∧
    (s₁.producer j).pc = .sleep i ∧ (s₁.producer j).queue = [] ∧
    (sysMachine cfg codec mm jobs).Run localSet s₁ log₁ (.producer j now spurious :: since) s log ∧
    (winners log).count j = (winners log₁).count j

variable {m : M}

theorem Rested.snoc {j : ι} (h : Rested cfg codec mm jobs m as s log j) {a : SysAction ι}
    (ha : localSet s log a) (hs : sysStep cfg codec mm jobs s a = some (s', ev))
    (hwins : (winners ev).count j = 0) :
    Rested cfg codec mm jobs m (as ++ [a]) s' (log ++ ev) j := by
  have hsame : (winners (log ++ ev)).count j = (winners log).count j := by
    rw [winners_append, List.count_append, hwins, Nat.add_zero]
  rcases h with hnone | ⟨before, now, sp, since, s₁, log₁, i, rfl, hrun, hpc, hq, hrun', hcount⟩
  · exact .inl (hsame.trans hnone)
  · refine .inr ⟨before, now, sp, since ++ [a], s₁, log₁, i, by simp, hrun, hpc, hq, ?_,
      hsame.trans hcount⟩
    exact hrun'.snoc ha hs

/-- An empty queue in the loop is one that was written out in a sleep, or was never needed. -/
theorem rested_of_queue
    (h : (sysMachine cfg codec mm jobs).Run localSet (System.start cfg codec m) [] as s log) {j : ι}
    (hpc : (s.producer j).pc.looping = true) (hq : (s.producer j).queue = []) :
    Rested cfg codec mm jobs m as s log j := by
  induction h with
  | nil => exact .inl rfl
  | @snoc as s log a s' ev hrun ha hs ih =>
    by_cases hj : ∃ now spurious, a = .producer j now spurious
    · obtain ⟨now, spurious, rfl⟩ := hj
      have hs : sysStep cfg codec mm jobs s (.producer j now spurious) = some (s', ev) := hs
      cases sysTrans_of_step hs with | @producer _ _ _ p push m _ ht
      simp only [System.setProducer, Function.update_self] at hpc hq
      obtain ⟨hqueue, hwins, hloop | ⟨i, hsleep⟩⟩ := ht.looping hpc hq
      · exact (ih hloop hqueue).snoc ha hs hwins
      · refine .inr ⟨as, now, spurious, [], s, log, i, rfl, hrun, hsleep, hqueue, .single ha hs, ?_⟩
        rw [winners_append, List.count_append, hwins, Nat.add_zero]
    · obtain ⟨hpc', hwins, _, hqueue⟩ := sysStep_others log
        (fun now spurious heq => hj ⟨now, spurious, heq⟩) hs
      rw [hpc'] at hpc
      have hawaits : (s.producer j).pc.awaits = false := by
        cases hpc'' : (s.producer j).pc.awaits <;> simp [ProducerPc.looping, hpc''] at hpc ⊢
      rw [hqueue ha hawaits] at hq
      exact (ih hpc hq).snoc ha hs hwins

theorem Rested.queue {j : ι} (hI : Steady mm s log) (h : Rested cfg codec mm jobs m as s log j) :
    (s.producer j).queue = [] := by
  rcases h with hnone | ⟨before, now, sp, since, s₁, log₁, i, rfl, hrun, hpc, hq, hrun', hcount⟩
  · obtain ⟨lost, hsent, _⟩ := (hI.relayed j).sent
    have hwins := (hI.relayed j).wins
    have hlen := congrArg List.length hsent
    simp only [List.length_append] at hlen
    exact List.eq_nil_of_length_eq_zero (by omega)
  · obtain ⟨mid, rfl⟩ := hrun'.log_prefix
    have hempty : (winners mid).count j = 0 → (s.producer j).queue = [] ∧
        (s.producer j).pc.signalling = false := by
      refine hrun'.added (I := fun s mid => (winners mid).count j = 0 →
        (s.producer j).queue = [] ∧ (s.producer j).pc.signalling = false)
        (fun _ => ⟨hq, by rw [hpc]; rfl⟩) ?_
      intro s mid a s' ev hI hs hwins
      rw [winners_append, List.count_append, Nat.add_eq_zero_iff] at hwins
      obtain ⟨hqueue, hsig⟩ := hI hwins.1
      by_cases hj : ∃ now spurious, a = .producer j now spurious
      · obtain ⟨now, spurious, rfl⟩ := hj
        have hs : sysStep cfg codec mm jobs s (.producer j now spurious) = some (s', ev) := hs
        cases sysTrans_of_step hs with | producer ht
        simp only [System.setProducer, Function.update_self]
        exact ht.stays_empty hqueue hsig hwins.2
      · obtain ⟨hpc', _, hstays, _⟩ := sysStep_others mid
          (fun now spurious heq => hj ⟨now, spurious, heq⟩) hs
        exact ⟨hstays hqueue, by rw [hpc', hsig]⟩
    rw [winners_append, List.count_append] at hcount
    exact (hempty (by omega)).1

/-- Every event of the run `as` that could not be sent found `run` rested. -/
def AlwaysRested (cfg : RingConfig) (codec : Codec C) (mm : MemModel ι W M) (jobs : ι → Job) (m : M)
    (as : List (SysAction ι)) : Prop :=
  ∀ before j now spurious since s log, as = before ++ .producer j now spurious :: since →
    (sysMachine cfg codec mm jobs).Run localSet (System.start cfg codec m) [] before s log →
    Unsendable codec (mm.producer j).maxLen (jobs j) now (s.producer j) →
    Rested cfg codec mm jobs m before s log j

/-- On a thread where the writer task has its turns while `run` awaits something, every win has
been written once `run` has returned, in all runs in which an event that cannot be sent finds `run`
with no win since it came out of a sleep with nothing left to write. In any run, `run` returns with
every win written exactly if its last step met that. -/
theorem wakeups_written (cfg : RingConfig) (codec : Codec C) (mm : MemModel ι W M) (jobs : ι → Job)
    (m : M) :
    (∀ as s log,
      (sysMachine cfg codec mm jobs).Run localSet (System.start cfg codec m) [] as s log →
      AlwaysRested cfg codec mm jobs m as →
      ∀ j, (s.producer j).pc.isOver = true → Written s log j) ∧
    (∀ as s log j now spurious s' ev, (sysMachine cfg codec mm jobs).Run localSet
        (System.start cfg codec m) [] as s log →
      sysStep cfg codec mm jobs s (.producer j now spurious) = some (s', ev) →
      (s'.producer j).pc.isOver = true →
      (Written s' (log ++ ev) j ↔
        (Unsendable codec (mm.producer j).maxLen (jobs j) now (s.producer j) →
          Rested cfg codec mm jobs m as s log j))) := by
  have hsteady : ∀ as s log,
      (sysMachine cfg codec mm jobs).Run localSet (System.start cfg codec m) []
      as s log → Steady mm s log :=
    fun as s log hrun => hrun.invariant (steady_start m) fun _ _ _ _ _ hI _ hs => hI.step hs
  constructor
  · intro as s log hrun hrested j hover
    have hI : Flushed s log := by
      clear hover
      induction hrun with
      | nil => exact fun _ h => by cases h
      | @snoc as s log a s' ev hrun ha hs ih =>
        have hbefore : AlwaysRested cfg codec mm jobs m as := by
          rintro before k now spurious since s₁ log₁ rfl
          exact hrested before k now spurious (since ++ [a]) s₁ log₁ (by simp)
        refine Flushed.step (hsteady _ _ _ hrun) (ih hbefore) ?_ hs
        rintro k now spurious rfl hun
        exact (hrested as k now spurious [] s log rfl hrun hun).queue (hsteady _ _ _ hrun)
    have hwins := ((hsteady _ _ _ hrun).relayed j).wins
    rw [signalling_of_over hover] at hwins
    exact ⟨hwins.symm, (hI j hover).2⟩
  · intro as s log j now spurious s' ev hrun hs hover
    have hI := hsteady _ _ _ hrun
    obtain ⟨hwritten, _, hsendable⟩ := hI.returned hs hover
    rw [hwritten]
    constructor
    · rintro hq ⟨i, hpc, _⟩
      exact rested_of_queue hrun (by rw [hpc]; rfl) hq
    · intro hrested
      by_cases hun : Unsendable codec (mm.producer j).maxLen (jobs j) now (s.producer j)
      · exact (hrested hun).queue hI
      · exact hsendable hun

end Runs

/-! ### Runs of one producer -/

open RingConfig

/-- Records of at most 20 bytes, which is what the first event takes. -/
def twenty : RingConfig := { numSlots := 2, slotSize := 40 }

def startTwenty : Option (System Unit PbEvent UInt64 Memory × List (SysEvent Unit UInt64)) :=
  (init twenty { blank with size := 272, size_lt := by decide }).map fun m =>
    (System.start twenty (protoCodec protobuf) m, [])

/-- Such a producer on one thread with its writer task. -/
def execTwenty (jobs : Unit → Job) (as : List (SysAction Unit)) :
    System Unit PbEvent UInt64 Memory × List (SysEvent Unit UInt64) →
      Option (System Unit PbEvent UInt64 Memory × List (SysEvent Unit UInt64)) := fun c =>
  (sysMachine twenty (protoCodec protobuf) (sc (segOps twenty)) jobs).execWith
    (fun s _ a => match a with | .send j => (s.producer j).pc.awaits | _ => true) c as

theorem run_of_execTwenty {jobs : Unit → Job} {as : List (SysAction Unit)}
    {c c' : System Unit PbEvent UInt64 Memory × List (SysEvent Unit UInt64)}
    (h : execTwenty jobs as c = some c') :
    (sysMachine twenty (protoCodec protobuf) (sc (segOps twenty)) jobs).Run localSet c.1 c.2 as c'.1
      c'.2 := by
  refine Machine.run_of_execWith ?_ h
  rintro s log a ha j rfl
  exact ha

def fourEvents : Unit → Job := fun _ => { name := "p0", n := 4, payload := [65, 65] }

/-- The consumer parks, the first event wins the CAS, and the third finds the ring full: in its
sleep the writer task writes the notification and the consumer takes both events. -/
def signalThenSleep : List (SysAction Unit) :=
  List.replicate 6 .consumer ++ List.replicate 20 (.producer () 1000 false) ++
    .send () :: List.replicate 21 .consumer

/-- The third event is published, and wins no CAS. -/
def afterSleep : List (SysAction Unit) := List.replicate 8 (.producer () 1000 false)

theorem signalThenSleep_exec : (startTwenty.bind fun c =>
    (execTwenty fourEvents signalThenSleep c).bind fun c₁ =>
    (execTwenty fourEvents afterSleep c₁).bind fun c₂ =>
    (sysStep twenty (protoCodec protobuf) (sc (segOps twenty)) fourEvents c₂.1
      (.producer () 1700000000000000000 false)).map fun r =>
    decide ((∃ i, i < 4 ∧ (c₁.1.producer ()).pc = .sleep i.toUInt64) ∧
      (c₁.1.producer ()).queue = [] ∧
      (winners c₂.2).count () = (winners c₁.2).count () ∧ (winners c₂.2).count () = 1 ∧
      (r.1.producer ()).pc.isFailed = true ∧ (r.1.producer ()).pc.isOver = true)) = some true := by
  decide +kernel

/-- The last event is too big, after a sleep in which the queue was written out. -/
theorem wakeups_written_slept : ∃ m s log s' ev,
    init twenty { blank with size := 272, size_lt := by decide } = some m ∧
    (sysMachine twenty (protoCodec protobuf) (sc (segOps twenty)) fourEvents).Run localSet
      (System.start twenty (protoCodec protobuf) m) [] (signalThenSleep ++ afterSleep) s log ∧
    sysStep twenty (protoCodec protobuf) (sc (segOps twenty)) fourEvents s
      (.producer () 1700000000000000000 false) = some (s', ev) ∧
    (s'.producer ()).pc.isFailed = true ∧ (winners log).count () = 1 ∧
    Written s' (log ++ ev) () := by
  obtain ⟨c, hc, hrest⟩ := Option.bind_eq_some_iff.mp signalThenSleep_exec
  obtain ⟨c₁, h₁, hrest⟩ := Option.bind_eq_some_iff.mp hrest
  obtain ⟨c₂, h₂, hrest⟩ := Option.bind_eq_some_iff.mp hrest
  obtain ⟨r, hr, hd⟩ := Option.map_eq_some_iff.mp hrest
  obtain ⟨⟨i, _, hpc⟩, hq, hsame, hone, hfail, hover⟩ := of_decide_eq_true hd
  obtain ⟨m, hm, rfl⟩ := Option.map_eq_some_iff.mp hc
  have hrun := run_of_execTwenty h₁
  have hsince := run_of_execTwenty h₂
  refine ⟨m, c₂.1, c₂.2, r.1, r.2, hm, hrun.trans hsince, hr, hfail, hone, ?_⟩
  refine ((wakeups_written twenty (protoCodec protobuf) (sc (segOps twenty)) fourEvents m).2
    _ _ _ ()
    1700000000000000000 false _ _ (hrun.trans hsince) hr hover).mpr fun _ => ?_
  exact .inr ⟨signalThenSleep, 1000, false, List.replicate 7 (.producer () 1000 false), c₁.1, c₁.2,
    i.toUInt64, rfl, hrun, hpc, hq, hsince, hsame⟩

def twoEvents : Unit → Job := fun _ => { name := "p0", n := 2, payload := [65, 65] }

/-- The consumer parks, the first event wins the CAS, and the second, whose number is not left
out of its encoding, is two bytes too long. -/
def signalThenTooBig : List (SysAction Unit) :=
  List.replicate 6 .consumer ++ List.replicate 10 (.producer () 1700000000000000000 false)

theorem signalThenTooBig_exec :
    ((startTwenty.bind (execTwenty twoEvents signalThenTooBig)).map fun c =>
      decide ((c.1.producer ()).pc.isOver = true ∧ (winners c.2).count () = 1 ∧
        (c.1.producer ()).socket = [] ∧ owned () (signalled c.2) = [0] ∧
        owned () (delivered c.2) = [])) = some true := by
  decide +kernel

/-- The writer task never had a turn, and the notification goes with it. -/
theorem wakeup_dropped : ∃ s log,
    ScRun twenty (protoCodec protobuf) twoEvents localSet signalThenTooBig s log ∧
    (s.producer ()).pc.isOver = true ∧ (winners log).count () = 1 ∧ ¬Written s log () := by
  obtain ⟨c, hc, hd⟩ := Option.map_eq_some_iff.mp signalThenTooBig_exec
  obtain ⟨hover, hwins, hsocket, hsig, hdelivered⟩ := of_decide_eq_true hd
  obtain ⟨start, hstart, hexec⟩ := Option.bind_eq_some_iff.mp hc
  obtain ⟨m, hi, rfl⟩ := Option.map_eq_some_iff.mp hstart
  refine ⟨c.1, c.2, ⟨_, m, rfl, hi, run_of_execTwenty hexec⟩, hover, hwins, fun hwritten => ?_⟩
  have hempty := hwritten.socket
  rw [hsig, hdelivered, hsocket] at hempty
  cases hempty

end ShmMpsc
