import ShmMpsc.Ring.Full
import ShmMpsc.Ring.Stalled

/-!
# `push` is lock-free

An iteration of the loop of `push` that neither returns nor fails spuriously has been
overtaken: somebody else has moved the tail since its tail load. The iterations of a call
are counted against the reservations of the others, and a call that runs alone returns.
-/

namespace ShmMpsc

set_option autoImplicit false

open RingConfig

variable {cfg : RingConfig} {ι : Type} [DecidableEq ι]

section Log

variable {W : Type}

/-- Since its last tail load, in the same call, another producer has reserved a position. -/
def Overtaken (i : ι) (log : List (RingEvent ι W)) : Prop :=
  ∃ before after, log = before ++ .push i .tailLoad :: after ∧ (∀ e ∈ after, e.by ≠ some i) ∧
    ∃ j data pos, j ≠ i ∧ .push j (.reserve data pos) ∈ after

/-- What a `push` call has gone through. -/
structure Tally where
  /-- tail loads: every iteration of the loop begins with one -/
  iterations : Nat
  /-- reservations by other producers -/
  others : Nat
  /-- spurious failures of its own `compare_exchange_weak` -/
  spurious : Nat

/-- The tally of the last call of producer `i`. -/
def tally (i : ι) (log : List (RingEvent ι W)) : Tally :=
  log.foldl (fun t e => match e with
    | .call j _ => if j = i then ⟨0, 0, 0⟩ else t
    | .push j .tailLoad => if j = i then { t with iterations := t.iterations + 1 } else t
    | .push j (.reserve _ _) => if j = i then t else { t with others := t.others + 1 }
    | .push j (.casFail true) => if j = i then { t with spurious := t.spurious + 1 } else t
    | _ => t) ⟨0, 0, 0⟩

variable {i : ι} {log ev : List (RingEvent ι W)}

@[simp] theorem tally_tailLoad : tally i (log ++ [.push i .tailLoad]) =
    { tally i log with iterations := (tally i log).iterations + 1 } := by
  simp [tally]

@[simp] theorem tally_spurious : tally i (log ++ [.push i (.casFail true)]) =
    { tally i log with spurious := (tally i log).spurious + 1 } := by
  simp [tally]

theorem tally_own {e : PushEvent W} (ht : e ≠ .tailLoad) (hc : e ≠ .casFail true) :
    tally i (log ++ [.push i e]) = tally i log := by
  cases e with
  | tailLoad => exact absurd rfl ht
  | casFail spurious =>
    cases spurious with
    | true => exact absurd rfl hc
    | false => simp [tally]
  | reserve | publish | full => simp [tally]

/-- The last tail load of `i` and what the others have done since. -/
def Looking (i : ι) (log : List (RingEvent ι W)) : Prop :=
  ∃ before after, log = before ++ .push i .tailLoad :: after ∧ ∀ e ∈ after, e.by ≠ some i

omit [DecidableEq ι] in
theorem Looking.append (h : Looking i log) (hev : ∀ e ∈ ev, e.by ≠ some i) :
    Looking i (log ++ ev) := by
  obtain ⟨before, after, rfl, hafter⟩ := h
  refine ⟨before, after ++ ev, by simp, fun e he => ?_⟩
  rcases List.mem_append.mp he with he | he
  · exact hafter e he
  · exact hev e he

/-- A reservation since the tail load is somebody else's. -/
theorem Looking.overtaken (h : Looking i log) (hs : 0 < reservedSince i log) : Overtaken i log := by
  obtain ⟨before, after, rfl, hafter⟩ := h
  refine ⟨before, after, rfl, hafter, ?_⟩
  have hle := reservedSince_append_le i (before ++ [.push i .tailLoad]) after
  rw [reservedSince_tailLoad, if_pos rfl, List.append_assoc, List.singleton_append] at hle
  have hpos : 0 < (reserves after).length := by omega
  obtain ⟨r, hr⟩ := List.exists_mem_of_length_pos hpos
  obtain ⟨e, he, hre⟩ := List.mem_filterMap.mp hr
  have hby := hafter e he
  split at hre
  · rename_i j data pos
    refine ⟨j, data, pos, ?_, he⟩
    rintro rfl
    exact hby rfl
  · cases hre

end Log

/-! ### What a call has spent -/

/-- Reservations by others not yet charged to an iteration are those since the tail load. -/
def Budget {W : Type} (i : ι) (log : List (RingEvent ι W)) : PushPc W → Prop
  | .loadTail _ => (tally i log).iterations ≤ (tally i log).others + (tally i log).spurious
  | .loadSeq _ _ | .cas _ _ => Looking i log ∧
    (tally i log).iterations + reservedSince i log ≤
      1 + (tally i log).others + (tally i log).spurious
  | _ => (tally i log).iterations ≤ 1 + (tally i log).others + (tally i log).spurious

section Others

variable {W : Type} {i : ι} {log ev : List (RingEvent ι W)}

/-- What others show is a reservation or counts nothing. -/
theorem tally_of_not_by (log : List (RingEvent ι W)) {e : RingEvent ι W} (he : e.by ≠ some i) :
    (tally i (log ++ [e])).iterations = (tally i log).iterations ∧
    (tally i (log ++ [e])).spurious = (tally i log).spurious ∧
    ((reservedSince i (log ++ [e]) = reservedSince i log ∧
        (tally i (log ++ [e])).others = (tally i log).others) ∨
      (reservedSince i (log ++ [e]) = reservedSince i log + 1 ∧
        (tally i (log ++ [e])).others = (tally i log).others + 1)) := by
  cases e with
  | call j d =>
    have hj : j ≠ i := fun heq => he (congrArg some heq)
    simp [tally, reservedSince, hj]
  | push j e =>
    have hj : j ≠ i := fun heq => he (congrArg some heq)
    cases e with
    | tailLoad => simp [tally, reservedSince, hj]
    | reserve data pos => simp [tally, reservedSince, hj]
    | casFail spurious => cases spurious <;> simp [tally, reservedSince, hj]
    | publish | full => simp [tally, reservedSince]
  | popCall | pop => simp [tally, reservedSince]

theorem Budget.append {pc : PushPc W} (h : Budget i log pc) (hev : ∀ e ∈ ev, e.by ≠ some i) :
    Budget i (log ++ ev) pc := by
  induction ev using List.reverseRecOn with
  | nil => rwa [List.append_nil]
  | append_singleton ev e ih =>
    have hI := ih fun e he => hev e (List.mem_append_left _ he)
    have he := hev e (List.mem_append_right _ (List.mem_singleton_self _))
    obtain ⟨hiter, hspur, hoth⟩ := tally_of_not_by (log ++ ev) he
    rw [← List.append_assoc]
    cases pc with
    | loadSeq | cas =>
      obtain ⟨hlook, hI⟩ := hI
      refine ⟨hlook.append (by simpa using he), ?_⟩
      rw [hiter, hspur]
      rcases hoth with ⟨h1, h2⟩ | ⟨h1, h2⟩ <;> rw [h1, h2] <;> omega
    | loadTail | idle | writeLen | writePayload | publish | done =>
      simp only [Budget, hiter, hspur] at hI ⊢
      rcases hoth with ⟨_, h2⟩ | ⟨_, h2⟩ <;> rw [h2] <;> omega

end Others

/-- A failure of the CAS on equal values. -/
def SpuriousFailure (s : RingState ι UInt64 Memory) (i : ι) (spurious : Bool) : Prop :=
  spurious = true ∧ ∃ data pos, s.push i = .cas data pos ∧ s.mem.load64 0 = some pos

section Step

variable {s s' : RingState ι UInt64 Memory} {log ev : List (RingEvent ι UInt64)}
  {u : RingState ι Nat UMem} {ulog : List (RingEvent ι Nat)}

/-- The step that sends a push back to its tail load, other than a spurious failure, finds the
tail moved. -/
theorem Refines.reservedSince_pos (hg : cfg.Admitted) (hf : cfg.Fits) (hN : 2 ≤ cfg.N)
    (h : Refines cfg s log u ulog) {i : ι} {spurious : Bool}
    (hw : windowed (2 ^ 63 - cfg.N) s log (.push i spurious))
    (hs : ringStep (segOps cfg) s (.push i spurious) = some (s', ev)) {data : List UInt8}
    (hpc : s'.push i = .loadTail data) (hsp : ¬ SpuriousFailure s i spurious) :
    0 < reservedSince i log := by
  obtain ⟨u', pev, ht, hR, -⟩ := h.pushTrans hg hf hN hw hs
  have hok := h.inv.push_ok i
  have hpcs := h.sim.push i
  rw [hR.sim.push i] at hpc
  rw [h.log_eq, reservedSince_map]
  generalize hupc : u.push i = pc at ht hok hpcs
  generalize u'.push i = pc' at ht hpc
  generalize u'.mem = m' at ht
  cases ht with
  | @stale data pos _ seq hl hd =>
    obtain rfl : u.mem.seq (pos % cfg.N) = seq := Option.some.inj hl
    have hd : 0 < (u.mem.seq (pos % cfg.N) : Int) - pos := hd
    have hok : pos + reservedSince i ulog = u.mem.tail := hok
    have hmoved := h.inv.tail_moved hN (show pos ≤ u.mem.tail by omega) (by omega)
    omega
  | @spurious data pos _ hspur =>
    have hok : pos + reservedSince i ulog = u.mem.tail := hok.1
    by_contra hzero
    obtain rfl : pos = u.mem.tail := by omega
    exact hsp ⟨hspur, data, _, hpcs, h.sim.mem.tail⟩
  | @lost data pos _ _ _ hc =>
    have hok : pos + reservedSince i ulog = u.mem.tail := hok.1
    simp only [unboundedOps] at hc
    split at hc
    · cases hc
    · rename_i hne
      omega
  | loadTail | free | full | won | writeLen | writePayload | publish => cases hpc

/-- Only the seq load and the CAS lead back to the tail load. -/
theorem looking_of_back {i : ι} {spurious : Bool} (hI : Budget i log (s.push i))
    (hs : ringStep (segOps cfg) s (.push i spurious) = some (s', ev)) {data : List UInt8}
    (hpc : s'.push i = .loadTail data) : Looking i log := by
  cases ringTrans_of_step hs with | push ht
  simp only [Function.update_self] at hpc
  subst hpc
  generalize s.push i = pc0 at ht hI
  cases ht with
  | stale | spurious | lost => exact hI.1

/-- Own steps of a producer pay for what they begin. -/
theorem Refines.budget_push (hg : cfg.Admitted) (hf : cfg.Fits) (hN : 2 ≤ cfg.N)
    (h : Refines cfg s log u ulog) {i : ι} {spurious : Bool}
    (hw : windowed (2 ^ 63 - cfg.N) s log (.push i spurious)) (hI : Budget i log (s.push i))
    (hs : ringStep (segOps cfg) s (.push i spurious) = some (s', ev)) :
    Budget i (log ++ ev) (s'.push i) := by
  have hback : ∀ data, s'.push i = .loadTail data → ¬ SpuriousFailure s i spurious →
      0 < reservedSince i log := fun data hpc hsp => h.reservedSince_pos hg hf hN hw hs hpc hsp
  cases ringTrans_of_step hs with | push ht
  simp only [Function.update_self] at hback ⊢
  generalize hpc : s.push i = pc0 at ht hI
  have hown : ∀ e : PushEvent UInt64, e ≠ .tailLoad → e ≠ .casFail true →
      tally i (log ++ [.push i e]) = tally i log := fun e h1 h2 => tally_own h1 h2
  cases ht with
  | loadTail =>
    refine ⟨⟨log, [], rfl, by simp⟩, ?_⟩
    simp only [Budget] at hI
    simp only [List.map_cons, List.map_nil, tally_tailLoad, reservedSince_tailLoad, if_pos]
    omega
  | free => exact (List.append_nil log).symm ▸ hI
  | full =>
    have hI := hI.2
    simp only [Budget, List.map_singleton, hown .full (by simp) (by simp)]
    omega
  | stale =>
    have hpos := hback _ rfl (by simp [SpuriousFailure, hpc])
    have hI := hI.2
    simp only [Budget, List.map_nil, List.append_nil]
    omega
  | spurious =>
    have hI := hI.2
    simp only [Budget, List.map_singleton, tally_spurious]
    omega
  | @won data pos =>
    have hI := hI.2
    simp only [Budget, List.map_singleton, hown (.reserve data pos) (by simp) (by simp)]
    omega
  | lost hsp =>
    have hpos := hback _ rfl (by simp [SpuriousFailure, hsp])
    have hI := hI.2
    simp only [Budget, List.map_singleton, hown (.casFail false) (by simp) (by simp)]
    omega
  | writeLen => exact (List.append_nil log).symm ▸ hI
  | writePayload => exact (List.append_nil log).symm ▸ hI
  | @publish data pos =>
    simp only [Budget, List.map_singleton, hown (.publish pos) (by simp) (by simp)]
    exact hI

theorem Refines.budget_step (hg : cfg.Admitted) (hf : cfg.Fits) (hN : 2 ≤ cfg.N)
    (h : Refines cfg s log u ulog) {a : RingAction ι} (hw : windowed (2 ^ 63 - cfg.N) s log a)
    (hI : ∀ i, Budget i log (s.push i)) (hs : ringStep (segOps cfg) s a = some (s', ev)) :
    ∀ i, Budget i (log ++ ev) (s'.push i) := by
  intro i
  by_cases ha : a.by = some i
  · cases ringTrans_of_step hs with
    | @call j d _ =>
      obtain rfl : j = i := Option.some.inj ha
      simp only [Function.update_self, pushCall]
      split <;> simp [Budget, tally]
    | @push j spurious pc m pev _ =>
      obtain rfl : j = i := Option.some.inj ha
      exact h.budget_push hg hf hN hw (hI j) hs
    | popCall | pop | state => cases ha
  · rw [ringStep_push_of_not_by hs ha]
    exact (hI i).append fun e he hby => ha ((ringStep_by hs he).symm.trans hby)

end Step

/-! ### Alone -/

/-- The most steps a push takes alone before it returns, spurious failures apart; `stale` is
how far the tail has moved since its tail load. -/
def stepsLeft {W : Type} (stale : Nat) : PushPc W → Nat
  | .loadTail _ => 6
  | .loadSeq _ _ => if stale = 0 then 5 else 8
  | .cas _ _ => if stale = 0 then 4 else 7
  | .writeLen _ _ => 3
  | .writePayload _ _ => 2
  | .publish _ _ => 1
  | .idle | .done _ => 0

theorem stepsLeft_le {W : Type} (stale : Nat) (pc : PushPc W) : stepsLeft stale pc ≤ 8 := by
  cases pc with
  | loadSeq | cas => simp only [stepsLeft]; split <;> omega
  | _ => simp [stepsLeft]

/-- The push is still in its loop. -/
def PushPc.looping {W : Type} : PushPc W → Bool
  | .loadTail _ | .loadSeq _ _ | .cas _ _ => true
  | _ => false

omit [DecidableEq ι] in
/-- A step that stays in the loop reserves nothing and starts in it; none ends outside a call
that was never made. -/
theorem PushTrans.looping {W M : Type} {ops : SegOps W M} {spurious : Bool} {pc pc' : PushPc W}
    {m m' : M} {ev : List (PushEvent W)} (h : PushTrans ops spurious pc m pc' m' ev) :
    pc' ≠ .idle ∧ (pc'.looping = true → pc.looping = true ∧
      ∀ i : ι, reserves (ev.map (RingEvent.push i)) = []) := by
  cases h with
  | won | writeLen | writePayload | publish | full => exact ⟨nofun, fun hl => by cases hl⟩
  | _ => exact ⟨nofun, fun _ => ⟨rfl, fun _ => rfl⟩⟩

theorem windowed_of_looping {W M : Type} {s : RingState ι W M} {log : List (RingEvent ι W)}
    {b : Nat} {i : ι} {spurious : Bool}
    (h : (s.push i).looping = true → (reserves log).length < b) :
    windowed b s log (.push i spurious) := by
  rintro j sp heq hd
  cases heq
  have hl : (s.push i).looping = true := by
    generalize s.push i = pc at hd
    cases pc <;> first | rfl | cases hd
  exact Nat.lt_of_le_of_lt (reservedSince_le i log) (h hl)

section Solo

variable {s s' : RingState ι UInt64 Memory} {log ev : List (RingEvent ι UInt64)}
  {u : RingState ι Nat UMem} {ulog : List (RingEvent ι Nat)}

/-- Every step alone brings the return nearer, and a spurious failure costs three steps. -/
theorem Refines.stepsLeft_step (hg : cfg.Admitted) (hf : cfg.Fits) (hN : 2 ≤ cfg.N)
    (h : Refines cfg s log u ulog) {i : ι} {spurious : Bool}
    (hw : windowed (2 ^ 63 - cfg.N) s log (.push i spurious))
    (hs : ringStep (segOps cfg) s (.push i spurious) = some (s', ev)) :
    stepsLeft (reservedSince i (log ++ ev)) (s'.push i) + 1 ≤
      stepsLeft (reservedSince i log) (s.push i) + 3 * spurious.toNat := by
  have hback : ∀ data, s'.push i = .loadTail data → ¬ SpuriousFailure s i spurious →
      0 < reservedSince i log := fun data hpc hsp => h.reservedSince_pos hg hf hN hw hs hpc hsp
  cases ringTrans_of_step hs with | push ht
  simp only [Function.update_self] at hback ⊢
  generalize hpc : s.push i = pc0 at ht
  cases ht with
  | loadTail =>
    rw [List.map_singleton, reservedSince_tailLoad, if_pos rfl]
    simp only [stepsLeft, if_pos]
    omega
  | free =>
    rw [List.map_nil, List.append_nil]
    simp only [stepsLeft]
    split <;> omega
  | full =>
    simp only [stepsLeft]
    split <;> omega
  | stale =>
    have hpos := hback _ rfl (by simp [SpuriousFailure, hpc])
    simp only [stepsLeft, if_neg (Nat.ne_of_gt hpos)]
    omega
  | spurious hsp =>
    subst hsp
    simp only [stepsLeft, Bool.toNat_true]
    split <;> omega
  | won =>
    simp only [stepsLeft]
    split <;> omega
  | lost hsp =>
    have hpos := hback _ rfl (by simp [SpuriousFailure, hsp])
    simp only [stepsLeft, if_neg (Nat.ne_of_gt hpos)]
    omega
  | writeLen | writePayload | publish =>
    simp only [stepsLeft]
    omega

theorem Refines.solo_run (hg : cfg.Admitted) (hf : cfg.Fits) (hN : 2 ≤ cfg.N)
    (h : Refines cfg s log u ulog) (hb : (reserves log).length < 2 ^ 63 - cfg.N) {i : ι}
    (hi : (s.push i).ready = false) {sps : List Bool} {log' : List (RingEvent ι UInt64)}
    (hrun : (ringMachine ι (segOps cfg)).Run Machine.free s log (sps.map (.push i)) s' log') :
    (∃ u' ulog', Refines cfg s' log' u' ulog') ∧ s'.push i ≠ .idle ∧
      ((s'.push i).looping = true → (reserves log').length < 2 ^ 63 - cfg.N) ∧
      sps.length + stepsLeft (reservedSince i log') (s'.push i) ≤
        stepsLeft (reservedSince i log) (s.push i) + 3 * sps.count true := by
  generalize has : sps.map (RingAction.push i) = as at hrun
  induction hrun generalizing sps with
  | nil =>
    obtain rfl := List.map_eq_nil_iff.mp has
    refine ⟨⟨u, ulog, h⟩, ?_, fun _ => hb, by simp⟩
    intro hidle
    rw [hidle] at hi
    cases hi
  | @snoc as s1 log1 a s2 ev _ _ hs ih =>
    obtain ⟨sps', tl, rfl, has', htl⟩ := List.map_eq_append_iff.mp has
    obtain ⟨spurious, rfl, rfl⟩ := List.map_eq_singleton_iff.mp htl
    obtain ⟨⟨u1, ulog1, hR⟩, _, hloop, hleft⟩ := ih has'
    have hwin : windowed (2 ^ 63 - cfg.N) s1 log1 (.push i spurious) := windowed_of_looping hloop
    have hstep := hR.stepsLeft_step hg hf hN hwin hs
    obtain ⟨u', uev, _, hR'⟩ := hR.step hg hf hN hwin hs
    have hring : RingTrans (segOps cfg) s1 (.push i spurious) s2 ev := ringTrans_of_step hs
    cases hring with | push ht
    obtain ⟨hidle, hl⟩ := ht.looping (ι := ι)
    refine ⟨⟨u', _, hR'⟩, by simpa using hidle, fun hpc => ?_, ?_⟩
    · obtain ⟨hl1, hres⟩ := hl (by simpa using hpc)
      rw [reserves_append, hres i, List.append_nil]
      exact hloop hl1
    · rw [List.length_append, List.count_append, List.length_singleton]
      have hcount : List.count true [spurious] = spurious.toNat := by cases spurious <;> rfl
      omega

end Solo

/-- An iteration that goes round again without a spurious failure was overtaken; the
iterations of a call are paid for by the others and by spurious failures; alone, a push steps
until it returns, and does so soon. -/
theorem lock_free (hN : 2 ≤ cfg.N) {as : List (RingAction ι)} {s : RingState ι UInt64 Memory}
    {log : List (RingEvent ι UInt64)} (h : InitRun cfg Machine.free as s log)
    (hb : (reserves log).length < 2 ^ 63 - cfg.N) (i : ι) :
    (∀ spurious s' ev data, ringStep (segOps cfg) s (.push i spurious) = some (s', ev) →
      s'.push i = .loadTail data → ¬ SpuriousFailure s i spurious → Overtaken i log) ∧
    (tally i log).iterations ≤ 1 + (tally i log).others + (tally i log).spurious ∧
    ((s.push i).ready = false → ∀ (sps : List Bool) s' log',
      (ringMachine ι (segOps cfg)).Run Machine.free s log (sps.map (.push i)) s' log' →
      sps.length ≤ 8 + 3 * sps.count true ∧
        ((∃ r, s'.push i = .done r) ∨
          ∀ spurious, (ringStep (segOps cfg) s' (.push i spurious)).isSome)) := by
  have hg := h.admitted
  have hf := h.fits
  have hI : ∀ i, Budget i log (s.push i) :=
    h.invariant hN hb (I := fun s log => ∀ i, Budget i log (s.push i)) (fun _ _ => Nat.zero_le _)
      fun s log u ulog a s' ev hR hw hI hs => hR.budget_step hg hf hN hw hI hs
  obtain ⟨u, ulog, hR⟩ := h.refines_of_bound hN hb
  refine ⟨?_, ?_, ?_⟩
  · intro spurious s' ev data hs hpc hsp
    have hpos := hR.reservedSince_pos hg hf hN (windowed_of_looping fun _ => hb) hs hpc hsp
    have hlook : Looking i log := looking_of_back (hI i) hs hpc
    exact hlook.overtaken hpos
  · have := hI i
    generalize s.push i = pc at this
    cases pc <;> simp only [Budget] at this <;> omega
  · intro hi sps s' log' hrun
    obtain ⟨⟨u', ulog', hR'⟩, hidle, hloop, hleft⟩ := hR.solo_run hg hf hN hb hi hrun
    have hle := stepsLeft_le (reservedSince i log) (s.push i)
    refine ⟨by omega, ?_⟩
    cases hready : (s'.push i).ready with
    | true =>
      refine .inl ?_
      generalize s'.push i = pc at hready hidle
      cases pc with
      | idle => exact absurd rfl hidle
      | done r => exact ⟨r, rfl⟩
      | _ => cases hready
    | false =>
      exact .inr fun spurious => hR'.push_isSome hg hf hN (windowed_of_looping hloop) hready

/-- A producer before its CAS on a tail that another one has moved. -/
def overtake : List (RingAction Bool) :=
  .call true [7] :: List.replicate 2 (.push true false) ++
    .call false [8] :: List.replicate 6 (.push false false)

theorem overtake_exec : (execInit tiny blank overtake).map (fun c => ((reserves c.2).length,
    (ringStep (segOps tiny) c.1 (.push true false)).map fun r => match r.1.push true with
      | .loadTail data => some data
      | _ => none)) = some (1, some (some [7])) := by
  decide +kernel

theorem lock_free_tiny : ∃ s log, InitRun tiny Machine.free overtake s log ∧
    Overtaken true log := by
  obtain ⟨⟨s, log⟩, hc, heq⟩ := Option.map_eq_some_iff.mp overtake_exec
  obtain ⟨hres, hstep⟩ := Prod.mk.inj heq
  obtain ⟨⟨s', ev⟩, hs, hpc⟩ := Option.map_eq_some_iff.mp hstep
  have hrun : InitRun tiny Machine.free overtake s log := initRun_of_execInit rfl hc
  have hback : s'.push true = .loadTail [7] := by
    dsimp only at hpc
    split at hpc
    · rename_i data heq
      rw [heq, Option.some.inj hpc]
    · cases hpc
  exact ⟨s, log, hrun, (lock_free (by decide) hrun (by rw [hres]; decide) true).1 _ _ _ _ hs hback
    (by simp [SpuriousFailure])⟩

end ShmMpsc
