import ShmMpsc.Ring.Ownership

/-!
# `Full` is exact and failed pushes are invisible

A push compares a tail it has read with a slot it reads later. That the comparison still
says how many positions are taken now rests on the window of the unbounded ring; that a
failing push leaves no trace only on where the code writes.
-/

namespace ShmMpsc

set_option autoImplicit false

open RingConfig

section Log

variable {ι W : Type}

/-- The producer that shows the event. -/
def RingEvent.by : RingEvent ι W → Option ι
  | .call i _ | .push i _ => some i
  | .popCall _ | .pop _ => none

def RingAction.by : RingAction ι → Option ι
  | .call i _ | .push i _ => some i
  | .popCall _ | .pop | .state _ => none

/-- In the last call of producer `i` its step `e` was taken where `P` held of the log. -/
def InCall (i : ι) (e : PushEvent W) (P : List (RingEvent ι W) → Prop)
    (log : List (RingEvent ι W)) : Prop :=
  ∃ before after, log = before ++ .push i e :: after ∧ (∀ d, .call i d ∉ after) ∧ P before

variable {i : ι} {e : PushEvent W} {P : List (RingEvent ι W) → Prop} {log ev : List (RingEvent ι W)}

theorem InCall.now (h : P log) : InCall i e P (log ++ [.push i e]) :=
  ⟨log, [], rfl, by simp, h⟩

theorem InCall.append (h : InCall i e P log) (hev : ∀ d, .call i d ∉ ev) :
    InCall i e P (log ++ ev) := by
  obtain ⟨before, after, rfl, hafter, hP⟩ := h
  refine ⟨before, after ++ ev, by simp, fun d hd => ?_, hP⟩
  rcases List.mem_append.mp hd with hd | hd
  · exact hafter d hd
  · exact hev d hd

end Log

variable {cfg : RingConfig} {ι : Type} [DecidableEq ι]

theorem ringStep_by {W M : Type} [DecidableEq W] {ops : SegOps W M} {s s' : RingState ι W M}
    {a : RingAction ι} {ev : List (RingEvent ι W)} (hs : ringStep ops s a = some (s', ev))
    {e : RingEvent ι W} (he : e ∈ ev) : e.by = a.by := by
  cases ringTrans_of_step hs with
  | call | popCall =>
    rw [List.mem_singleton.mp he]
    rfl
  | push | pop =>
    obtain ⟨pe, _, rfl⟩ := List.mem_map.mp he
    rfl
  | state => cases he

theorem ringStep_push_of_not_by {W M : Type} [DecidableEq W] {ops : SegOps W M}
    {s s' : RingState ι W M} {a : RingAction ι} {ev : List (RingEvent ι W)}
    (hs : ringStep ops s a = some (s', ev)) {i : ι} (ha : a.by ≠ some i) :
    s'.push i = s.push i := by
  refine ringStep_push_of_ne hs ?_ ?_
  · rintro spurious rfl
    exact ha rfl
  · rintro d rfl
    exact ha rfl

/-- A property of states and logs that every step of the code keeps, taken where it shows the
unbounded ring. -/
theorem InitRun.invariant (hN : 2 ≤ cfg.N) {as : List (RingAction ι)}
    {s : RingState ι UInt64 Memory} {log : List (RingEvent ι UInt64)}
    (h : InitRun cfg Machine.free as s log) (hb : (reserves log).length < 2 ^ 63 - cfg.N)
    {I : RingState ι UInt64 Memory → List (RingEvent ι UInt64) → Prop}
    (h0 : ∀ m, I (RingState.start m) [])
    (hstep : ∀ s log u ulog a s' ev, Refines cfg s log u ulog →
      windowed (2 ^ 63 - cfg.N) s log a → I s log → ringStep (segOps cfg) s a = some (s', ev) →
      I s' (log ++ ev)) : I s log := by
  have hg := h.admitted
  have hf := h.fits
  obtain ⟨m, m', hm, hi, hrun⟩ := h.windowed_of_bound hb
  obtain ⟨len, payload, hR⟩ := refines_init (ι := ι) hm hi
  refine (hrun.invariant (I := fun s log => (∃ u ulog, Refines cfg s log u ulog) ∧ I s log)
    ⟨⟨_, _, hR⟩, h0 m'⟩ ?_).2
  rintro s log a s' ev ⟨⟨u, ulog, hR⟩, hI⟩ hw hs
  obtain ⟨u', uev, _, hR'⟩ := hR.step hg hf hN hw hs
  exact ⟨⟨u', _, hR'⟩, hstep s log u ulog a s' ev hR hw hI hs⟩

/-- A producer's step of the code is a step of the same kind in the unbounded ring. -/
theorem Refines.pushTrans (hg : cfg.Admitted) (hf : cfg.Fits) (hN : 2 ≤ cfg.N)
    {s s' : RingState ι UInt64 Memory} {log ev : List (RingEvent ι UInt64)}
    {u : RingState ι Nat UMem} {ulog : List (RingEvent ι Nat)} (h : Refines cfg s log u ulog)
    {i : ι} {spurious : Bool} (hw : windowed (2 ^ 63 - cfg.N) s log (.push i spurious))
    (hs : ringStep (segOps cfg) s (.push i spurious) = some (s', ev)) :
    ∃ u' pev, PushTrans (unbounded cfg) spurious (u.push i) u.mem (u'.push i) u'.mem pev ∧
      Refines cfg s' (log ++ ev) u' (ulog ++ pev.map (.push i)) ∧
      ev = pev.map fun e => .push i (e.map UInt64.ofNat) := by
  obtain ⟨u', uev, hu, hR⟩ := h.step hg hf hN hw hs
  cases ringTrans_of_step hu with | @push _ _ pc m pev ht
  refine ⟨_, pev, ?_, hR, ?_⟩
  · simpa using ht
  · have hlog := hR.log_eq
    rw [h.log_eq, List.map_append, List.append_cancel_left_eq] at hlog
    rw [hlog, List.map_map]
    rfl

/-! ### How many positions are taken -/

section Counts

variable {N L : Nat} {u : RingState ι Nat UMem} {ulog : List (RingEvent ι Nat)}

/-- An older position in the slot of one read from the tail means that every slot is taken,
also when that tail is no longer the tail. -/
theorem RingInv.tail_of_full (h : RingInv N L u ulog) (hN : 0 < N) {pos : Nat}
    (hpos : pos ≤ u.mem.tail) (hseq : u.mem.seq (pos % N) < pos) : u.mem.tail = freed u + N := by
  have ht := h.tail_le
  have hlow := (h.seq_near hN pos).1
  by_cases hlt : pos < freed u + N
  · -- inside the window the slot would show pos or its successor
    rcases h.slot pos (by omega) hlt with ⟨hs, _⟩ | ⟨hs, _⟩ <;> omega
  · omega

/-- A younger one means that the tail has moved since. -/
theorem RingInv.tail_moved (h : RingInv N L u ulog) (hN : 2 ≤ N) {pos : Nat}
    (hpos : pos ≤ u.mem.tail) (hseq : pos < u.mem.seq (pos % N)) : pos < u.mem.tail := by
  have ht := h.tail_le
  have hf := h.freed_le
  by_contra hge
  obtain rfl : pos = u.mem.tail := by omega
  by_cases hroom : u.mem.tail < freed u + N
  · rw [h.seq_tail hroom] at hseq
    omega
  · -- in a full ring the tail shares its slot with the oldest position
    obtain hfull : u.mem.tail = freed u + N := by omega
    rw [hfull, Nat.add_mod_right] at hseq
    rcases h.slot (freed u) (Nat.le_refl _) (by omega) with ⟨hs, _⟩ | ⟨hs, _⟩ <;> omega

end Counts

/-- Every slot holds a position that is reserved and not released. -/
def AllTaken (cfg : RingConfig) (log : List (RingEvent ι UInt64)) : Prop :=
  (reserves log).length = (releases log).length + cfg.N

/-- Some slot does not. -/
def SomeFree (cfg : RingConfig) (log : List (RingEvent ι UInt64)) : Prop :=
  (reserves log).length < (releases log).length + cfg.N

/-- What the outcome of a push says about the ring at its decisive step. -/
def Exact (cfg : RingConfig) (i : ι) (log : List (RingEvent ι UInt64)) : PushPc UInt64 → Prop
  | .done (.error .full) => InCall i .full (AllTaken cfg) log
  | .writeLen _ pos | .writePayload _ pos | .publish _ pos | .done (.ok pos) =>
    ∃ data, InCall i (.reserve data pos) (SomeFree cfg) log
  | _ => True

omit [DecidableEq ι] in
theorem Exact.append {i : ι} {log ev : List (RingEvent ι UInt64)} {pc : PushPc UInt64}
    (h : Exact cfg i log pc) (hev : ∀ d, .call i d ∉ ev) : Exact cfg i (log ++ ev) pc := by
  cases pc with
  | done r =>
    cases r with
    | ok pos => exact h.imp fun _ h => h.append hev
    | error e =>
      cases e with
      | full => exact InCall.append h hev
      | tooBig => trivial
  | writeLen | writePayload | publish => exact h.imp fun _ h => h.append hev
  | idle | loadTail | loadSeq | cas => trivial

section Step

variable {s s' : RingState ι UInt64 Memory} {log ev : List (RingEvent ι UInt64)}
  {u : RingState ι Nat UMem} {ulog : List (RingEvent ι Nat)}

theorem Refines.exact_push (hg : cfg.Admitted) (hf : cfg.Fits) (hN : 2 ≤ cfg.N)
    (h : Refines cfg s log u ulog) {i : ι} {spurious : Bool}
    (hw : windowed (2 ^ 63 - cfg.N) s log (.push i spurious)) (hI : Exact cfg i log (s.push i))
    (hs : ringStep (segOps cfg) s (.push i spurious) = some (s', ev)) :
    Exact cfg i (log ++ ev) (s'.push i) := by
  obtain ⟨u', pev, ht, hR, rfl⟩ := h.pushTrans hg hf hN hw hs
  have hok := h.inv.push_ok i
  rw [h.sim.push i] at hI
  rw [hR.sim.push i]
  have hnocall : ∀ d, RingEvent.call i d ∉
      pev.map fun e => (RingEvent.push i (e.map UInt64.ofNat) : RingEvent ι UInt64) := by simp
  generalize hpc : u.push i = pc at ht hI hok
  generalize u'.push i = pc' at ht
  generalize u'.mem = m' at ht
  cases ht with
  | @full data pos _ seq hl hd =>
    obtain rfl : u.mem.seq (pos % cfg.N) = seq := Option.some.inj hl
    have hd : (u.mem.seq (pos % cfg.N) : Int) - pos < 0 := hd
    have hok : pos + reservedSince i ulog = u.mem.tail := hok
    have hfull := h.inv.tail_of_full (by omega) (show pos ≤ u.mem.tail by omega) (by omega)
    refine InCall.now ?_
    rw [AllTaken, h.reserves_length, h.releases_length, hfull]
  | @won data pos _ _ _ hc =>
    obtain ⟨hsince, hroom⟩ := hok
    have htail : u.mem.tail = pos := by
      simp only [unboundedOps] at hc
      split at hc
      · assumption
      · cases hc
    refine ⟨data, InCall.now ?_⟩
    rw [SomeFree, h.reserves_length, h.releases_length, htail]
    exact hroom
  | loadTail | free | stale | spurious | lost => trivial
  | writeLen | writePayload | publish => exact Exact.append hI hnocall

theorem Refines.exact_step (hg : cfg.Admitted) (hf : cfg.Fits) (hN : 2 ≤ cfg.N)
    (h : Refines cfg s log u ulog) {a : RingAction ι} (hw : windowed (2 ^ 63 - cfg.N) s log a)
    (hI : ∀ i, Exact cfg i log (s.push i)) (hs : ringStep (segOps cfg) s a = some (s', ev)) :
    ∀ i, Exact cfg i (log ++ ev) (s'.push i) := by
  intro i
  by_cases ha : a.by = some i
  · cases ringTrans_of_step hs with
    | @call j d _ =>
      obtain rfl : j = i := Option.some.inj ha
      simp only [Function.update_self, pushCall]
      split <;> trivial
    | @push j spurious pc m pev _ =>
      obtain rfl : j = i := Option.some.inj ha
      exact h.exact_push hg hf hN hw (hI j) hs
    | popCall | pop | state => cases ha
  · rw [ringStep_push_of_not_by hs ha]
    exact (hI i).append fun d hd => ha (ringStep_by hs hd).symm

end Step

/-! ### Where a push writes -/

/-- The push has won its CAS. -/
def PushPc.committed {W : Type} : PushPc W → Bool
  | .writeLen _ _ | .writePayload _ _ | .publish _ _ | .done (.ok _) => true
  | _ => false

theorem PushTrans.committed {W M : Type} {ops : SegOps W M} {spurious : Bool} {pc pc' : PushPc W}
    {m m' : M} {ev : List (PushEvent W)} (h : PushTrans ops spurious pc m pc' m' ev)
    (hc : pc.committed = true) : pc'.committed = true := by
  cases h <;> first | rfl | cases hc

/-- Before its CAS succeeds a push writes nothing. -/
theorem pushTrans_mem {spurious : Bool} {pc pc' : PushPc UInt64} {m m' : Memory}
    {ev : List (PushEvent UInt64)} (h : PushTrans (segOps cfg) spurious pc m pc' m' ev)
    (hc : pc'.committed = false) : m' = m := by
  cases h with
  | loadTail | free | full | stale | spurious => rfl
  | won | writeLen | writePayload | publish => cases hc
  | lost _ hcas =>
    obtain ⟨cur, _, hcas⟩ := Option.bind_eq_some_iff.mp hcas
    split at hcas
    · obtain ⟨m1, _, heq⟩ := Option.map_eq_some_iff.mp hcas
      cases heq
    · cases hcas
      rfl

theorem committed_run {s s' : RingState ι UInt64 Memory} {log log' : List (RingEvent ι UInt64)}
    {as : List (RingAction ι)} (h : (ringMachine ι (segOps cfg)).Run Machine.free s log as s' log')
    {i : ι} (has : ∀ d, .call i d ∉ as) (hc : (s.push i).committed = true) :
    (s'.push i).committed = true := by
  induction h with
  | nil => exact hc
  | @snoc as s1 log1 a s2 ev _ _ hs ih =>
    have hc1 := ih fun d hd => has d (List.mem_append_left _ hd)
    by_cases ha : ∃ spurious, a = .push i spurious
    · obtain ⟨spurious, rfl⟩ := ha
      have hring : RingTrans (segOps cfg) s1 (.push i spurious) s2 ev := ringTrans_of_step hs
      cases hring with | push ht
      simpa using ht.committed hc1
    · have ha : ∀ sp, a ≠ .push i sp := fun sp heq => ha ⟨sp, heq⟩
      have hcall : ∀ d, a ≠ .call i d := by
        rintro d rfl
        exact has d (List.mem_append_right _ (List.mem_singleton_self _))
      rw [ringStep_push_of_ne hs ha hcall]
      exact hc1

/-- A step of producer `i` into or inside a call that ends with an error writes nothing. -/
theorem mem_of_failed {s s' s'' : RingState ι UInt64 Memory} {a : RingAction ι}
    {ev log log' : List (RingEvent ι UInt64)} {bs : List (RingAction ι)} {i : ι}
    (ha : (∃ d, a = .call i d) ∨ ∃ spurious, a = .push i spurious)
    (hs : ringStep (segOps cfg) s a = some (s', ev))
    (hrun : (ringMachine ι (segOps cfg)).Run Machine.free s' log bs s'' log')
    (hbs : ∀ d, .call i d ∉ bs) {e : PushErr} (he : s''.push i = .done (.error e)) :
    s'.mem = s.mem := by
  rcases ha with ⟨d, rfl⟩ | ⟨spurious, rfl⟩
  · cases ringTrans_of_step hs
    rfl
  · cases ringTrans_of_step hs with | push ht
    refine pushTrans_mem ht ?_
    by_contra hc
    have hend := committed_run hrun hbs (by simpa using hc)
    rw [he] at hend
    cases hend

/-- `Full` says that all slots are taken at the seq load it comes from, success that one was
free at the CAS, and a push that ends with an error has written nothing. -/
theorem full_exact (hN : 2 ≤ cfg.N) {as : List (RingAction ι)}
    {s : RingState ι UInt64 Memory} {log : List (RingEvent ι UInt64)}
    (h : InitRun cfg Machine.free as s log) (hb : (reserves log).length < 2 ^ 63 - cfg.N) (i : ι) :
    (s.push i = .done (.error .full) → InCall i .full (AllTaken cfg) log) ∧
    (∀ pos, s.push i = .done (.ok pos) →
      ∃ data, InCall i (.reserve data pos) (SomeFree cfg) log) ∧
    (∀ a s' ev, (∃ d, a = .call i d) ∨ (∃ spurious, a = .push i spurious) →
      ringStep (segOps cfg) s a = some (s', ev) →
      ∀ bs s'' log', (ringMachine ι (segOps cfg)).Run Machine.free s' (log ++ ev) bs s'' log' →
        (∀ d, .call i d ∉ bs) → ∀ e, s''.push i = .done (.error e) → s'.mem = s.mem) := by
  have hg := h.admitted
  have hf := h.fits
  have hI : ∀ i, Exact cfg i log (s.push i) :=
    h.invariant hN hb (I := fun s log => ∀ i, Exact cfg i log (s.push i)) (fun _ _ => trivial)
      fun s log u ulog a s' ev hR hw hI hs => hR.exact_step hg hf hN hw hI hs
  refine ⟨fun hpc => ?_, fun pos hpc => ?_, ?_⟩
  · have := hI i
    rwa [hpc] at this
  · have := hI i
    rwa [hpc] at this
  · intro a s' ev ha hs bs s'' log' hrun hbs e he
    exact mem_of_failed ha hs hrun hbs he

/-- Two messages into two slots, and a third one. -/
def fillUp : List (RingAction Bool) :=
  .call true [7] :: List.replicate 6 (.push true false) ++
    .call false [8] :: List.replicate 6 (.push false false) ++
    .call true [9] :: List.replicate 2 (.push true false)

theorem fillUp_exec : (execInit tiny blank fillUp).map (fun c =>
    ((reserves c.2).length, match c.1.push true with | .done (.error .full) => true | _ => false)) =
      some (2, true) := by
  decide +kernel

theorem full_exact_tiny : ∃ s log, InitRun tiny Machine.free fillUp s log ∧
    InCall true .full (AllTaken tiny) log := by
  obtain ⟨⟨s, log⟩, hc, heq⟩ := Option.map_eq_some_iff.mp fillUp_exec
  obtain ⟨hres, hpc⟩ := Prod.mk.inj heq
  have hrun : InitRun tiny Machine.free fillUp s log := initRun_of_execInit rfl hc
  have hfull : s.push true = .done (.error .full) := by
    dsimp only at hpc
    split at hpc
    · assumption
    · cases hpc
  exact ⟨s, log, hrun, (full_exact (by decide) hrun (by rw [hres]; decide) true).1 hfull⟩

end ShmMpsc
