import ShmMpsc.Ring.OrderedSteps

/-!
# No data race, and every message once

Every step that a thread under way makes is defined, so nothing it does is a race, and the
messages come out once, whole and in the order of their positions.
-/

namespace ShmMpsc

set_option autoImplicit false

open RingConfig

variable {ι : Type} [DecidableEq ι] {cfg : RingConfig}

namespace Tracks

variable {s s' : OrderedState ι UInt64 UInt64 Memory} {log ev : List (RingEvent ι UInt64)}
  {u : RingState ι Nat UMem} {ulog : List (RingEvent ι Nat)}

theorem seen (h : Tracks cfg s log u ulog) {t : Option ι} {x : Word UInt64} {m : Ordered ι}
    (hm : s.mem.see t x = some m) : Tracks cfg { s with mem := m } log u ulog := by
  simp only [RelAcq.see] at hm
  split at hm
  · rename_i hlt
    cases hm
    have hv : s.mem.view t ≤ (s.mem.view t).since x ((s.mem.view t).2 x + 1) :=
      View.le_since (Nat.le_succ _)
    have hk : s.mem.Known ((s.mem.view t).since x ((s.mem.view t).2 x + 1)) := by
      intro y
      by_cases hy : y = x
      · subst hy
        simpa [View.since] using Nat.succ_le_of_lt hlt
      · simpa [View.since, hy] using h.mem.wf.view t y
    refine ⟨h.ring, h.mem.setView hv hk, fun i => ?_, h.pop, h.agree⟩
    obtain ⟨pc, hpc, hu, hloads⟩ := h.push i
    exact ⟨pc, hpc, hu, hloads.later h.mem.wf (RelAcq.setView_later hv) (Nat.le_refl _)⟩
  · cases hm

theorem pushCall_cases {W M : Type} (ops : SegOps W M) (data : List UInt8) :
    pushCall ops data = .done (.error .tooBig) ∨ pushCall ops data = .loadTail data := by
  unfold pushCall
  split
  · exact .inl rfl
  · exact .inr rfl

theorem call (hg : cfg.Admitted) (hN : 2 ≤ cfg.N) (h : Tracks cfg s log u ulog) {i : ι}
    (data : List UInt8) (hready : (s.push i).ready = true) :
    ∃ u', Tracks cfg { s with push := Function.update s.push i (pushCall (segOps cfg) data) }
      (log ++ [.call i data]) u' (ulog ++ [.call i data]) := by
  obtain ⟨pc, hpc, hu, _⟩ := h.push i
  have hready' : (u.push i).ready = true := by
    rw [hu, PushPc.ready_settled]
    rwa [hpc, PushPc.ready_map] at hready
  have hs : ringStep (unbounded cfg) u (.call i data) = some
      ({ u with push := Function.update u.push i (pushCall (unbounded cfg) data) },
        [.call i data]) :=
    if_pos hready'
  have hcall := sim_pushCall hg data
  have hring := h.ring.step hN hs
  have hkeep := hand_keep (hand_push_ready hready')
  have hhand := hand_push u i (pushCall (unbounded cfg) data) u.mem
  refine ⟨_, hring, ?_, fun j => ?_, h.pop, h.agree.append (.of_map [.call i data])⟩
  · rcases pushCall_cases (unbounded cfg) data with hc | hc
    all_goals
      rw [hc] at hhand ⊢
      exact hhand ▸ hkeep.symm ▸ h.mem
  · by_cases hj : j = i
    · subst hj
      refine ⟨pushCall (unbounded cfg) data, by simp [hcall], ?_, ?_⟩
      all_goals
        rcases pushCall_cases (unbounded cfg) data with hc | hc
        all_goals simp [hc, PushPc.settled, Loads]
    · obtain ⟨pc', hpc', hu', hloads⟩ := h.push j
      exact ⟨pc', by simpa [hj] using hpc', by simpa [hj] using hu', hloads⟩

theorem popCall (hN : 2 ≤ cfg.N) (h : Tracks cfg s log u ulog) (out : List UInt8)
    (hready : s.pop.ready = true) :
    ∃ u', Tracks cfg { s with pop := .loadHead out } (log ++ [.popCall out]) u'
      (ulog ++ [.popCall out]) := by
  have hready' : u.pop.ready = true := by rwa [h.pop, PopPc.ready_map] at hready
  have hs : ringStep (unbounded cfg) u (.popCall out) =
      some ({ u with pop := .loadHead out }, [.popCall out]) := if_pos hready'
  have hkeep := hand_keep (hand_pop_ready hready')
  have hhand := hand_pop u (.loadHead out) u.mem
  refine ⟨_, h.ring.step hN hs, ?_, h.push, rfl, h.agree.append (.of_map [.popCall out])⟩
  exact hhand ▸ hkeep.symm ▸ h.mem

/-- `consumer_state` is nobody's business here. -/
theorem state (hf : cfg.Fits) (h : Tracks cfg s log u ulog) (v : UInt64) :
    ∃ m u', (segOps cfg).storeState v s.mem.mem = some m ∧
      Tracks cfg { s with mem := { s.mem with mem := m } } log u' ulog := by
  obtain ⟨m, hm, hm'⟩ := h.mem.mem.storeState hf v
  refine ⟨m, _, hm, h.ring.setState v, h.mem.setMem hm' rfl rfl rfl, fun i => ?_, h.pop, h.agree⟩
  obtain ⟨pc, hpc, hu, hloads⟩ := h.push i
  exact ⟨pc, hpc, hu, hloads.later h.mem.wf (RelAcq.mem_later _ m) (Nat.le_refl _)⟩

theorem step (hg : cfg.Admitted) (hf : cfg.Fits) (hN : 2 ≤ cfg.N) (h : Tracks cfg s log u ulog)
    (hb : (reserves log).length < 2 ^ 63 - cfg.N) {a : OrderedAction ι UInt64}
    (hs : orderedStep (segOps cfg) cfg.slotPtr s a = some (s', ev)) :
    ∃ u' ulog', Tracks cfg s' (log ++ ev) u' ulog' := by
  have hsteps (hst : Steps cfg s log a) : ∃ u' ulog', Tracks cfg s' (log ++ ev) u' ulog' := by
    obtain ⟨s1, ev1, u', ulog', h1, hF⟩ := hst
    rw [hs] at h1
    cases h1
    exact ⟨u', ulog', hF⟩
  cases a with
  | see t x =>
    obtain ⟨m, hm, hs⟩ := Option.map_eq_some_iff.mp hs
    cases hs
    exact ⟨u, ulog, by simpa using h.seen hm⟩
  | ring a =>
    cases a with
    | push i spurious =>
      refine hsteps (h.push_step hg hf hN hb ?_ spurious)
      cases hready : (s.push i).ready with
      | false => rfl
      | true => simp [orderedStep, ringStep, pushStep_of_ready hready] at hs
    | pop =>
      refine hsteps (h.pop_step hg hf hN hb ?_)
      cases hready : s.pop.ready with
      | false => rfl
      | true => simp [orderedStep, ringStep, popStep_of_ready hready] at hs
    | call i data =>
      obtain ⟨⟨s1, ev1⟩, hr, hs⟩ := Option.map_eq_some_iff.mp hs
      cases hs
      cases ringTrans_of_step hr with
      | call hready =>
        obtain ⟨u', hF⟩ := h.call hg hN data hready
        exact ⟨u', _, hF⟩
    | popCall out =>
      obtain ⟨⟨s1, ev1⟩, hr, hs⟩ := Option.map_eq_some_iff.mp hs
      cases hs
      cases ringTrans_of_step hr with
      | popCall hready =>
        obtain ⟨u', hF⟩ := h.popCall hN out hready
        exact ⟨u', _, hF⟩
    | state v =>
      obtain ⟨⟨s1, ev1⟩, hr, hs⟩ := Option.map_eq_some_iff.mp hs
      cases hs
      cases ringTrans_of_step hr with
      | state hm =>
        obtain ⟨m, u', hst, hF⟩ := h.state hf v
        obtain ⟨m1, hm1, heq⟩ := Option.map_eq_some_iff.mp hm
        rw [hst] at hm1
        cases hm1
        cases heq
        exact ⟨u', ulog, (List.append_nil log).symm ▸ hF⟩

theorem start {m m' : Memory} (hm : m.size = cfg.total.toNat) (hi : init cfg m = some m') :
    ∃ u, Tracks cfg (RingState.start (.start m') : OrderedState ι UInt64 UInt64 Memory)
      [] u [] := by
  have hg := check_iff.mp (init_eq_some hi).1
  obtain ⟨hf, len, payload, hsim⟩ := memSim_init hg hm hi
  refine ⟨RingState.start (UMem.start cfg.N len payload), .start _ _ _ _, ?_, ?_, rfl, ?_⟩
  · have hhand : (RingState.start (UMem.start cfg.N len payload) : RingState ι Nat UMem).hand =
        fun _ => none := by
      funext t
      cases t <;> rfl
    rw [hhand]
    exact .start hg hf hsim
  · exact fun _ => ⟨.idle, rfl, rfl, trivial⟩
  · exact .of_quiet .nil .nil

theorem reserved_at (h : Tracks cfg s log u ulog) {k : Nat} {i : ι} {data : List UInt8}
    {pos : UInt64} (hr : (reserves log)[k]? = some (i, data, pos)) :
    pos = UInt64.ofNat k ∧ data.length ≤ cfg.S - 20 := by
  rw [h.agree.reserves, List.getElem?_map, Option.map_eq_some_iff] at hr
  obtain ⟨⟨j, d, p⟩, hr, heq⟩ := hr
  obtain ⟨rfl, hlen⟩ := h.ring.reserved_at k j d p hr
  cases heq
  exact ⟨rfl, hlen⟩

theorem nodup (h : Tracks cfg s log u ulog) (hb : (reserves log).length < 2 ^ 63 - cfg.N) :
    ((reserves log).map fun r => r.2.2).Nodup := by
  refine List.pairwise_iff_getElem.mpr fun j k hj hk hjk heq => ?_
  rw [List.length_map] at hj hk
  have hrj : (reserves log)[j].2.2 = UInt64.ofNat j :=
    (h.reserved_at (List.getElem?_eq_getElem hj)).1
  have hrk : (reserves log)[k].2.2 = UInt64.ofNat k :=
    (h.reserved_at (List.getElem?_eq_getElem hk)).1
  rw [List.getElem_map, List.getElem_map, hrj, hrk] at heq
  have := (ofNat_inj_of_near (by omega) (by omega)).mp heq
  omega

/-- The k-th pop is of position k, which was published, and brings what was reserved there. -/
theorem popped_at (hg : cfg.Admitted) (hS : cfg.slotSize.toNat < 2 ^ 32)
    (h : Tracks cfg s log u ulog) {k : Nat} {pos : UInt64} {out : List UInt8}
    (hp : (pops log)[k]? = some (pos, out)) : pos = UInt64.ofNat k ∧ Published log pos ∧
      ∃ i, (reserves log)[k]? = some (i, out, pos) := by
  rw [h.agree.pops, List.getElem?_map, Option.map_eq_some_iff] at hp
  obtain ⟨⟨p, o⟩, hp, heq⟩ := hp
  obtain ⟨rfl, i, data, hr, hout⟩ := h.ring.popped_at k p o hp
  cases heq
  have hlt : p < u.mem.head := h.ring.popped ▸ (List.getElem?_eq_some_iff.mp hp).1
  have hfreed : u.mem.head ≤ freed u := head_le_freed u
  have hlen := (h.ring.reserved_at p i data p hr).2
  refine ⟨rfl,
    (h.agree.published _).mpr ⟨p, rfl, (h.ring.published p).mpr (.inl (by omega))⟩, i, ?_⟩
  rw [h.agree.reserves, List.getElem?_map, hr, hout, Refines.length_le_maxLen hg hS hlen]
  rfl

/-- The last message of the head's slot tells that it is published. -/
theorem last_seq (hN : 2 ≤ cfg.N) (h : Tracks cfg s log u ulog)
    (hb : (reserves log).length < 2 ^ 63 - cfg.N) {out : List UInt8} {head : UInt64}
    (hpc : s.pop = .loadSeq out head) (hpub : Published log head)
    (hseen : s.mem.count (.seq (cfg.slotPtr head)) ≤ (s.mem.view none).2
      (.seq (cfg.slotPtr head))) :
    ((segOps cfg).ordered cfg.slotPtr (none : Option ι)).loadSeq head s.mem = some (head + 1) := by
  have hpop := h.pop
  have hlt := h.tail_lt hb
  have hle := h.ring.freed_le
  cases hu : u.pop with
  | loadSeq out' p =>
    rw [hpc, hu] at hpop
    cases hpop
    have hp : p = u.mem.head := by
      have hok := h.ring.pop_ok
      rw [hu] at hok
      exact hok
    have hfreed : freed u = u.mem.head := freed_eq_head (by simp [hu])
    obtain ⟨q, hq, hq'⟩ := (h.agree.published _).mp hpub
    have hnear := (h.ring.published q).mp hq'
    obtain rfl : q = p := (ofNat_inj_of_near (by omega) (by omega)).mp hq
    rw [hp] at hq'
    have hseq := (h.ring.published_head hN hfreed).mp hq'
    have heq := Nat.le_antisymm (h.mem.wf.view none _) hseen
    obtain ⟨v, hval, _, hlast⟩ := h.mem.seq q _ (Nat.le_refl _)
    have hv : v = q + 1 := by
      rw [hlast.mpr rfl, hp]
      exact hseq
    show s.mem.value _ _ _ = _
    rw [heq, ofNat_succ, ← hv]
    exact hval
  | _ =>
    rw [hpc, hu] at hpop
    cases hpop

end Tracks

/-- What holds at every point of a run. -/
structure RaceFree (cfg : RingConfig) (s : OrderedState ι UInt64 UInt64 Memory)
    (log : List (RingEvent ι UInt64)) : Prop where
  /-- No step of a call under way is a race, or outside the mapping. -/
  push : ∀ i spurious, (s.push i).ready = false →
    (orderedStep (segOps cfg) cfg.slotPtr s (.ring (.push i spurious))).isSome
  pop : s.pop.ready = false → (orderedStep (segOps cfg) cfg.slotPtr s (.ring .pop)).isSome
  nodup : ((reserves log).map fun r => r.2.2).Nodup
  fifo : ∀ (k : Nat) pos out, (pops log)[k]? = some (pos, out) →
    pos.toNat = k ∧ Published log pos ∧ ∃ i, (reserves log)[k]? = some (i, out, pos)
  /-- Once the news of its slot has come, a published position is taken. -/
  taken : ∀ out head, s.pop = .loadSeq out head → Published log head →
    s.mem.count (.seq (cfg.slotPtr head)) ≤ (s.mem.view none).2 (.seq (cfg.slotPtr head)) →
    ∃ m, orderedStep (segOps cfg) cfg.slotPtr s (.ring .pop) =
      some ({ s with mem := m, pop := .readLen out head }, [])

theorem race_free (hN : 2 ≤ cfg.N) (hS : cfg.slotSize.toNat < 2 ^ 32)
    {as : List (OrderedAction ι UInt64)} {s : OrderedState ι UInt64 UInt64 Memory}
    {log : List (RingEvent ι UInt64)} (h : OrderedRun cfg Machine.free as s log)
    (hb : (reserves log).length < 2 ^ 63 - cfg.N) : RaceFree cfg s log := by
  obtain ⟨m, m', hm, hi, hrun⟩ := h
  have hg := check_iff.mp (init_eq_some hi).1
  have hf := fits_of_init hm hi
  have hmono : ∀ l l' : List (RingEvent ι UInt64), l <+: l' →
      (reserves l).length ≤ (reserves l').length := by
    rintro l _ ⟨l', rfl⟩
    simp
  obtain ⟨u0, h0⟩ := Tracks.start (ι := ι) hm hi
  obtain ⟨u, ulog, hF⟩ := (hrun.bounded hmono hb).invariant
    (I := fun s log => ∃ u ulog, Tracks cfg s log u ulog) ⟨u0, [], h0⟩
    fun _ _ _ _ _ ⟨_, _, hF⟩ hw hs => hF.step hg hf hN hw.2 hs
  refine ⟨fun i spurious hready => ?_, fun hready => ?_, hF.nodup hb, fun k pos out hk => ?_,
    fun out head hpc hpub hseen => ?_⟩
  · obtain ⟨s', ev, _, _, hs, _⟩ := hF.push_step hg hf hN hb hready spurious
    rw [hs]
    rfl
  · obtain ⟨s', ev, _, _, hs, _⟩ := hF.pop_step hg hf hN hb hready
    rw [hs]
    rfl
  · obtain ⟨rfl, hpub, i, hr⟩ := hF.popped_at hg hS hk
    have hlt : k < (reserves log).length := (List.getElem?_eq_some_iff.mp hr).1
    refine ⟨?_, hpub, i, hr⟩
    rw [UInt64.toNat_ofNat', Nat.mod_eq_of_lt (by omega)]
  · have hload := hF.last_seq hN hb hpc hpub hseen
    have hs : popStep ((segOps cfg).ordered cfg.slotPtr none) s.pop s.mem =
        some (.readLen out head, s.mem, []) := hpc ▸ (PopTrans.ready hload).step
    refine ⟨s.loaded cfg.slotPtr .pop s.mem, ?_⟩
    simp only [orderedStep, RingAction.thread, ringStep, hs, Option.map_some, List.map_nil]

/-- The consumer comes too early, then looks at an old message of the slot, then at the new. -/
def lateNews : List (OrderedAction Bool UInt64) :=
  .ring (.popCall [1, 2]) :: List.replicate 2 (.ring .pop) ++
    .ring (.call true [7]) :: List.replicate 6 (.ring (.push true false)) ++
    .ring (.popCall [1, 2]) :: List.replicate 2 (.ring .pop) ++
    .see none (.seq (tiny.slotPtr 0)) ::
    .ring (.popCall [1, 2]) :: List.replicate 6 (.ring .pop)

theorem lateNews_exec : ((init tiny blank).bind fun m =>
    (orderedMachine Bool (segOps tiny) tiny.slotPtr).exec
      (RingState.start (.start m), []) lateNews).map
      (fun c => (reserves c.2, pops c.2)) = some ([(true, [7], 0)], [(0, [7])]) := by
  decide +kernel

theorem race_free_lateNews : ∃ s log, OrderedRun tiny Machine.free lateNews s log ∧
    pops log = [(0, [7])] ∧ RaceFree tiny s log := by
  obtain ⟨c, hc, heq⟩ := Option.map_eq_some_iff.mp lateNews_exec
  obtain ⟨m, hi, hrun⟩ := Option.bind_eq_some_iff.mp hc
  obtain ⟨hres, hpops⟩ := Prod.mk.inj heq
  have hrun : OrderedRun tiny Machine.free lateNews c.1 c.2 :=
    ⟨blank, m, rfl, hi, Machine.run_of_exec hrun⟩
  exact ⟨c.1, c.2, hrun, hpops, race_free (by decide) (by decide) hrun (by rw [hres]; decide)⟩

end ShmMpsc
