import ShmMpsc.Ring.Ownership
import ShmMpsc.Ring.Sequential

/-!
# A producer that stops in the middle of a push

Its position stays reserved and unpublished: the consumer stops below it, the others stop
one lap above it, and everything below goes on.
-/

namespace ShmMpsc

set_option autoImplicit false

open RingConfig

variable {cfg : RingConfig} {ι : Type} [DecidableEq ι]

/-! ### When positions are published -/

/-- Position `k` has been published: the store of its word was made while `k` was one of the last
`num_slots` positions reserved, and so for no position that only wraps to the same word. -/
def PublishedAt (cfg : RingConfig) (log : List (RingEvent ι UInt64)) (k : Nat) : Prop :=
  ∃ before i, before ++ [.push i (.publish (UInt64.ofNat k))] <+: log ∧
    k < (reserves before).length ∧ (reserves before).length ≤ k + cfg.N

/-- Every position was one of the last `N` reserved when it was published. -/
def Timely (N : Nat) (ulog : List (RingEvent ι Nat)) : Prop :=
  ∀ before i p, before ++ [.push i (.publish p)] <+: ulog →
    p < (reserves before).length ∧ (reserves before).length ≤ p + N

namespace Timely

variable {N L : Nat} {u u' : RingState ι Nat UMem} {ulog uev : List (RingEvent ι Nat)}

omit [DecidableEq ι] in
theorem nil : Timely N ([] : List (RingEvent ι Nat)) := by
  intro before i p h
  simp at h

omit [DecidableEq ι] in
theorem snoc (h : Timely N ulog) {e : RingEvent ι Nat}
    (he : ∀ i p, e = .push i (.publish p) →
      p < (reserves ulog).length ∧ (reserves ulog).length ≤ p + N) : Timely N (ulog ++ [e]) := by
  intro before i p hpre
  rcases List.prefix_concat_iff.mp hpre with heq | hpre
  · obtain ⟨hbefore, hlast⟩ := List.append_inj' heq rfl
    subst hbefore
    exact he i p (List.singleton_inj.mp hlast).symm
  · exact h before i p hpre

omit [DecidableEq ι] in
/-- Events that publish nothing. -/
theorem append (h : Timely N ulog) (hev : ∀ i p, RingEvent.push i (.publish p) ∉ uev) :
    Timely N (ulog ++ uev) := by
  induction uev using List.reverseRecOn with
  | nil => rwa [List.append_nil]
  | append_singleton uev e ih =>
    rw [← List.append_assoc]
    refine (ih fun i p hmem => hev i p (List.mem_append_left _ hmem)).snoc ?_
    rintro i p rfl
    exact absurd (List.mem_append_right _ (List.mem_singleton_self _)) (hev i p)

/-- A producer publishes a position that it reserved and that has not been given back. -/
theorem step (h : Timely N ulog) (hI : RingInv N L u ulog) {a : RingAction ι}
    (hs : ringStep (unboundedOps N L) u a = some (u', uev)) : Timely N (ulog ++ uev) := by
  cases ringTrans_of_step hs with
  | call | popCall | state => exact h.append (by simp)
  | pop => exact h.append (by simp)
  | @push i spurious pc m pev ht =>
    have hwriting := fun data p (hw : (u.push i).writing = some (data, p)) => hI.of_writing hw
    generalize u.push i = pc₀ at ht hwriting
    cases ht with
    | @publish data pos =>
      refine h.snoc ?_
      rintro j p heq
      cases heq
      obtain ⟨hfreed, hlt, _⟩ := hwriting data pos rfl
      have htail := hI.tail_le
      rw [hI.tail_eq]
      omega
    | _ => exact h.append (by simp)

end Timely

/-- The laps apart, both logs say the same of what is published. -/
theorem Refines.publishedAt_iff (hg : cfg.Admitted) {s : RingState ι UInt64 Memory}
    {log : List (RingEvent ι UInt64)} {u : RingState ι Nat UMem} {ulog : List (RingEvent ι Nat)}
    (h : Refines cfg s log u ulog) (ht : Timely cfg.N ulog) {k : Nat} :
    PublishedAt cfg log k ↔ Published ulog k := by
  have hN : cfg.N ≤ 2 ^ 63 := hg.numSlots_le
  rw [h.log_eq]
  constructor
  · rintro ⟨before, i, hpre, hlt, hle⟩
    obtain ⟨upre, hupre, heq⟩ := List.prefix_map_iff.mp hpre
    obtain ⟨ubefore, ulast, rfl, rfl, hlast⟩ := List.append_eq_map_iff.mp heq
    obtain ⟨e, rfl, he⟩ := List.map_eq_singleton_iff.mp hlast
    cases e with
    | push j e =>
      cases e with
      | publish p =>
        obtain ⟨hplt, hple⟩ := ht ubefore j p hupre
        rw [reserves_map, List.length_map] at hlt hle
        simp only [RingEvent.map, PushEvent.map, RingEvent.push.injEq,
          PushEvent.publish.injEq] at he
        obtain rfl := (ofNat_inj_of_near (by omega) (by omega)).mp he.2
        exact ⟨j, hupre.subset (by simp)⟩
      | _ => cases he
    | _ => cases he
  · rintro ⟨i, hmem⟩
    obtain ⟨ubefore, after, rfl⟩ := List.append_of_mem hmem
    have hupre : ubefore ++ [.push i (.publish k)] <+: ubefore ++ .push i (.publish k) :: after :=
      ⟨after, by simp⟩
    obtain ⟨hlt, hle⟩ := ht ubefore i k hupre
    refine ⟨ubefore.map (RingEvent.map UInt64.ofNat), i, ?_, ?_, ?_⟩
    · have hmap := hupre.map (RingEvent.map UInt64.ofNat)
      rwa [List.map_append] at hmap
    · rwa [reserves_map, List.length_map]
    · rwa [reserves_map, List.length_map]

theorem InitRun.timely (hN : 2 ≤ cfg.N) {as : List (RingAction ι)} {s : RingState ι UInt64 Memory}
    {log : List (RingEvent ι UInt64)} (h : InitRun cfg (windowed (2 ^ 63 - cfg.N)) as s log) :
    ∃ u ulog, Refines cfg s log u ulog ∧ Timely cfg.N ulog := by
  have hg := h.admitted
  have hf := h.fits
  obtain ⟨m, m', hm, hi, hrun⟩ := h
  obtain ⟨len, payload, h0⟩ := refines_init (ι := ι) hm hi
  refine hrun.invariant (I := fun s log => ∃ u ulog, Refines cfg s log u ulog ∧ Timely cfg.N ulog)
    ⟨_, [], h0, .nil⟩ ?_
  rintro s log a s' ev ⟨u, ulog, hR, ht⟩ hw hs
  obtain ⟨u', uev, hu, hR'⟩ := hR.step hg hf hN hw hs
  exact ⟨u', ulog ++ uev, hR', ht.step hR.inv hu⟩

/-! ### The consumer's side -/

/-- Producer `i` holds position `p`, between its CAS and its publishing store. -/
def Stalled (cfg : RingConfig) (i : ι) (p : Nat) (s : RingState ι UInt64 Memory)
    (log : List (RingEvent ι UInt64)) : Prop :=
  ∃ u ulog data, Refines cfg s log u ulog ∧ Timely cfg.N ulog ∧
    (u.push i).writing = some (data, p)

/-- Everybody but `i` may step. -/
def others {W M : Type} (i : ι) : Machine.Guard (RingState ι W M) (RingAction ι) (RingEvent ι W) :=
  fun _ _ a => ∀ spurious, a ≠ .push i spurious

/-- And nobody compares a tail that 2^63 - num_slots reservations or more have passed. -/
def othersWithin (cfg : RingConfig) (i : ι) :
    Machine.Guard (RingState ι UInt64 Memory) (RingAction ι) (RingEvent ι UInt64) :=
  fun s log a => others i s log a ∧ windowed (2 ^ 63 - cfg.N) s log a

theorem othersWithin_of_pop {i : ι} {a : RingAction ι} (ha : a = .pop ∨ ∃ out, a = .popCall out)
    (s : RingState ι UInt64 Memory) (log : List (RingEvent ι UInt64)) :
    othersWithin cfg i s log a := by
  rcases ha with rfl | ⟨out, rfl⟩
  · exact ⟨by simp [others], by simp [windowed]⟩
  · exact ⟨by simp [others], by simp [windowed]⟩

theorem not_ready_of_writing {W : Type} {pc : PushPc W} {r : List UInt8 × W}
    (h : pc.writing = some r) : pc.ready = false := by
  cases pc <;> first | rfl | cases h

namespace Stalled

variable {i : ι} {p : Nat} {s : RingState ι UInt64 Memory} {log : List (RingEvent ι UInt64)}

theorem reserves_le (h : Stalled cfg i p s log) : (reserves log).length ≤ p + cfg.N := by
  obtain ⟨u, ulog, data, hR, _, hw⟩ := h
  have hp := (hR.inv.of_writing hw).1
  have ht := hR.inv.tail_le
  rw [hR.reserves_length]
  omega

theorem step (hg : cfg.Admitted) (hf : cfg.Fits) (hN : 2 ≤ cfg.N) (h : Stalled cfg i p s log)
    {a : RingAction ι} (ha : othersWithin cfg i s log a) {s' : RingState ι UInt64 Memory}
    {ev : List (RingEvent ι UInt64)} (hs : ringStep (segOps cfg) s a = some (s', ev)) :
    Stalled cfg i p s' (log ++ ev) := by
  obtain ⟨u, ulog, data, hR, ht, hw⟩ := h
  obtain ⟨u', uev, hu, hR'⟩ := hR.step hg hf hN ha.2 hs
  refine ⟨u', ulog ++ uev, data, hR', ht.step hR.inv hu, ?_⟩
  rw [ringStep_push_eq hu ha.1 (not_ready_of_writing hw), hw]

theorem run (hg : cfg.Admitted) (hf : cfg.Fits) (hN : 2 ≤ cfg.N) (h : Stalled cfg i p s log)
    {as : List (RingAction ι)} {s' : RingState ι UInt64 Memory} {log' : List (RingEvent ι UInt64)}
    (hrun : (ringMachine ι (segOps cfg)).Run (othersWithin cfg i) s log as s' log') :
    Stalled cfg i p s' log' :=
  hrun.invariant h fun _ _ _ _ _ hI hG hs => hI.step hg hf hN hG hs

/-- The consumer stays below the stalled position, and what it popped is intact. -/
theorem popped_lt (h : Stalled cfg i p s log) {k : Nat} {pos : UInt64} {out : List UInt8}
    (hk : (pops log)[k]? = some (pos, out)) :
    k < p ∧ pos = UInt64.ofNat k ∧
      ∃ j d, (reserves log)[k]? = some (j, d, pos) ∧ (d.length < 2 ^ 32 → out = d) := by
  obtain ⟨u, ulog, data, hR, _, hw⟩ := h
  obtain ⟨rfl, j, d, hr, rfl⟩ := hR.popped_at hk
  have hkl := (List.getElem?_eq_some_iff.mp hk).1
  have hp := (hR.inv.of_writing hw).1
  have hhead : u.mem.head ≤ freed u := head_le_freed u
  rw [hR.pops_length] at hkl
  exact ⟨by omega, rfl, j, d, hr, truncated_of_lt⟩

/-- The CAS that reserves `p` starts it. -/
theorem of_cas (hg : cfg.Admitted) (hf : cfg.Fits) (hN : 2 ≤ cfg.N) {u : RingState ι Nat UMem}
    {ulog : List (RingEvent ι Nat)} (hR : Refines cfg s log u ulog) (ht : Timely cfg.N ulog)
    (hwin : windowed (2 ^ 63 - cfg.N) s log (.push i false)) {data : List UInt8} {pos : UInt64}
    {s' : RingState ι UInt64 Memory}
    (hs : ringStep (segOps cfg) s (.push i false) = some (s', [.push i (.reserve data pos)])) :
    pos = UInt64.ofNat (reserves log).length ∧
      Stalled cfg i (reserves log).length s' (log ++ [.push i (.reserve data pos)]) := by
  obtain ⟨u', uev, hu, hR'⟩ := hR.step hg hf hN hwin hs
  have ht' := ht.step hR.inv hu
  cases ringTrans_of_step hu with | @push _ _ pc m pev hpush
  have hlog := hR'.log_eq
  rw [hR.log_eq, List.map_append, List.append_cancel_left_eq] at hlog
  -- only a won CAS shows a reservation
  generalize hpc : u.push i = pc0 at hpush
  cases hpush with
  | @won d q _ _ _ hc =>
    have htail : u.mem.tail = q := by
      simp only [unboundedOps] at hc
      split at hc
      · assumption
      · cases hc
    have hlen := hR.reserves_length
    simp only [List.map_cons, List.map_nil, RingEvent.map, PushEvent.map, List.cons.injEq,
      RingEvent.push.injEq, PushEvent.reserve.injEq, true_and, and_true] at hlog
    refine ⟨by rw [hlog.2, hlen, htail], _, _, d, hR', ht', ?_⟩
    rw [hlen, htail]
    simp [PushPc.writing]
  | _ => simp [RingEvent.map, PushEvent.map] at hlog

/-- Once everything up to `k` is published, the consumer alone pops it all. -/
theorem pops_on (hg : cfg.Admitted) (hf : cfg.Fits) (hN : 2 ≤ cfg.N) (h : Stalled cfg i p s log)
    (hready : s.pop.ready = true) {k : Nat}
    (hpub : ∀ q, (pops log).length ≤ q → q < k → PublishedAt cfg log q) :
    ∃ cs s' log', (∀ a ∈ cs, a = .pop ∨ ∃ out, a = .popCall out) ∧
      (ringMachine ι (segOps cfg)).Run Machine.free s log cs s' log' ∧
      k ≤ (pops log').length := by
  obtain ⟨n, hn⟩ : ∃ n, n = k - (pops log).length := ⟨_, rfl⟩
  induction n generalizing s log with
  | zero => exact ⟨[], s, log, by simp, .nil, by omega⟩
  | succ n ih =>
    obtain ⟨u, ulog, data, hR, ht, hw⟩ := h
    have hlen := hR.pops_length
    have huready : u.pop.ready = true := by rw [← hready, hR.sim.pop, PopPc.ready_map]
    have hpub0 : Published ulog u.mem.head := by
      rw [← hlen]
      exact (hR.publishedAt_iff hg ht).mp (hpub _ (Nat.le_refl _) (by omega))
    obtain ⟨n', s', hrun, hR'⟩ := hR.soloPop hg hf hN huready hpub0 []
    have hstalled : Stalled cfg i p s' _ := ⟨_, _, data, hR', ht.append (by simp), hw⟩
    have hlen' := hR'.pops_length.trans (congrArg (· + 1) hlen.symm)
    obtain ⟨cs, s'', log'', hcs, hrun', hle⟩ := ih hstalled
      (by rw [hR'.sim.pop, PopPc.ready_map]; rfl)
      (fun q hq hqk => by
        obtain ⟨before, j, hpre, hb⟩ := hpub q (by omega) hqk
        exact ⟨before, j, hpre.trans (List.prefix_append _ _), hb⟩) (by omega)
    refine ⟨_, s'', log'', ?_, hrun.trans hrun', hle⟩
    intro a ha
    rcases List.mem_append.mp ha with ha | ha
    · rcases List.mem_cons.mp ha with rfl | ha
      · exact .inr ⟨_, rfl⟩
      · exact .inl (List.eq_of_mem_replicate ha)
    · exact hcs a ha

end Stalled

/-! ### One lap above the stalled position -/

/-- How far a push of `d` gets in `n` steps while the ring is full below position `t`. -/
def fullProgress (d : List UInt8) (t : Nat) : Nat → PushPc UInt64
  | 0 => .loadTail d
  | 1 => .loadSeq d (UInt64.ofNat t)
  | _ + 2 => .done (.error .full)

/-- The steps of producer `j` in a schedule. -/
def stepsOf (j : ι) (as : List (RingAction ι)) : Nat :=
  as.countP fun a => match a with
    | .push k _ => k = j
    | _ => false

/-- Everybody but `i` may step, and `j` calls nothing anew. -/
def othersAfter (cfg : RingConfig) (i j : ι) :
    Machine.Guard (RingState ι UInt64 Memory) (RingAction ι) (RingEvent ι UInt64) :=
  fun s log a => othersWithin cfg i s log a ∧ ∀ d, a ≠ .call j d

namespace Stalled

variable {i j : ι} {p : Nat} {s : RingState ι UInt64 Memory} {log : List (RingEvent ι UInt64)}

/-- A push that finds the tail one lap above the stalled position steps on to `Full` and writes
nothing. -/
theorem full_step (hg : cfg.Admitted) (hf : cfg.Fits) (h : Stalled cfg i p s log)
    (hfull : (reserves log).length = p + cfg.N) {d : List UInt8} {n : Nat} (hn : n < 2)
    (hj : s.push j = fullProgress d (p + cfg.N) n) (spurious : Bool) :
    ∃ s' ev, ringStep (segOps cfg) s (.push j spurious) = some (s', ev) ∧
      s'.push j = fullProgress d (p + cfg.N) (n + 1) ∧ s'.mem = s.mem := by
  obtain ⟨u, ulog, data, hR, _, hw⟩ := h
  have hseq := (hR.inv.of_writing hw).2.2.2
  have htail := hR.reserves_length
  have hN : cfg.N ≤ 2 ^ 63 := hg.numSlots_le
  have hpos : 0 < cfg.N := hg.pos
  match n, hn with
  | 0, _ =>
    have hl : (segOps cfg).loadTail s.mem = some (UInt64.ofNat (p + cfg.N)) := by
      rw [← hfull, htail]
      exact hR.sim.mem.tail
    have hstep : ringStep (segOps cfg) s (.push j spurious) = some ({ s with
        push := Function.update s.push j (.loadSeq d (UInt64.ofNat (p + cfg.N))) },
        [.push j .tailLoad]) := by
      simp [ringStep, hj, fullProgress, (PushTrans.loadTail hl).step]
    exact ⟨_, _, hstep, by simp [fullProgress], rfl⟩
  | 1, _ =>
    -- the slot of p + N is that of p, which still shows p
    have hl : (segOps cfg).loadSeq (UInt64.ofNat (p + cfg.N)) s.mem = some (UInt64.ofNat p) := by
      show s.mem.load64 (cfg.slotPtr (UInt64.ofNat (p + cfg.N))).toNat = _
      rw [slotPtr_ofNat hg hf, hR.sim.mem.seq _ (Nat.mod_lt _ hg.pos), Nat.add_mod_right, hseq]
    have hd : (segOps cfg).diff (UInt64.ofNat p) (UInt64.ofNat (p + cfg.N)) < 0 := by
      show ((UInt64.ofNat p).toInt64 - (UInt64.ofNat (p + cfg.N)).toInt64).toInt < 0
      have hlap : ((p + cfg.N : Nat) : Int) = p + cfg.N := Int.natCast_add ..
      rw [toInt64_sub (by omega) (by omega), hlap]
      omega
    have hstep : ringStep (segOps cfg) s (.push j spurious) = some ({ s with
        push := Function.update s.push j (.done (.error .full)) }, [.push j .full]) := by
      simp only [ringStep, hj, fullProgress, (PushTrans.full hl hd).step]
      rfl
    exact ⟨_, _, hstep, by simp [fullProgress], rfl⟩

/-- So it ends with `Full` at its second step, whatever the others do meanwhile. -/
theorem full_run (hg : cfg.Admitted) (hf : cfg.Fits) (hN : 2 ≤ cfg.N) (h : Stalled cfg i p s log)
    (hfull : (reserves log).length = p + cfg.N) {d : List UInt8}
    (hj : s.push j = .loadTail d) {as : List (RingAction ι)} {s' : RingState ι UInt64 Memory}
    {log' : List (RingEvent ι UInt64)}
    (hrun : (ringMachine ι (segOps cfg)).Run (othersAfter cfg i j) s log as s' log') :
    Stalled cfg i p s' log' ∧ (reserves log').length = p + cfg.N ∧
      s'.push j = fullProgress d (p + cfg.N) (stepsOf j as) := by
  induction hrun with
  | nil => exact ⟨h, hfull, hj⟩
  | @snoc as s1 log1 a s2 ev _ hG hs ih =>
    obtain ⟨hst, hres, hpc⟩ := ih
    have hst' := hst.step hg hf hN hG.1 hs
    have hres' : (reserves (log1 ++ ev)).length = p + cfg.N := by
      have hle := hst'.reserves_le
      rw [reserves_append, List.length_append] at hle ⊢
      omega
    refine ⟨hst', hres', ?_⟩
    have happend : stepsOf j (as ++ [a]) = stepsOf j as + stepsOf j [a] := List.countP_append
    rw [happend]
    by_cases ha : ∃ spurious, a = .push j spurious
    · obtain ⟨spurious, rfl⟩ := ha
      have hone : stepsOf j [RingAction.push j spurious] = 1 := by simp [stepsOf]
      have hlt : stepsOf j as < 2 := by
        -- a push that is over makes no step
        by_contra hge
        obtain ⟨k, hk⟩ := Nat.exists_eq_add_of_le' (Nat.not_lt.mp hge)
        rw [hk] at hpc
        have hnone : ringStep (segOps cfg) s1 (.push j spurious) = none := by
          simp only [ringStep, hpc, fullProgress]
          rfl
        cases hnone.symm.trans hs
      obtain ⟨s₃, ev₃, hs₃, hpc₃, _⟩ := hst.full_step hg hf hres hlt hpc spurious
      obtain ⟨rfl, rfl⟩ := Prod.mk.inj (Option.some.inj (hs.symm.trans hs₃))
      rw [hone]
      exact hpc₃
    · have hzero : stepsOf j [a] = 0 := by
        cases a with
        | push k sp =>
          have hkj : k ≠ j := by
            rintro rfl
            exact ha ⟨sp, rfl⟩
          simp [stepsOf, hkj]
        | _ => simp [stepsOf]
      rw [hzero, Nat.add_zero, ← hpc]
      exact ringStep_push_of_ne hs (fun sp heq => ha ⟨sp, heq⟩) hG.2

end Stalled

/-- A producer that stops between its CAS and its publishing store, at position `p`, does bounded
damage: the others reserve no more than `num_slots` positions from there, the consumer takes all
that is published below and nothing else, and once the ring is full a push writes nothing and has
its `Full` after two steps, which are always possible. -/
theorem stalled_producer (hN : 2 ≤ cfg.N) {as : List (RingAction ι)}
    {s₀ : RingState ι UInt64 Memory} {log₀ : List (RingEvent ι UInt64)}
    (h : InitRun cfg (windowed (2 ^ 63 - cfg.N)) as s₀ log₀) {i : ι}
    (hwin : windowed (2 ^ 63 - cfg.N) s₀ log₀ (.push i false)) {data : List UInt8} {pos : UInt64}
    {s₁ : RingState ι UInt64 Memory}
    (hcas : ringStep (segOps cfg) s₀ (.push i false) = some (s₁, [.push i (.reserve data pos)]))
    {bs : List (RingAction ι)} {s : RingState ι UInt64 Memory} {log : List (RingEvent ι UInt64)}
    (hrun : (ringMachine ι (segOps cfg)).Run (othersWithin cfg i) s₁
      (log₀ ++ [.push i (.reserve data pos)]) bs s log) {p : Nat}
        (hp : p = (reserves log₀).length) :
    pos = UInt64.ofNat p ∧
    ((reserves log).length ≤ p + cfg.N ∧
      s.mem.load64 0 = some (UInt64.ofNat (reserves log).length)) ∧
    (∀ (k : Nat) q out, (pops log)[k]? = some (q, out) → k < p ∧ q = UInt64.ofNat k ∧
      ∃ j d, (reserves log)[k]? = some (j, d, q) ∧ (d.length < 2 ^ 32 → out = d)) ∧
    (∀ out head, s.pop = .loadSeq out head → PublishedAt cfg log (pops log).length →
      ringStep (segOps cfg) s .pop = some ({ s with pop := .readLen out head }, [])) ∧
    (∀ q, s.pop.taking = some q → q = UInt64.ofNat (pops log).length ∧
      ∃ s' ev, ringStep (segOps cfg) s .pop = some (s', ev) ∧ s'.pop.left < s.pop.left ∧
        (s'.pop.taking = some q ∨
          ∃ out, s'.pop = .done (some q) out ∧ ev = [.pop (.some q out)])) ∧
    (s.pop.ready = true → ∀ k,
      (∀ q, (pops log).length ≤ q → q < k → PublishedAt cfg log q) →
      ∃ cs s' log', (∀ a ∈ cs, a = .pop ∨ ∃ out, a = .popCall out) ∧
        (ringMachine ι (segOps cfg)).Run (othersWithin cfg i) s log cs s' log' ∧
        k ≤ (pops log').length) ∧
    ((reserves log).length = p + cfg.N → ∀ j d s', d.length ≤ cfg.maxLen.toNat →
      ringStep (segOps cfg) s (.call j d) = some (s', [.call j d]) →
      ∀ cs s'' log'', (ringMachine ι (segOps cfg)).Run (othersAfter cfg i j) s'
          (log ++ [.call j d]) cs s'' log'' →
        s''.push j = fullProgress d (p + cfg.N) (stepsOf j cs) ∧
          (stepsOf j cs < 2 → ∀ spurious, ∃ s₃ ev,
            ringStep (segOps cfg) s'' (.push j spurious) = some (s₃, ev) ∧ s₃.mem = s''.mem)) := by
  subst hp
  have hg := h.admitted
  have hf := h.fits
  obtain ⟨u₀, ulog₀, hR₀, ht₀⟩ := h.timely hN
  obtain ⟨rfl, hst₁⟩ := Stalled.of_cas hg hf hN hR₀ ht₀ hwin hcas
  have hst := hst₁.run hg hf hN hrun
  obtain ⟨u, ulog, _, hR, ht, _⟩ := id hst
  refine ⟨rfl, ⟨hst.reserves_le, ?_⟩, fun k q out hk => hst.popped_lt hk, ?_, ?_, ?_, ?_⟩
  · rw [hR.reserves_length]
    exact hR.sim.mem.tail
  · intro out head hpop hpub
    obtain ⟨_, hyes, _⟩ := hR.seqLoad hg hf hN hpop
    exact hyes ((hR.publishedAt_iff hg ht).mp hpub)
  · exact fun q hq => ⟨hR.taking_eq hq, hR.takes hg hf hN hq⟩
  · intro hready k hpub
    obtain ⟨cs, s', log', hcs, hrun', hle⟩ := hst.pops_on hg hf hN hready hpub
    exact ⟨cs, s', log', hcs, hrun'.of_forall fun a ha => othersWithin_of_pop (hcs a ha), hle⟩
  · intro hfull j d s' hd hcall cs s'' log'' hrun'
    have hst' :=
      hst.step hg hf hN (a := .call j d) ⟨by simp [others], by simp [ShmMpsc.windowed]⟩ hcall
    have hfull' : (reserves (log ++ [RingEvent.call j d])).length =
        (reserves log₀).length + cfg.N := by
      have hone : reserves [(RingEvent.call j d : RingEvent ι UInt64)] = [] := rfl
      rw [reserves_append, hone, List.append_nil, hfull]
    have hj : s'.push j = .loadTail d := by
      cases ringTrans_of_step hcall
      simp [pushCall, segOps, Nat.not_lt.mpr hd]
    obtain ⟨hst'', hres'', hpc⟩ := hst'.full_run hg hf hN hfull' hj hrun'
    refine ⟨hpc, fun hlt spurious => ?_⟩
    obtain ⟨s₃, ev, hs₃, _, hmem⟩ := hst''.full_step hg hf hres'' hlt hpc spurious
    exact ⟨s₃, ev, hs₃, hmem⟩

/-- Position 0 is published, and another producer is about to reserve position 1. -/
def beforeCas : List (RingAction Bool) :=
  .call false [8] :: List.replicate 6 (.push false false) ++
    .call true [7] :: List.replicate 2 (.push true false)

/-- The consumer takes position 0, position 2 is published, and there is nothing more to take. -/
def afterCas : List (RingAction Bool) :=
  .popCall [] :: List.replicate 6 .pop ++
    .call false [9] :: List.replicate 6 (.push false false) ++ .popCall [] :: List.replicate 2 .pop

/-- Everybody but the first producer steps, long before any wrap, and maybe calls. -/
def beforeWrap (calls : Bool) (_ : RingState Bool UInt64 Memory)
    (log : List (RingEvent Bool UInt64)) : RingAction Bool → Bool
  | .push i _ => !i && (reserves log).length < 10
  | .call _ _ => calls
  | _ => true

theorem within_of_beforeWrap {calls : Bool} {s : RingState Bool UInt64 Memory}
    {log : List (RingEvent Bool UInt64)} {a : RingAction Bool}
    (ha : beforeWrap calls s log a = true) : othersWithin tiny true s log a := by
  constructor
  · rintro spurious rfl
    simp [beforeWrap] at ha
  · rintro j spurious rfl _
    simp only [beforeWrap, Bool.and_eq_true, decide_eq_true_eq] at ha
    have hle := reservedSince_le j log
    have hN : tiny.N = 2 := rfl
    omega

theorem stall_exec : (execInit tiny blank beforeCas).bind (fun c₀ =>
    (ringStep (segOps tiny) c₀.1 (.push true false)).bind fun r₁ =>
    ((ringMachine Bool (segOps tiny)).execWith (beforeWrap true) (r₁.1, c₀.2 ++ r₁.2)
      afterCas).bind fun c =>
    (ringStep (segOps tiny) c.1 (.call false [10])).bind fun r =>
    ((ringMachine Bool (segOps tiny)).execWith (beforeWrap false) (r.1, c.2 ++ r.2)
      (List.replicate 2 (.push false false))).map fun _ =>
    decide ((reserves c₀.2).length = 1 ∧ r₁.2 = [.push true (.reserve [7] 1)] ∧
      r.2 = [.call false [10]] ∧ pops c.2 = [(0, [8])] ∧ (reserves c.2).length = 1 + tiny.N)) =
      some true := by
  decide +kernel

theorem stalled_producer_tiny : ∃ s₀ log₀ s₁ s log s' s'' log'',
    InitRun tiny (windowed (2 ^ 63 - tiny.N)) beforeCas s₀ log₀ ∧
    ringStep (segOps tiny) s₀ (.push true false) = some (s₁, [.push true (.reserve [7] 1)]) ∧
    (ringMachine Bool (segOps tiny)).Run (othersWithin tiny true) s₁
      (log₀ ++ [.push true (.reserve [7] 1)]) afterCas s log ∧
    pops log = [(0, [8])] ∧ (reserves log).length = 1 + tiny.N ∧
    ringStep (segOps tiny) s (.call false [10]) = some (s', [.call false [10]]) ∧
    (ringMachine Bool (segOps tiny)).Run (othersAfter tiny true false) s'
      (log ++ [.call false [10]]) (List.replicate 2 (.push false false)) s'' log'' ∧
    s''.push false = .done (.error .full) := by
  obtain ⟨⟨s₀, log₀⟩, h₀, hrest⟩ := Option.bind_eq_some_iff.mp stall_exec
  obtain ⟨⟨s₁, ev₁⟩, hcas, hrest⟩ := Option.bind_eq_some_iff.mp hrest
  obtain ⟨⟨s, log⟩, hexec, hrest⟩ := Option.bind_eq_some_iff.mp hrest
  obtain ⟨⟨s', ev⟩, hcall, hrest⟩ := Option.bind_eq_some_iff.mp hrest
  obtain ⟨⟨s'', log''⟩, hexec', hd⟩ := Option.map_eq_some_iff.mp hrest
  obtain ⟨hres₀, hev₁, hev, hpops, hres⟩ := of_decide_eq_true hd
  subst hev₁ hev
  have hfree : InitRun tiny Machine.free beforeCas s₀ log₀ := initRun_of_execInit rfl h₀
  have hlate : ∀ s log a, beforeWrap false s log a = true →
      othersAfter tiny true false s log a := by
    intro s log a ha
    refine ⟨within_of_beforeWrap ha, ?_⟩
    rintro d rfl
    cases ha
  have hrun := Machine.run_of_execWith (fun _ _ _ => within_of_beforeWrap) hexec
  have hrun' := Machine.run_of_execWith hlate hexec'
  have hbound : (reserves log₀).length < 2 ^ 63 - tiny.N := by
    have hone : (reserves log₀).length = 1 := hres₀
    rw [hone]
    decide
  have hwin : windowed (2 ^ 63 - tiny.N) s₀ log₀ (.push true false) := fun j _ _ _ =>
    Nat.lt_of_le_of_lt (reservedSince_le j log₀) hbound
  have hinit := hfree.windowed_of_bound hbound
  obtain ⟨_, _, _, _, _, _, hfull⟩ := stalled_producer (by decide) hinit hwin hcas hrun hres₀.symm
  obtain ⟨hdone, _⟩ := hfull hres false [10] s' (by decide) hcall _ _ _ hrun'
  exact ⟨s₀, log₀, s₁, s, log, s', s'', log'', hinit, hcas, hrun, hpops, hres, hcall, hrun', hdone⟩

/-! ### Counters that wrap under a stale CAS -/

section Wrapped

/-- One producer stays before its CAS while another one fills two laps of 2^64, and a third
one stalls. -/
inductive Party where
  | stale
  | worker
  | stalled
  deriving DecidableEq

/-- After `n` messages pushed and popped, with the stale CAS on position 0 still ahead. -/
def Cycled (n : Nat) (s : RingState Party UInt64 Memory) (log : List (RingEvent Party UInt64)) :
    Prop :=
  ∃ u ulog, Refines tiny s log u ulog ∧ u.push .stale = .cas [9] 0 ∧
    (u.push .worker).ready = true ∧ (u.push .stalled).ready = true ∧ u.pop.ready = true ∧
    u.mem.tail = n ∧ u.mem.head = n

theorem tiny_admitted : tiny.Admitted := check_iff.mp (by decide)

theorem tiny_fits : tiny.Fits := by
  unfold Fits
  decide

theorem cycled_zero : ∃ as s log, InitRun tiny Machine.free as s log ∧ Cycled 0 s log := by
  obtain ⟨m0, hi⟩ := init_isSome tiny_admitted tiny_fits (m := blank) rfl
  obtain ⟨len, payload, hR⟩ := refines_init (ι := Party) rfl hi
  have hlen : ([9] : List UInt8).length ≤ tiny.S - 20 := by decide
  obtain ⟨n, s, hrun, hR'⟩ := hR.callPath tiny_admitted tiny_fits (by decide) (i := .stale) rfl
    hlen (cas_path rfl)
  exact ⟨_, s, _, ⟨blank, m0, rfl, hi, hrun⟩, _, _, hR', rfl, rfl, rfl, rfl, rfl, rfl⟩

theorem cycled_succ {n : Nat} {s : RingState Party UInt64 Memory}
    {log : List (RingEvent Party UInt64)} (h : Cycled n s log) :
    ∃ as s' log', (ringMachine Party (segOps tiny)).Run Machine.free s log as s' log' ∧
      Cycled (n + 1) s' log' := by
  obtain ⟨u, ulog, hR, hstale, hworker, hstalled, hpop, htail, hhead⟩ := h
  have hfreed := freed_of_ready hpop
  have hN : tiny.N = 2 := rfl
  have hlen : ([] : List UInt8).length ≤ tiny.S - 20 := by decide
  obtain ⟨k, s1, hrun1, hR1⟩ := hR.soloPush tiny_admitted tiny_fits (by decide) hworker
    (by omega) hlen
  have hpub : Published (ulog ++ [.call .worker [], .push .worker .tailLoad,
      .push .worker (.reserve [] u.mem.tail), .push .worker (.publish u.mem.tail)]) u.mem.head := by
    rw [hhead, ← htail]
    exact published_append.mpr (.inr ⟨.worker, by simp⟩)
  obtain ⟨k', s2, hrun2, hR2⟩ := hR1.soloPop tiny_admitted tiny_fits (by decide) hpop hpub []
  refine ⟨_, s2, _, hrun1.trans hrun2, _, _, hR2, ?_, ?_, ?_, rfl, ?_, ?_⟩
  · simpa using hstale
  · simp
    rfl
  · simpa using hstalled
  · show u.mem.tail + 1 = n + 1
    rw [htail]
  · show u.mem.head + 1 = n + 1
    rw [hhead]

theorem cycled (n : Nat) : ∃ as s log, InitRun tiny Machine.free as s log ∧ Cycled n s log := by
  induction n with
  | zero => exact cycled_zero
  | succ n ih =>
    obtain ⟨as, s, log, ⟨m, m0, hm, hi, hrun⟩, hc⟩ := ih
    obtain ⟨bs, s', log', hrun', hc'⟩ := cycled_succ hc
    exact ⟨_, s', log', ⟨m, m0, hm, hi, hrun.trans hrun'⟩, hc'⟩

/-- The last position but one before the wrap. -/
def lastButOne : Nat := 2 ^ 64 - 2

/-- The ring full at the wrap: the worker's message is published at the last position but one,
the stalled producer has reserved the last one, and the stale CAS expects what the tail cell
shows again. -/
theorem full_at_wrap : ∃ as s log, ∃ u : RingState Party Nat UMem, ∃ ulog,
    InitRun tiny Machine.free as s log ∧
    Refines tiny s log u ulog ∧ (u.push .stalled).writing = some ([], lastButOne + 1) ∧
    u.push .stale = .cas [9] 0 ∧ u.pop.ready = true ∧ u.mem.tail = 2 ^ 64 ∧
    u.mem.head = lastButOne ∧ u.mem.seq 0 = lastButOne + 1 ∧ Published ulog lastButOne ∧
    (reserves ulog)[lastButOne]? = some (.worker, [1], lastButOne) := by
  have hN : tiny.N = 2 := rfl
  have hlast : lastButOne = 18446744073709551614 := by decide
  obtain ⟨as, s, log, ⟨m, m0, hm, hi, hrun⟩, u, ulog, hR, hstale, hworker, hstalled, hpop, htail,
    hhead⟩ := cycled lastButOne
  have hfreed := freed_of_ready hpop
  have hlen : ([1] : List UInt8).length ≤ tiny.S - 20 := by decide
  have hlen0 : ([] : List UInt8).length ≤ tiny.S - 20 := by decide
  obtain ⟨k, s1, hrun1, hR1⟩ := hR.soloPush tiny_admitted tiny_fits (by decide) hworker
    (by omega) hlen
  have hroom : u.mem.tail + 1 < freed u + tiny.N := by omega
  have hseq : (u.mem.pushed tiny.N [1]).seq ((u.mem.tail + 1) % tiny.N) = u.mem.tail + 1 :=
    hR1.inv.seq_tail hroom
  -- the stalled producer gets as far as its CAS
  obtain ⟨k', s2, hrun2, hR2⟩ := hR1.callPath tiny_admitted tiny_fits (by decide) (i := .stalled)
    (by simpa using hstalled) hlen0 (reserve_path hseq)
  refine ⟨_, s2, _, _, _, ⟨m, m0, hm, hi, (hrun.trans hrun1).trans hrun2⟩, hR2, ?_, ?_, hpop, ?_,
    ?_, ?_, ?_, ?_⟩
  · simp only [Function.update_self, PushPc.writing]
    show some ([], u.mem.tail + 1) = _
    rw [htail]
  · simpa using hstale
  · show u.mem.tail + 1 + 1 = 2 ^ 64
    omega
  · exact hhead
  · show Function.update u.mem.seq (u.mem.tail % 2) (u.mem.tail + 1) 0 = lastButOne + 1
    have hslot : u.mem.tail % 2 = 0 := by omega
    rw [hslot, Function.update_self, htail]
  · rw [published_append, published_append]
    exact .inl (.inr ⟨.worker, by simp [htail]⟩)
  · have hres : (reserves ulog).length = lastButOne := by rw [hR.inv.tail_eq, htail]
    rw [reserves_append, reserves_append, List.append_assoc, List.getElem?_append_right (by omega),
      hres, Nat.sub_self]
    simp [reserves, htail]

/-- What the stale producer leaves behind before its publishing store. -/
def overwritten (u : UMem) : UMem :=
  { u with
    tail := 2 ^ 64 + 1
    len := Function.update u.len (2 ^ 64 % 2) 1
    payload := Function.update u.payload (2 ^ 64 % 2) fun j =>
      [9][j]?.getD (u.payload (2 ^ 64 % 2) j) }

theorem stale_path {u : UMem} (htail : u.tail = 2 ^ 64) :
    PushPath (unbounded tiny) (PushNear tiny) (.cas [9] (2 ^ 64)) u [.reserve [9] (2 ^ 64)]
      (.publish [9] (2 ^ 64)) (overwritten u) := by
  have hcas : PushNear tiny u (.cas [9] (2 ^ 64)) := ⟨by omega, by omega⟩
  have hpay : ([9] : List UInt8).length ≤ tiny.S - 16 := by decide
  exact .cons hcas (.won rfl (if_pos htail)) (.cons trivial (.writeLen rfl)
    (.cons hpay (.writePayload rfl) .nil))

theorem overwritten_path {u : UMem} (hhead : u.head = lastButOne) (hseq : u.seq 0 = lastButOne + 1)
    (out : List UInt8) : PopPath (unbounded tiny) (PopNear tiny) (.loadHead out) (overwritten u)
      [.release u.head, .some u.head [9]] (.done (some u.head) [9])
      ((overwritten u).popped tiny.N) := by
  have hslot : u.head % tiny.N = 0 := by rw [hhead]; decide
  have hhead' : (overwritten u).head = u.head := rfl
  have hbytes : headBytes tiny (overwritten u) = [9] := by
    rw [headBytes, hhead', hslot]
    rfl
  rw [← hbytes]
  refine soloPop_path ?_ ?_
  · rw [hhead', hslot]
    show (1 : UInt32).toNat ≤ tiny.S - 16
    decide
  · show u.seq (u.head % tiny.N) = u.head + 1
    rw [hslot, hseq, hhead]

/-- Then the stale producer's CAS succeeds and it writes into the slot of the worker's message:
the consumer pops that position with other bytes than were pushed there. -/
theorem popped_after_wrap : ∃ as s₁ log₁ bs s log,
    InitRun tiny Machine.free as s₁ log₁ ∧
    (s₁.push .stalled).writing = some ([], 18446744073709551615) ∧
    Published log₁ 18446744073709551614 ∧
    (ringMachine Party (segOps tiny)).Run (others .stalled) s₁ log₁ bs s log ∧
    (reserves log)[18446744073709551614]? = some (.worker, [1], 18446744073709551614) ∧
    (pops log)[18446744073709551614]? = some (18446744073709551614, [9]) := by
  obtain ⟨as, s, log, u, ulog, hrun, hR, hw, hstale, hpop, htail, hhead, hseq, hpub, hres⟩ :=
    full_at_wrap
  have hlast : lastButOne = 18446744073709551614 := by decide
  have h64 : UInt64.ofNat lastButOne = 18446744073709551614 := by decide
  obtain ⟨m1, hm1, hp1⟩ := (stale_path htail).sim tiny_admitted tiny_fits s.mem hR.sim.mem
  obtain ⟨m2, hm2, hp2⟩ := (overwritten_path hhead hseq []).sim tiny_admitted tiny_fits m1 hm1
  obtain ⟨k1, hrun1⟩ := hp1.run (G := others .stalled) (i := .stale) (by simp [others]) s log
    (by rw [hR.sim.push, hstale]; rfl) rfl
  have hready : s.pop.ready = true := by rw [hR.sim.pop, PopPc.ready_map, hpop]
  obtain ⟨k2, hrun2⟩ := hp2.callRun (G := others Party.stalled) (by simp [others])
    (by simp [others])
    (s := { mem := m1, push := Function.update s.push .stale (.publish [9] 0), pop := s.pop })
    (log ++ [.push .stale (.reserve [9] 0)]) hready rfl
  refine ⟨as, s, log, _, _, _, hrun, ?_, ?_, hrun1.trans hrun2, ?_, ?_⟩
  · rw [hR.writing_eq, hw]
    rfl
  · rw [← h64, hR.log_eq, published_map]
    exact ⟨_, rfl, hpub⟩
  · have hres' : (reserves log)[lastButOne]? = some (.worker, [1], UInt64.ofNat lastButOne) := by
      rw [hR.reserves_eq, List.getElem?_map, hres]
      rfl
    rw [← hlast, ← h64]
    simp only [List.append_assoc]
    exact reserves_getElem_append hres'
  · have hlen : (pops log).length = lastButOne := by rw [hR.pops_length, hhead]
    rw [← hlast, ← h64]
    simp only [List.append_assoc, pops_append]
    rw [List.getElem?_append_right (by omega), hlen, Nat.sub_self]
    simp [pops, PopEvent.map, hhead]

/-- A message of 2^32 bytes below a stalled position comes back empty. -/
theorem long_message_cut (d : List UInt8) (hd : d.length = 2 ^ 32) : ∃ as s₁ log₁ bs s log,
    InitRun large Machine.free as s₁ log₁ ∧ (s₁.push .stalled).writing = some ([], 1) ∧
    Published log₁ 0 ∧
    (ringMachine Party (segOps large)).Run (others .stalled) s₁ log₁ bs s log ∧
    (reserves log)[0]? = some (.worker, d, 0) ∧ (pops log)[0]? = some (0, []) := by
  have hg : large.Admitted := check_iff.mp (by decide)
  have hf : large.Fits := by
    unfold Fits
    decide
  have hN : large.N = 2 := rfl
  have hS : large.S = 4294967320 := rfl
  obtain ⟨m0, hi⟩ := init_isSome hg hf
    (m := { size := large.total.toNat, byte := fun _ => 0, size_lt := by decide }) rfl
  obtain ⟨len, payload, hR⟩ := refines_init (ι := Party) rfl hi
  have hlen : d.length ≤ large.S - 20 := by omega
  obtain ⟨k, s1, hrun1, hR1⟩ := hR.soloPush hg hf (by decide) (i := .worker) rfl
    (show 0 < 0 + large.N by omega) hlen
  have hroom : 0 + 1 < 0 + large.N := by omega
  have hlen0 : ([] : List UInt8).length ≤ large.S - 20 := Nat.zero_le _
  obtain ⟨k', s2, hrun2, hR2⟩ := hR1.callPath hg hf (by decide) (i := .stalled) rfl hlen0
    (reserve_path (hR1.inv.seq_tail hroom))
  have hpub : ∀ l : List (RingEvent Party Nat), Published (([] ++ [.call .worker d,
      .push .worker .tailLoad, .push .worker (.reserve d 0), .push .worker (.publish 0)]) ++ l) 0 :=
    fun l => published_append.mpr (.inl ⟨.worker, by simp⟩)
  obtain ⟨k'', s3, hrun3, hR3⟩ := hR2.soloPop hg hf (by decide) rfl (hpub _) []
  have hothers : ∀ a ∈ RingAction.popCall [] :: List.replicate k'' RingAction.pop, ∀ s log,
      others (W := UInt64) (M := Memory) Party.stalled s log a := by
    intro a ha s log
    rcases List.mem_cons.mp ha with rfl | ha
    · simp [others]
    · simp [others, List.eq_of_mem_replicate ha]
  refine ⟨_, s2, _, _, s3, _, ⟨_, m0, rfl, hi, hrun1.trans hrun2⟩, ?_, ?_,
    hrun3.of_forall hothers, ?_, ?_⟩
  · rw [hR2.writing_eq]
    simp only [Function.update_self, PushPc.writing]
    rfl
  · rw [hR2.log_eq, published_map]
    exact ⟨0, rfl, hpub _⟩
  · rw [List.append_assoc]
    exact reserves_getElem_append rfl
  · have hcut : UInt32.ofNat d.length = 0 := by
      rw [hd]
      decide
    have hbytes : headBytes large
        (UMem.pushed large.N (UMem.start large.N len payload) d) = [] := by
      show (List.range (UInt32.ofNat d.length).toNat).map _ = []
      rw [hcut]
      rfl
    exact congrArg (fun bytes => some ((0 : UInt64), bytes)) hbytes

/-- Neither the wrap nor the 32-bit length leaves the popped bytes alone. -/
theorem stalled_producer_wrapped :
    (∃ as s₁ log₁ bs s log,
      InitRun tiny Machine.free as s₁ log₁ ∧
      (s₁.push .stalled).writing = some ([], 18446744073709551615) ∧
      Published log₁ 18446744073709551614 ∧
      (ringMachine Party (segOps tiny)).Run (others .stalled) s₁ log₁ bs s log ∧
      (reserves log)[18446744073709551614]? = some (.worker, [1], 18446744073709551614) ∧
      (pops log)[18446744073709551614]? = some (18446744073709551614, [9])) ∧
    (∃ d : List UInt8, d.length = 2 ^ 32 ∧ ∃ as s₁ log₁ bs s log,
      InitRun large Machine.free as s₁ log₁ ∧ (s₁.push .stalled).writing = some ([], 1) ∧
      Published log₁ 0 ∧
      (ringMachine Party (segOps large)).Run (others .stalled) s₁ log₁ bs s log ∧
      (reserves log)[0]? = some (.worker, d, 0) ∧ (pops log)[0]? = some (0, [])) :=
  ⟨popped_after_wrap, List.replicate (2 ^ 32) 0, List.length_replicate,
    long_message_cut _ List.length_replicate⟩

end Wrapped

end ShmMpsc
