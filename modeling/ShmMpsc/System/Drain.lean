import ShmMpsc.System.Accounting

/-!
# The drain counter

`consumer_loop` counts in a `u32` what one uninterrupted run of its inner loop pops, and parks
after a run that has counted nothing.
-/

namespace ShmMpsc

set_option autoImplicit false

open RingConfig

variable {ι C W M : Type}

def Site.counter : Site → Option UInt32
  | .drain d => some d
  | .recheck => none

/-- The counter, inside the inner loop. -/
def ConsumerPc.counter : ConsumerPc → Option UInt32
  | .drain d => some d
  | .addEvents site | .addWire site | .decode site => site.counter
  | _ => none

def inDrain : Machine.Guard (System ι C W M) (SysAction ι) (SysEvent ι W) :=
  fun s _ _ => s.consumer.pc.counter.isSome = true

section Burst

variable [DecidableEq ι] [DecidableEq W] {cfg : RingConfig} {codec : Codec C} {mm : MemModel ι W M}
  {jobs : ι → Job} {as : List (SysAction ι)} {s s' : System ι C W M}
  {log log' ev : List (SysEvent ι W)}
  {G : Machine.Guard (System ι C W M) (SysAction ι) (SysEvent ι W)} {a : SysAction ι}
  {d : UInt32} {m : Nat}

/-- In a debug build `drained += 1` panics where it does not fit. -/
def noPanic (cfg : RingConfig) (codec : Codec C) (mm : MemModel ι W M) (jobs : ι → Job) :
    Machine.Guard (System ι C W M) (SysAction ι) (SysEvent ι W) :=
  fun s _ a => ∀ s' ev, sysStep cfg codec mm jobs s a = some (s', ev) → ∀ d,
    s.consumer.pc = .drain d → s'.consumer.pc = .addEvents (.drain (d + 1)) → d.toNat + 1 < 2 ^ 32

/-- From `s` the consumer enters its inner loop; there it pops `m` messages, while `as` happens;
and with the step to `s'` it is out again. -/
def Burst (cfg : RingConfig) (codec : Codec C) (mm : MemModel ι W M) (jobs : ι → Job)
    (G : Machine.Guard (System ι C W M) (SysAction ι) (SysEvent ι W)) (s : System ι C W M)
    (log : List (SysEvent ι W)) (as : List (SysAction ι)) (m : Nat) (s' : System ι C W M)
    (log' : List (SysEvent ι W)) : Prop :=
  ∃ s1 ev s2 log2 ev', s.consumer.pc = .stop ∧ sysStep cfg codec mm jobs s .consumer =
    some (s1, ev) ∧
    s1.consumer.pc = .drain 0 ∧
    (sysMachine cfg codec mm jobs).Run (fun s l a => inDrain s l a ∧ G s l a) s1
      (log ++ ev) as s2 log2 ∧
    s2.consumer.pc.counter.isSome = true ∧
    sysStep cfg codec mm jobs s2 .consumer = some (s', ev') ∧ s'.consumer.pc.counter = none ∧
    log' = log2 ++ ev' ∧ (popped log').length = (popped log).length + m

/-! ### What the counter counts -/

/-- A step inside the inner loop counts the message it pops, or pops none. -/
theorem counter_step (hs : sysStep cfg codec mm jobs s a = some (s', ev))
    (hd : s.consumer.pc.counter = some d) :
    ((popped ev).length = 1 ∧ s.consumer.pc = .drain d ∧
      s'.consumer.pc = .addEvents (.drain (d + 1))) ∨
    popped ev = [] ∧ (s'.consumer.pc.counter = some d ∨
      s'.consumer.pc = if d = 0 then .storeParked else .stop) := by
  cases sysTrans_of_step hs with
  | @producer j now spurious p push m _ ht => exact .inr ⟨ht.popped, .inl hd⟩
  | @serve j p token calls _ hp =>
    refine .inr ⟨?_, .inl hd⟩
    cases hp <;> rfl
  | send | drop | commit | stop => exact .inr ⟨rfl, .inl hd⟩
  | @consumer c pop m _ ht =>
    have hno : ∀ {pc}, s.consumer.pc = pc → pc.counter = none → False := by
      rintro pc rfl hnone
      rw [hnone] at hd
      cases hd
    cases ht with
    | @drain drained _ _ pev hpc hr =>
      rw [hpc] at hd
      obtain rfl : drained = d := Option.some.inj hd
      rcases hr.popped (ι := ι) with ⟨head, out, rfl, hp⟩ | ⟨hne, hp⟩
      · exact .inl ⟨by rw [hp]; rfl, hpc, rfl⟩
      · refine .inr ⟨hp, ?_⟩
        have hpc' : (afterPop (.addEvents (.drain (drained + 1)))
            (if drained = 0 then .storeParked else .stop) s.consumer pop).pc = .drain drained ∨
            (afterPop (.addEvents (.drain (drained + 1)))
              (if drained = 0 then .storeParked else .stop) s.consumer pop).pc =
              if drained = 0 then .storeParked else .stop := by
          unfold afterPop
          split
          · exact absurd rfl (hne _ _)
          · exact .inr rfl
          · exact .inl hpc
        rcases hpc' with h | h
        · exact .inl (congrArg ConsumerPc.counter h)
        · exact .inr h
    | addEvents hpc =>
      rw [hpc] at hd
      exact .inr ⟨rfl, .inl hd⟩
    | addWire hpc =>
      rw [hpc] at hd
      exact .inr ⟨rfl, .inl hd⟩
    | decodeDrain hpc =>
      rw [hpc] at hd
      exact .inr ⟨rfl, .inl hd⟩
    | halt hpc | top hpc | storeParked hpc | recheck hpc | storeRunningHit hpc | decodeRecheck hpc
    | unparked hpc | storeRunning hpc =>
      exact (hno hpc rfl).elim

/-- What holds of no messages and zero, and goes over to one more of both, holds of the messages
popped and the counter. -/
theorem counter_run_of {R : Nat → UInt32 → Prop} (hzero : R 0 0)
    (hsucc : ∀ s log a s' ev d k, G s log a → sysStep cfg codec mm jobs s a = some (s', ev) →
      s.consumer.pc = .drain d → s'.consumer.pc = .addEvents (.drain (d + 1)) → R k d →
        R (k + 1) (d + 1))
    {n : Nat}
    (hr : (sysMachine cfg codec mm jobs).Run (fun s l a => inDrain s l a ∧ G s l a) s log as
      s' log')
    (h0 : s.consumer.pc.counter = some 0) (hn : (popped log).length = n) :
    ∃ k, (popped log').length = n + k ∧ ∀ d, s'.consumer.pc.counter = some d → R k d := by
  refine hr.invariant (I := fun s log => ∃ k, (popped log).length = n + k ∧
    ∀ d, s.consumer.pc.counter = some d → R k d) ⟨0, hn, ?_⟩ ?_
  · intro d hd
    rw [h0] at hd
    exact Option.some.inj hd ▸ hzero
  · intro s log a s' ev hI hG hs
    obtain ⟨k, hk, hI⟩ := hI
    obtain ⟨d, hd⟩ := Option.isSome_iff_exists.mp hG.1
    have hdk := hI d hd
    rw [popped_append, List.length_append, hk]
    rcases counter_step hs hd with ⟨hone, hpc, hpc'⟩ | ⟨hnone, hkeep | hexit⟩
    · refine ⟨k + 1, by omega, fun d' hd' => ?_⟩
      have hnext := hsucc s log a s' ev d k hG.2 hs hpc hpc' hdk
      rw [hpc'] at hd'
      exact Option.some.inj hd' ▸ hnext
    · refine ⟨k, by rw [hnone, List.length_nil, Nat.add_zero], fun d' hd' => ?_⟩
      rw [hkeep] at hd'
      exact Option.some.inj hd' ▸ hdk
    · refine ⟨k, by rw [hnone, List.length_nil, Nat.add_zero], fun d' hd' => ?_⟩
      rw [hexit] at hd'
      split at hd' <;> cases hd'

theorem counter_run {n : Nat} (hr : (sysMachine cfg codec mm jobs).Run
      (fun s l a => inDrain s l a ∧ G s l a) s log as s' log')
    (h0 : s.consumer.pc.counter = some 0) (hn : (popped log).length = n) :
    ∃ k, (popped log').length = n + k ∧ ∀ d, s'.consumer.pc.counter = some d →
      d = UInt32.ofNat k := by
  refine counter_run_of (R := fun k d => d = UInt32.ofNat k) rfl ?_ hr h0 hn
  intro s log a s' ev d k _ _ _ _ hdk
  rw [hdk, UInt32.ofNat_add]
  rfl

theorem counter_run_noPanic {n : Nat} (hr : (sysMachine cfg codec mm jobs).Run
      (fun s l a => inDrain s l a ∧ noPanic cfg codec mm jobs s l a) s log as s' log')
    (h0 : s.consumer.pc.counter = some 0) (hn : (popped log).length = n) :
    ∃ k, (popped log').length = n + k ∧ ∀ d, s'.consumer.pc.counter = some d → d.toNat = k := by
  refine counter_run_of (R := fun k d => d.toNat = k) rfl ?_ hr h0 hn
  intro s log a s' ev d k hG hs hpc hpc' hdk
  have hfit := hG s' ev hs d hpc hpc'
  rw [UInt32.toNat_add, UInt32.toNat_one, Nat.mod_eq_of_lt hfit, hdk]

theorem noPanic_of_lt {n k : Nat} (hr : (sysMachine cfg codec mm jobs).Run
      (fun s l a => inDrain s l a ∧ G s l a) s log as s' log')
    (h0 : s.consumer.pc.counter = some 0) (hn : (popped log).length = n)
    (hk : (popped log').length = n + k) (hlt : k < 2 ^ 32) :
    (sysMachine cfg codec mm jobs).Run
      (fun s l a => inDrain s l a ∧ noPanic cfg codec mm jobs s l a) s log as s' log' := by
  induction hr generalizing k with
  | nil => exact .nil
  | @snoc as s1 log1 a s2 ev hr hG hs ih =>
    obtain ⟨k1, hk1, hcount⟩ := counter_run hr h0 hn
    rw [popped_append, List.length_append, hk1] at hk
    refine (ih hk1 (by omega)).snoc ⟨hG.1, ?_⟩ hs
    intro s2' ev' hs' d hpc hpc'
    obtain ⟨rfl, rfl⟩ : s2 = s2' ∧ ev = ev' := by
      have heq := hs.symm.trans hs'
      simpa using heq
    have hd : s1.consumer.pc.counter = some d := congrArg ConsumerPc.counter hpc
    have hdk := hcount d hd
    rcases counter_step hs' hd with ⟨hone, _, _⟩ | ⟨_, hkeep | hexit⟩
    · rw [hdk, UInt32.toNat_ofNat', Nat.mod_eq_of_lt (by omega)]
      omega
    · rw [hpc'] at hkeep
      have hne : d + 1 ≠ d := by simp
      exact absurd (Option.some.inj hkeep) hne
    · rw [hpc'] at hexit
      split at hexit <;> cases hexit

/-! ### Bursts -/

theorem enter_step (hs : sysStep cfg codec mm jobs s .consumer = some (s', ev))
    (hpc : s.consumer.pc = .stop) : popped ev = [] := by
  cases sysTrans_of_step hs with
  | @consumer c pop m _ ht =>
    cases ht with
    | halt | top | addEvents | addWire | decodeRecheck => rfl
    | drain hpc' | storeParked hpc' | recheck hpc' | storeRunningHit hpc' | decodeDrain hpc'
    | unparked hpc' | storeRunning hpc' =>
      cases hpc.symm.trans hpc'

theorem exit_step (hs : sysStep cfg codec mm jobs s .consumer = some (s', ev))
    (hd : s.consumer.pc.counter = some d) (hout : s'.consumer.pc.counter = none) :
    popped ev = [] ∧ s'.consumer.pc = if d = 0 then .storeParked else .stop := by
  rcases counter_step hs hd with ⟨_, _, hpc'⟩ | ⟨hnone, hkeep | hexit⟩
  · rw [hpc'] at hout
    cases hout
  · rw [hkeep] at hout
    cases hout
  · exact ⟨hnone, hexit⟩

theorem ofNat32_eq_zero_iff : UInt32.ofNat m = 0 ↔ 2 ^ 32 ∣ m := by
  rw [← UInt32.toNat_inj, UInt32.toNat_ofNat', UInt32.toNat_zero, Nat.dvd_iff_mod_eq_zero]

theorem Burst.of_run {s1 : System ι C W M} (hpc : s.consumer.pc = .stop)
    (hs : sysStep cfg codec mm jobs s .consumer = some (s1, ev)) (hpc1 : s1.consumer.pc = .drain 0)
    (hr : (sysMachine cfg codec mm jobs).Run inDrain s1 (log ++ ev) as s' log')
    (hout : s'.consumer.pc.counter = none) (hm : (popped log').length = (popped log).length + m) :
    ∃ bs, Burst cfg codec mm jobs Machine.free s log bs m s' log' := by
  cases hr with
  | nil =>
    rw [hpc1] at hout
    cases hout
  | @snoc bs s2 log2 a _ ev' hr hin hs' =>
    have hkeep : s'.consumer = s2.consumer → False := by
      intro hsame
      rw [hsame] at hout
      rw [inDrain, hout] at hin
      cases hin
    have ha : a = .consumer := by
      cases sysTrans_of_step hs' with
      | consumer => rfl
      | producer | send | serve | drop | commit | stop => exact (hkeep rfl).elim
    subst ha
    exact ⟨bs, s1, ev, s2, log2, ev', hpc, hs, hpc1, hr.mono fun _ _ _ h => ⟨h, trivial⟩,
      hin, hs', hout,
      rfl, hm⟩

theorem Burst.inner (h : Burst cfg codec mm jobs G s log as m s' log') : ∃ s1 log1 s2 log2 d,
    (sysMachine cfg codec mm jobs).Run (fun s l a => inDrain s l a ∧ G s l a) s1 log1 as s2 log2 ∧
    s1.consumer.pc.counter = some 0 ∧ (popped log1).length = (popped log).length ∧
    s2.consumer.pc.counter = some d ∧ (popped log2).length = (popped log).length + m ∧
    s'.consumer.pc = (if d = 0 then .storeParked else .stop) ∧
    ∀ G', (sysMachine cfg codec mm jobs).Run (fun s l a => inDrain s l a ∧ G' s l a) s1
      log1 as s2 log2 →
      Burst cfg codec mm jobs G' s log as m s' log' := by
  obtain ⟨s1, ev, s2, log2, ev', hpc, hs, hpc1, hr, hin, hs', hout, rfl, hm⟩ := h
  obtain ⟨d, hd⟩ := Option.isSome_iff_exists.mp hin
  obtain ⟨hnone, hexit⟩ := exit_step hs' hd hout
  have hk : (popped log2).length = (popped log).length + m := by
    rwa [popped_append, hnone, List.append_nil] at hm
  refine ⟨s1, log ++ ev, s2, log2, d, hr, congrArg ConsumerPc.counter hpc1, ?_, hd, hk, hexit, ?_⟩
  · rw [popped_append, enter_step hs hpc, List.append_nil]
  · intro G' hr'
    exact ⟨s1, ev, s2, log2, ev', hpc, hs, hpc1, hr', hin, hs', hout, rfl, hm⟩

/-- After the burst the loop parks exactly when the counter shows zero again. -/
theorem Burst.parks_iff (h : Burst cfg codec mm jobs G s log as m s' log') :
    s'.consumer.pc = .storeParked ↔ 2 ^ 32 ∣ m := by
  obtain ⟨s1, log1, s2, log2, d, hr, h0, hn, hd, hm, hexit, _⟩ := h.inner
  obtain ⟨k, hk, hcount⟩ := counter_run hr h0 hn
  obtain rfl : k = m := by omega
  rw [hexit, hcount d hd, ← ofNat32_eq_zero_iff]
  split
  · rename_i hzero
    exact iff_of_true rfl hzero
  · rename_i hzero
    exact iff_of_false (fun h => by cases h) hzero

/-- Nothing panics in bursts of fewer than 2^32 messages, and in no others. -/
theorem Burst.noPanic_iff (h : Burst cfg codec mm jobs Machine.free s log as m s' log') :
    Burst cfg codec mm jobs (noPanic cfg codec mm jobs) s log as m s' log' ↔ m < 2 ^ 32 := by
  constructor
  · intro hno
    obtain ⟨s1, log1, s2, log2, d, hr, h0, hn, hd, hm, _, _⟩ := hno.inner
    obtain ⟨k, hk, hcount⟩ := counter_run_noPanic hr h0 hn
    have hdk := hcount d hd
    have hlt := d.toNat_lt
    omega
  · intro hlt
    obtain ⟨s1, log1, s2, log2, d, hr, h0, hn, _, hm, _, hguard⟩ := h.inner
    exact hguard _ (noPanic_of_lt hr h0 hn hm hlt)

end Burst

end ShmMpsc
