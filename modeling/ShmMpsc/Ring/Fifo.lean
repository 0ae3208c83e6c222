import Mathlib.Data.List.Induction
import ShmMpsc.Ring.Simulation

/-!
# Exactly-once FIFO delivery

The runs of the code from `init`, what their logs say about reservations and pops, and
the wrap of the counters.
-/

namespace ShmMpsc

set_option autoImplicit false

open RingConfig

variable {cfg : RingConfig} {ι : Type} [DecidableEq ι]

/-- A run of the code from a mapping of `total()` bytes that `init` prepared. -/
def InitRun (cfg : RingConfig)
    (G : Machine.Guard (RingState ι UInt64 Memory) (RingAction ι) (RingEvent ι UInt64))
    (as : List (RingAction ι)) (s : RingState ι UInt64 Memory) (log : List (RingEvent ι UInt64)) :
    Prop :=
  ∃ m m', m.size = cfg.total.toNat ∧ init cfg m = some m' ∧
    (ringMachine ι (segOps cfg)).Run G (RingState.start m') [] as s log

theorem reservedSince_append_le {W : Type} (i : ι) (log after : List (RingEvent ι W)) :
    reservedSince i (log ++ after) ≤ reservedSince i log + (reserves after).length := by
  induction after using List.reverseRecOn with
  | nil => simp
  | append_singleton after e ih =>
    rw [← List.append_assoc, reserves_append, List.length_append]
    cases e with
    | push j e =>
      cases e with
      | tailLoad =>
        rw [reservedSince_tailLoad]
        split <;> omega
      | reserve data pos =>
        rw [reservedSince_reserve]
        have hone : (reserves [RingEvent.push j (PushEvent.reserve data pos)]).length = 1 := rfl
        omega
      | casFail | publish | full =>
        rw [reservedSince_other i (by simp) (by simp)]
        exact Nat.le_trans ih (by simp)
    | call | popCall | pop =>
      rw [reservedSince_other i (by simp) (by simp)]
      exact Nat.le_trans ih (by simp)

theorem reservedSince_le {W : Type} (i : ι) (log : List (RingEvent ι W)) :
    reservedSince i log ≤ (reserves log).length := by
  have hle := reservedSince_append_le i [] log
  rwa [List.nil_append, show reservedSince i ([] : List (RingEvent ι W)) = 0 from rfl,
    Nat.zero_add] at hle

namespace InitRun

variable {as : List (RingAction ι)} {s : RingState ι UInt64 Memory}
  {log : List (RingEvent ι UInt64)}

theorem admitted {G} (h : InitRun cfg G as s log) : cfg.Admitted := by
  obtain ⟨m, m', _, hi, _⟩ := h
  exact check_iff.mp (init_eq_some hi).1

theorem fits {G} (h : InitRun cfg G as s log) : cfg.Fits := by
  obtain ⟨m, m', hm, hi, _⟩ := h
  exact fits_of_init hm hi

theorem refines (hN : 2 ≤ cfg.N) (h : InitRun cfg (windowed (2 ^ 63 - cfg.N)) as s log) :
    ∃ u ulog, Refines cfg s log u ulog := by
  have hg := h.admitted
  have hf := h.fits
  obtain ⟨m, m', hm, hi, hrun⟩ := h
  obtain ⟨len, payload, h0⟩ := refines_init (ι := ι) hm hi
  obtain ⟨u, ulog, _, hR⟩ := h0.run hg hf hN hrun
  exact ⟨u, ulog, hR⟩

theorem windowed_of_bound {b : Nat} (h : InitRun cfg Machine.free as s log)
    (hb : (reserves log).length < b) : InitRun cfg (windowed b) as s log := by
  obtain ⟨m, m', hm, hi, hrun⟩ := h
  refine ⟨m, m', hm, hi, ?_⟩
  have hmono : ∀ l l' : List (RingEvent ι UInt64), l <+: l' →
      (reserves l).length ≤ (reserves l').length := by
    rintro l _ ⟨l', rfl⟩
    simp
  refine (hrun.bounded hmono hb).mono ?_
  rintro s l a ⟨_, hl⟩ i _ _ _
  exact Nat.lt_of_le_of_lt (reservedSince_le i l) hl

theorem refines_of_bound (hN : 2 ≤ cfg.N) (h : InitRun cfg Machine.free as s log)
    (hb : (reserves log).length < 2 ^ 63 - cfg.N) : ∃ u ulog, Refines cfg s log u ulog :=
  (h.windowed_of_bound hb).refines hN

end InitRun

/-- Running a schedule from `init`, for concrete inputs. -/
def execInit (cfg : RingConfig) (m : Memory) (as : List (RingAction ι)) :
    Option (RingState ι UInt64 Memory × List (RingEvent ι UInt64)) :=
  (init cfg m).bind fun m' => (ringMachine ι (segOps cfg)).exec (RingState.start m', []) as

theorem initRun_of_execInit {m : Memory} {as : List (RingAction ι)}
    {c : RingState ι UInt64 Memory × List (RingEvent ι UInt64)} (hm : m.size = cfg.total.toNat)
    (h : execInit cfg m as = some c) : InitRun cfg Machine.free as c.1 c.2 := by
  obtain ⟨m', hi, hrun⟩ := Option.bind_eq_some_iff.mp h
  exact ⟨m, m', hm, hi, Machine.run_of_exec hrun⟩

/-- Two slots of 24 bytes. -/
def tiny : RingConfig := { numSlots := 2, slotSize := 24 }

def blank : Memory := { size := 240, byte := fun _ => 0, size_lt := by decide }

/-- Two producers reserve, the second publishes first, and the consumer finds nothing; then both
messages come out, and a third one in the slot of the first. -/
def twoLaps : List (RingAction Bool) :=
  .call true [7] :: List.replicate 3 (.push true false) ++
    .call false [8] :: List.replicate 6 (.push false false) ++
    .popCall [5] :: List.replicate 2 .pop ++ List.replicate 3 (.push true false) ++
    .popCall [1, 2] :: List.replicate 6 .pop ++ .popCall [7] :: List.replicate 6 .pop ++
    .call true [9] :: List.replicate 6 (.push true false) ++ .popCall [] :: List.replicate 6 .pop

theorem twoLaps_exec : (execInit tiny blank twoLaps).map (fun c => (reserves c.2, pops c.2)) =
    some ([(true, [7], 0), (false, [8], 1), (true, [9], 2)], [(0, [7]), (1, [8]), (2, [9])]) := by
  decide +kernel

/-! ### What related logs share -/

theorem RingInv.published_lt {N L : Nat} {u : RingState ι Nat UMem} {ulog : List (RingEvent ι Nat)}
    (h : RingInv N L u ulog) {p : Nat} (hp : Published ulog p) : p < u.mem.tail := by
  have hf := h.freed_le
  rcases (h.published p).mp hp with hlt | ⟨hlt, hseq⟩
  · omega
  · by_cases hge : freed u ≤ p
    · rcases h.slot p hge hlt with ⟨hs, _⟩ | ⟨_, i, data, hr, _⟩
      · omega
      · exact h.reserved_lt hr
    · omega

namespace Refines

variable {s : RingState ι UInt64 Memory} {log : List (RingEvent ι UInt64)}
  {u : RingState ι Nat UMem} {ulog : List (RingEvent ι Nat)}

theorem reserves_eq (h : Refines cfg s log u ulog) :
    reserves log = (reserves ulog).map fun r => (r.1, r.2.1, UInt64.ofNat r.2.2) := by
  rw [h.log_eq, reserves_map]

theorem reserves_length (h : Refines cfg s log u ulog) : (reserves log).length = u.mem.tail := by
  rw [h.reserves_eq, List.length_map, h.inv.tail_eq]

theorem releases_length (h : Refines cfg s log u ulog) : (releases log).length = freed u := by
  rw [h.log_eq, releases_map, List.length_map, h.inv.released]

theorem pops_length (h : Refines cfg s log u ulog) : (pops log).length = u.mem.head := by
  rw [h.log_eq, pops_map, List.length_map, h.inv.popped]

theorem reserved_at (h : Refines cfg s log u ulog) {k : Nat} {i : ι} {data : List UInt8}
    {pos : UInt64} (hr : (reserves log)[k]? = some (i, data, pos)) :
    pos = UInt64.ofNat k ∧ data.length ≤ cfg.S - 20 := by
  rw [h.reserves_eq, List.getElem?_map, Option.map_eq_some_iff] at hr
  obtain ⟨⟨j, d, p⟩, hr, heq⟩ := hr
  obtain ⟨rfl, hlen⟩ := h.inv.reserved_at k j d p hr
  cases heq
  exact ⟨rfl, hlen⟩

/-- The k-th pop is of position k and brings what was pushed there. -/
theorem popped_at (h : Refines cfg s log u ulog) {k : Nat} {pos : UInt64} {out : List UInt8}
    (hp : (pops log)[k]? = some (pos, out)) :
    pos = UInt64.ofNat k ∧
      ∃ i data, (reserves log)[k]? = some (i, data, UInt64.ofNat k) ∧ out = truncated data := by
  have hlog : pops log = (pops ulog).map fun r => (UInt64.ofNat r.1, r.2) := by
    rw [h.log_eq, pops_map]
  rw [hlog, List.getElem?_map, Option.map_eq_some_iff] at hp
  obtain ⟨⟨p, o⟩, hp, heq⟩ := hp
  obtain ⟨rfl, i, data, hr, hout⟩ := h.inv.popped_at k p o hp
  cases heq
  refine ⟨rfl, i, data, ?_, hout⟩
  rw [h.reserves_eq, List.getElem?_map, hr]
  rfl

theorem published_iff (h : Refines cfg s log u ulog) (hb : (reserves log).length ≤ 2 ^ 64) {p : Nat}
    (hp : p < 2 ^ 64) : Published log (UInt64.ofNat p) ↔ Published ulog p := by
  rw [h.reserves_length] at hb
  rw [h.log_eq, published_map]
  constructor
  · rintro ⟨q, hq, hpub⟩
    have hlt := h.inv.published_lt hpub
    rwa [(ofNat_inj_of_near (by omega) (by omega)).mp hq] at hpub
  · exact fun hpub => ⟨p, rfl, hpub⟩

theorem length_le_maxLen (h : cfg.Admitted) {data : List UInt8} (hS : cfg.slotSize.toNat < 2 ^ 32)
    (hd : data.length ≤ cfg.S - 20) : truncated data = data := by
  have hmin : 20 < cfg.S := h.min
  have hS : cfg.S < 2 ^ 32 := hS
  exact truncated_of_lt (by omega)

/-- Inside a call every step is possible: no access falls outside the mapping. -/
theorem push_isSome (hg : cfg.Admitted) (hf : cfg.Fits) (hN : 2 ≤ cfg.N)
    (h : Refines cfg s log u ulog) {i : ι} {spurious : Bool}
    (hw : windowed (2 ^ 63 - cfg.N) s log (.push i spurious)) (hi : (s.push i).ready = false) :
    (ringStep (segOps cfg) s (.push i spurious)).isSome := by
  have hsame := h.sameStep hg hf hN hw
  cases hu : ringStep (unbounded cfg) u (.push i spurious) with
  | none =>
    have hready := ready_of_pushStep (Option.map_eq_none_iff.mp hu)
    rw [h.sim.push i, PushPc.ready_map, hready] at hi
    cases hi
  | some r =>
    rw [hu] at hsame
    cases hs : ringStep (segOps cfg) s (.push i spurious) with
    | none => rw [hs] at hsame; cases hsame
    | some r => rfl

theorem pop_isSome (hg : cfg.Admitted) (hf : cfg.Fits) (hN : 2 ≤ cfg.N)
    (h : Refines cfg s log u ulog) (hp : s.pop.ready = false) :
    (ringStep (segOps cfg) s .pop).isSome := by
  have hsame := h.sameStep hg hf hN (a := .pop) fun _ _ ha => by cases ha
  cases hu : ringStep (unbounded cfg) u .pop with
  | none =>
    have hready := ready_of_popStep (Option.map_eq_none_iff.mp hu)
    rw [h.sim.pop, PopPc.ready_map, hready] at hp
    cases hp
  | some r =>
    rw [hu] at hsame
    cases hs : ringStep (segOps cfg) s .pop with
    | none => rw [hs] at hsame; cases hsame
    | some r => rfl

theorem pops_le (h : Refines cfg s log u ulog) : (pops log).length ≤ (reserves log).length := by
  have hf := h.inv.freed_le
  have hhead := head_le_freed u
  rw [h.pops_length, h.reserves_length]
  omega

/-- What a pop under way takes is the next position. -/
theorem taking_eq (h : Refines cfg s log u ulog) {pos : UInt64} (hp : s.pop.taking = some pos) :
    pos = UInt64.ofNat (pops log).length := by
  have hok := h.inv.pop_ok
  rw [h.sim.pop] at hp
  rw [h.pops_length]
  cases hu : u.pop with
  | readLen out head | readPayload out head len | release out head | storeHead out head =>
    rw [hu] at hp hok
    cases hp
    exact congrArg UInt64.ofNat hok.1
  | idle | loadHead | loadSeq | done =>
    rw [hu] at hp
    cases hp

/-- And nothing keeps it from its `Some`. -/
theorem takes (hg : cfg.Admitted) (hf : cfg.Fits) (hN : 2 ≤ cfg.N) (h : Refines cfg s log u ulog)
    {pos : UInt64} (hp : s.pop.taking = some pos) :
    ∃ s' ev, ringStep (segOps cfg) s .pop = some (s', ev) ∧ s'.pop.left < s.pop.left ∧
      (s'.pop.taking = some pos ∨
        ∃ out, s'.pop = .done (some pos) out ∧ ev = [.pop (.some pos out)]) := by
  have hready : s.pop.ready = false := by
    cases hpop : s.pop <;> rw [hpop] at hp <;> first | rfl | cases hp
  obtain ⟨⟨s', ev⟩, hs⟩ := Option.isSome_iff_exists.mp (h.pop_isSome hg hf hN hready)
  refine ⟨s', ev, hs, ?_⟩
  cases ringTrans_of_step hs with | pop ht
  obtain ⟨hleft, htaking⟩ := ht.taking hp
  exact ⟨hleft, htaking.imp_right fun ⟨out, hpc, hev⟩ => ⟨out, hpc, by rw [hev]; rfl⟩⟩

/-- At its seq load the consumer finds the next position published or not. -/
theorem seqLoad (hg : cfg.Admitted) (hf : cfg.Fits) (hN : 2 ≤ cfg.N)
    (h : Refines cfg s log u ulog) {out : List UInt8} {head : UInt64}
    (hp : s.pop = .loadSeq out head) :
    head = UInt64.ofNat (pops log).length ∧
    (Published ulog (pops log).length →
      ringStep (segOps cfg) s .pop = some ({ s with pop := .readLen out head }, [])) ∧
    (¬ Published ulog (pops log).length →
      ringStep (segOps cfg) s .pop =
        some ({ s with pop := .done none out }, [.pop (.none out)])) := by
  have hnear := h.inv.popNear hN
  have hok := h.inv.pop_ok
  have hup : u.pop = .loadSeq out u.mem.head ∧ head = UInt64.ofNat u.mem.head := by
    have hsim := h.sim.pop
    rw [hp] at hsim
    cases hu : u.pop with
    | loadSeq o hd =>
      rw [hu] at hsim hok
      cases hsim
      have hok : hd = u.mem.head := hok
      exact ⟨by rw [hok], by rw [hok]⟩
    | _ => rw [hu] at hsim; cases hsim
  obtain ⟨hup, rfl⟩ := hup
  rw [hup] at hnear
  rw [h.pops_length]
  have hfreed : freed u = u.mem.head := freed_eq_head (by simp [hup])
  have hpub := h.inv.published_head hN hfreed
  refine ⟨rfl, fun hyes => ?_, fun hno => ?_⟩
  · obtain ⟨m', ht, _⟩ := pop_sim hg hf h.sim.mem hnear
      (.ready (congrArg some (hpub.mp hyes)))
    cases ht with
    | ready hq => simp [ringStep, hp, (PopTrans.ready hq).step]
  · obtain ⟨m', ht, _⟩ := pop_sim hg hf h.sim.mem hnear (.empty rfl (mt hpub.mpr hno))
    cases ht with
    | empty hq hne => simp [ringStep, hp, (PopTrans.empty hq hne).step]

theorem published_length (h : Refines cfg s log u ulog)
    (hb : (reserves log).length < 2 ^ 63 - cfg.N) :
    Published log (UInt64.ofNat (pops log).length) ↔ Published ulog (pops log).length := by
  have hhead : u.mem.head ≤ freed u := head_le_freed u
  have hf := h.inv.freed_le
  have ht := h.reserves_length
  refine h.published_iff (by omega) ?_
  rw [h.pops_length]
  omega

end Refines

/-- Exactly-once FIFO delivery: positions are reserved once, the k-th `Some` is of position k
with the bytes pushed there, `None` means that the next position is unpublished, and a call that
finds it published takes it: every step of a call is possible, and each brings it nearer to its
`Some`. -/
theorem exactly_once_fifo (hN : 2 ≤ cfg.N) (hS : cfg.slotSize.toNat < 2 ^ 32)
    {as : List (RingAction ι)} {s : RingState ι UInt64 Memory} {log : List (RingEvent ι UInt64)}
    (h : InitRun cfg Machine.free as s log) (hb : (reserves log).length < 2 ^ 63 - cfg.N) :
    ((reserves log).map fun r => r.2.2).Nodup ∧
    (∀ i data, (s.push i).data = some data → calledWith i log = some data) ∧
    (∀ (k : Nat) pos out, (pops log)[k]? = some (pos, out) →
      pos.toNat = k ∧ ∃ i, (reserves log)[k]? = some (i, out, pos)) ∧
    (∀ out, s.pop.untouched = some out → outBefore log = out) ∧
    (∀ out, s.pop = .loadHead out →
      ∃ head, ringStep (segOps cfg) s .pop = some ({ s with pop := .loadSeq out head }, [])) ∧
    (∀ out head, s.pop = .loadSeq out head →
      ringStep (segOps cfg) s .pop = some ({ s with pop := .readLen out head }, []) ∧
          Published log (UInt64.ofNat (pops log).length) ∨
        ringStep (segOps cfg) s .pop =
            some ({ s with pop := .done none out }, [.pop (.none out)]) ∧
          ¬ Published log (UInt64.ofNat (pops log).length)) ∧
    (∀ pos, s.pop.taking = some pos → pos.toNat = (pops log).length ∧
      ∃ s' ev, ringStep (segOps cfg) s .pop = some (s', ev) ∧ s'.pop.left < s.pop.left ∧
        (s'.pop.taking = some pos ∨
          ∃ out, s'.pop = .done (some pos) out ∧ ev = [.pop (.some pos out)])) ∧
    (∀ i spurious, (s.push i).ready = false →
      (ringStep (segOps cfg) s (.push i spurious)).isSome) := by
  obtain ⟨u, ulog, hR⟩ := h.refines_of_bound hN hb
  have hg := h.admitted
  have hf := h.fits
  obtain ⟨m, m', _, _, hrun⟩ := h
  refine ⟨?_, fun i data hd => calledWith_of_data hrun hd, ?_,
    fun out ho => outBefore_of_untouched hrun ho, ?_, ?_, ?_, ?_⟩
  · refine List.pairwise_iff_getElem.mpr fun j k hj hk hjk heq => ?_
    rw [List.length_map] at hj hk
    have hrj : (reserves log)[j].2.2 = UInt64.ofNat j :=
      (hR.reserved_at (List.getElem?_eq_getElem hj)).1
    have hrk : (reserves log)[k].2.2 = UInt64.ofNat k :=
      (hR.reserved_at (List.getElem?_eq_getElem hk)).1
    rw [List.getElem_map, List.getElem_map, hrj, hrk] at heq
    have := (ofNat_inj_of_near (by omega) (by omega)).mp heq
    omega
  · intro k pos out hk
    obtain ⟨rfl, i, data, hr, rfl⟩ := hR.popped_at hk
    obtain ⟨_, hlen⟩ := hR.reserved_at hr
    rw [Refines.length_le_maxLen hg hS hlen]
    have hlt : k < (reserves log).length := (List.getElem?_eq_some_iff.mp hr).1
    refine ⟨?_, i, hr⟩
    rw [UInt64.toNat_ofNat', Nat.mod_eq_of_lt (by omega)]
  · intro out hp
    refine ⟨UInt64.ofNat u.mem.head, ?_⟩
    have hl : (segOps cfg).loadHead s.mem = some (UInt64.ofNat u.mem.head) := hR.sim.mem.head
    simp [ringStep, hp, (PopTrans.loadHead hl).step]
  · intro out head hp
    obtain ⟨_, hyes, hno⟩ := hR.seqLoad hg hf hN hp
    rw [hR.published_length hb]
    by_cases hpub : Published ulog (pops log).length
    · exact .inl ⟨hyes hpub, hpub⟩
    · exact .inr ⟨hno hpub, hpub⟩
  · intro pos hp
    have hpos := hR.taking_eq hp
    have hle := hR.pops_le
    exact ⟨by rw [hpos, UInt64.toNat_ofNat', Nat.mod_eq_of_lt (by omega)], hR.takes hg hf hN hp⟩
  · intro i spurious hi
    refine hR.push_isSome hg hf hN ?_ hi
    intro j _ _ _
    exact Nat.lt_of_le_of_lt (reservedSince_le j log) hb

theorem exactly_once_fifo_tiny : ∃ s log, InitRun tiny Machine.free twoLaps s log ∧
    pops log = [(0, [7]), (1, [8]), (2, [9])] ∧
    ((reserves log).map fun r => r.2.2).Nodup ∧
    ∀ (k : Nat) pos out, (pops log)[k]? = some (pos, out) →
      pos.toNat = k ∧ ∃ i, (reserves log)[k]? = some (i, out, pos) := by
  obtain ⟨⟨s, log⟩, hc, heq⟩ := Option.map_eq_some_iff.mp twoLaps_exec
  obtain ⟨hres, hpops⟩ := Prod.mk.inj heq
  have hrun : InitRun tiny Machine.free twoLaps s log := initRun_of_execInit rfl hc
  have hall := exactly_once_fifo (by decide) (by decide) hrun (by rw [hres]; decide)
  exact ⟨s, log, hrun, hpops, hall.1, hall.2.2.1⟩

/-- Counters that wrap are harmless: with fewer than 2^62 reservations between a tail load and
the comparisons made with it, a run of the code of any length is, step by step, a run of the
unbounded ring, and the next step branches alike at the same slot. -/
theorem wrap_simulation (hN : 2 ≤ cfg.N) (hN62 : cfg.N ≤ 2 ^ 62)
    {as : List (RingAction ι)} {s : RingState ι UInt64 Memory} {log : List (RingEvent ι UInt64)}
    (h : InitRun cfg (windowed (2 ^ 62)) as s log) :
    ∃ len payload u ulog,
      (ringMachine ι (unbounded cfg)).Run (windowed (2 ^ 62))
        (RingState.start (UMem.start cfg.N len payload)) [] as u ulog ∧
      Sim cfg s u ∧ log = ulog.map (RingEvent.map UInt64.ofNat) ∧
      (∀ pos, (cfg.slotPtr (UInt64.ofNat pos)).toNat = cfg.slotOff (pos % cfg.N)) ∧
      (∀ a, windowed (2 ^ 62) s log a →
        SameStep cfg (ringStep (segOps cfg) s a) (ringStep (unbounded cfg) u a)) ∧
      (∀ (k : Nat) pos out, (pops log)[k]? = some (pos, out) → pos = UInt64.ofNat k ∧
        ∃ i data, (reserves log)[k]? = some (i, data, pos) ∧ out = truncated data) := by
  have hg := h.admitted
  have hf := h.fits
  have hwide : ∀ (s : RingState ι UInt64 Memory) log a, windowed (2 ^ 62) s log a →
      windowed (2 ^ 63 - cfg.N) s log a := by
    intro s log a hw i sp ha hd
    have := hw i sp ha hd
    omega
  obtain ⟨m, m', hm, hi, hrun⟩ := h
  obtain ⟨len, payload, h0⟩ := refines_init (ι := ι) hm hi
  have hlock : ∃ u ulog, (ringMachine ι (unbounded cfg)).Run (windowed (2 ^ 62))
      (RingState.start (UMem.start cfg.N len payload)) [] (as.map id) u ulog ∧
        Refines cfg s log u ulog := hrun.lockstep id h0 fun s log u ulog a s' ev hR hw hs => by
    obtain ⟨u', uev, hu, hR'⟩ := hR.step hg hf hN (hwide _ _ _ hw) hs
    exact ⟨u', uev, hR.windowed_iff.mp hw, hu, hR'⟩
  obtain ⟨u, ulog, hurun, hR⟩ := hlock
  refine ⟨len, payload, u, ulog, by simpa using hurun, hR.sim, hR.log_eq, slotPtr_ofNat hg hf,
    fun a hw => hR.sameStep hg hf hN (hwide _ _ _ hw), fun k pos out hk => ?_⟩
  obtain ⟨rfl, i, data, hr, hout⟩ := hR.popped_at hk
  exact ⟨rfl, i, data, hr, hout⟩

theorem wrap_simulation_tiny : ∃ s log, InitRun tiny (windowed (2 ^ 62)) twoLaps s log ∧
    ∃ len payload u ulog, (ringMachine Bool (unbounded tiny)).Run (windowed (2 ^ 62))
      (RingState.start (UMem.start tiny.N len payload)) [] twoLaps u ulog ∧ Sim tiny s u := by
  obtain ⟨⟨s, log⟩, hc, heq⟩ := Option.map_eq_some_iff.mp twoLaps_exec
  have hres := (Prod.mk.inj heq).1
  have hrun : InitRun tiny Machine.free twoLaps s log := initRun_of_execInit rfl hc
  have hwin : InitRun tiny (windowed (2 ^ 62)) twoLaps s log :=
    hrun.windowed_of_bound (by rw [hres]; decide)
  obtain ⟨len, payload, u, ulog, hurun, hsim, _⟩ := wrap_simulation (by decide) (by decide) hwin
  exact ⟨s, log, hwin, len, payload, u, ulog, hurun, hsim⟩

end ShmMpsc
