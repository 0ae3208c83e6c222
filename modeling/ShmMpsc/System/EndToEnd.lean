import Mathlib.Algebra.Order.BigOperators.Group.Finset
import Mathlib.Data.Fintype.BigOperators
import ShmMpsc.System.Accounting

/-!
# End-to-end accounting

The books of the parties with the ring between them: every event of every producer is
popped once, in the order of its producer, and counted once.
-/

namespace ShmMpsc

set_option autoImplicit false

open RingConfig

variable {ι C : Type} [DecidableEq ι]

/-- The messages popped from the positions that producer `j` reserved, in order. -/
def processed {W : Type} (j : ι) (log : List (SysEvent ι W)) : List (List UInt8) :=
  ((reserves (ringLog log)).zip (popped log)).filterMap fun r =>
    if r.1.1 = j then some r.2 else none

theorem zip_take_map {α β : Type} (g : α → β) (l : List α) (n : Nat) :
    l.zip ((l.take n).map g) = (l.take n).map fun a => (a, g a) := by
  induction l generalizing n with
  | nil => simp
  | cons a l ih =>
    cases n with
    | zero => simp
    | succ n => simpa using ih n

/-- Everything belongs to somebody. -/
theorem length_eq_sum_owned [Fintype ι] {α β : Type} (l : List (ι × α × β)) :
    l.length = ∑ j, (l.filterMap fun r => if r.1 = j then some r.2.1 else none).length := by
  induction l with
  | nil => simp
  | cons r l ih =>
    have hcons (j : ι) : ((r :: l).filterMap fun r => if r.1 = j then some r.2.1 else none).length =
        (if r.1 = j then 1 else 0) +
          (l.filterMap fun r => if r.1 = j then some r.2.1 else none).length := by
      rw [List.filterMap_cons]
      split
      · rename_i h
        split at h
        · cases h
        · rename_i hne
          simp [hne]
      · rename_i h
        split at h
        · rename_i heq
          simp [heq, Nat.add_comm]
        · cases h
    simp only [hcons, Finset.sum_add_distrib, Finset.sum_ite_eq, Finset.mem_univ, if_true]
    rw [List.length_cons, ih, Nat.add_comm]

section Ring

variable {cfg : RingConfig} {s : System ι C UInt64 Memory} {log : List (SysEvent ι UInt64)}
  {u : RingState ι Nat UMem} {ulog : List (RingEvent ι Nat)}

theorem popped_eq (h : Refines cfg s.ring (ringLog log) u ulog) :
    popped log = ((reserves (ringLog log)).take (popped log).length).map fun r =>
      truncated r.2.1 := by
  refine List.ext_getElem? fun k => ?_
  rcases Nat.lt_or_ge k (popped log).length with hk | hk
  · have hkp : k < (pops (ringLog log)).length := by simpa [popped] using hk
    obtain ⟨_, i, data, hr, hout⟩ := h.popped_at (List.getElem?_eq_getElem hkp)
    rw [List.getElem?_map, List.getElem?_take_of_lt hk, hr, popped, List.getElem?_map,
      List.getElem?_eq_getElem hkp]
    exact congrArg some hout
  · rw [List.getElem?_eq_none hk, List.getElem?_eq_none]
    rw [List.length_map, List.length_take]
    omega

theorem popped_length_le (h : Refines cfg s.ring (ringLog log) u ulog) :
    (popped log).length ≤ (reserves (ringLog log)).length := by
  have hl := congrArg List.length (popped_eq h)
  rw [List.length_map, List.length_take] at hl
  omega

theorem processed_eq (h : Refines cfg s.ring (ringLog log) u ulog) (j : ι) :
    processed j log = ((reserves (ringLog log)).take (popped log).length).filterMap fun r =>
      if r.1 = j then some (truncated r.2.1) else none := by
  rw [processed, popped_eq h, List.length_map, List.length_take, zip_take_map, List.filterMap_map,
    Nat.min_eq_left (popped_length_le h)]
  rfl

theorem pushes_map (j : ι) (l : List (SysEvent ι UInt64)) :
    (pushes j l).map truncated = (reserves (ringLog l)).filterMap fun r =>
      if r.1 = j then some (truncated r.2.1) else none := by
  rw [pushes, List.map_filterMap]
  congr 1
  funext r
  split <;> rfl

theorem processed_prefix (h : Refines cfg s.ring (ringLog log) u ulog) (j : ι) :
    processed j log <+: (pushes j log).map truncated := by
  rw [processed_eq h, pushes_map]
  exact (List.take_prefix _ _).filterMap _

theorem processed_all (h : Refines cfg s.ring (ringLog log) u ulog)
    (hall : (popped log).length = (reserves (ringLog log)).length) (j : ι) :
    processed j log = (pushes j log).map truncated := by
  rw [processed_eq h, pushes_map, hall, List.take_length]

/-- With nobody inside a push and the consumer outside its two stores, an unpublished head means
that head has come up to tail. -/
theorem drained_of_unpublished (hg : cfg.Admitted) (hf : cfg.Fits)
    (h : Refines cfg s.ring (ringLog log) u ulog) (hpush : ∀ j, (s.ring.push j).ready = true)
    (hpop : s.ring.pop.ready = true) (hpub : ¬ (segOps cfg).HeadPublished s.ring.mem) :
    u.mem.head = u.mem.tail := by
  have hupop : u.pop.ready = true := by rwa [h.sim.pop, PopPc.ready_map] at hpop
  have hhead := freed_of_ready hupop
  have hle := h.inv.freed_le
  by_contra hne
  have hlt : u.mem.head < u.mem.tail := by omega
  have hpos := hg.pos
  have hslot : u.mem.head % cfg.N < cfg.N := Nat.mod_lt _ hpos
  rcases h.inv.slot u.mem.head (by omega) (by omega) with ⟨_, hw⟩ | ⟨hseq, _⟩
  · obtain ⟨j, data, hj⟩ := hw hlt
    have hready : (u.push j).ready = true := by
      have hr := hpush j
      rwa [h.sim.push, PushPc.ready_map] at hr
    cases hpc : u.push j <;> simp_all [PushPc.writing, PushPc.ready]
  · refine hpub ⟨UInt64.ofNat u.mem.head, h.sim.mem.head, ?_⟩
    show s.ring.mem.load64 _ = some (UInt64.ofNat u.mem.head + 1)
    rw [slotPtr_ofNat hg hf, h.sim.mem.seq _ hslot, hseq, ofNat_succ]

theorem head_eq_tail (hg : cfg.Admitted) (h : Refines cfg s.ring (ringLog log) u ulog)
    (heq : (segOps cfg).loadHead s.ring.mem = (segOps cfg).loadTail s.ring.mem) :
    u.mem.head = u.mem.tail := by
  have hhead : s.ring.mem.load64 64 = some (UInt64.ofNat u.mem.head) := h.sim.mem.head
  have htail : s.ring.mem.load64 0 = some (UInt64.ofNat u.mem.tail) := h.sim.mem.tail
  have heq : s.ring.mem.load64 64 = s.ring.mem.load64 0 := heq
  rw [hhead, htail] at heq
  have hle := h.inv.freed_le
  have hle' := h.inv.tail_le
  have hN : cfg.N ≤ 2 ^ 63 := hg.numSlots_le
  have hfreed : freed u ≤ u.mem.head + 1 := by
    unfold freed
    split <;> omega
  have hfreed' : u.mem.head ≤ freed u := head_le_freed u
  exact (ofNat_inj_of_near (by omega) (by omega)).mp (Option.some.inj heq)

end Ring

/-! ### The books of one party -/

section Parties

variable {W : Type} {n : UInt64} {E : List (UInt64 × List UInt8)} {P : List (List UInt8)} {k : Nat}

theorem Sent.length (h : Sent n E P k) : E.length = k := by
  have hl := congrArg List.length h.numbered
  simpa using hl

/-- What the place of a producer says without naming it. -/
structure Booked (n : UInt64) (E : List (UInt64 × List UInt8)) (P : List (List UInt8)) : Prop where
  numbered : E.map Prod.fst = (List.range E.length).map UInt64.ofNat
  bounded : E.length ≤ n.toNat
  pushed : P <+: E.map Prod.snd ∧ E.length ≤ P.length + 1

theorem Sent.booked (h : Sent n E P k) : Booked n E P := by
  have hl := h.length
  refine ⟨by rw [hl, h.numbered], by rw [hl]; exact h.le, by rw [h.pushed], ?_⟩
  rw [h.pushed, List.length_map]
  omega

theorem Waiting.booked {data : List UInt8} (h : Waiting n E P k data) : Booked n E P := by
  have hlt := h.1
  have hp := h.push
  obtain ⟨_, E', rfl, h⟩ := h
  have hl := h.length
  have hl' := hp.length
  refine ⟨by rw [hl', hp.numbered], by omega, ?_, ?_⟩
  · rw [h.pushed, List.map_append]
    exact List.prefix_append _ _
  · rw [h.pushed, List.length_map, List.length_append]
    simp

theorem ProducerOk.booked {scratch : List UInt8} {push : PushPc W} {pc : ProducerPc W}
    (h : ProducerOk n E P scratch push pc) : Booked n E P := by
  cases pc with
  | encode i => exact Sent.booked h
  | push i =>
    simp only [ProducerOk] at h
    split at h
    · exact h.booked
    · exact h.2.booked
  | sleep i => exact Waiting.booked h
  | casState i seq => exact Sent.booked h
  | signal i seq => exact Sent.booked h
  | shutdown => exact Sent.booked h
  | returned => exact Sent.booked h
  | failed err =>
    obtain ⟨k, h | ⟨data, h⟩⟩ := h
    · exact h.booked
    · exact h.booked

theorem ConsumerOk.events_le {cfg : RingConfig} {codec : Codec C} {raws : List (List UInt8)}
    {c : Consumer C} {pc : ConsumerPc} (h : ConsumerOk cfg codec raws c pc) :
    c.stats.events.toNat ≤ raws.length := by
  have hle {ev wire pay : List (List UInt8)} (hb : Books cfg codec ev wire pay c) :
      c.stats.events.toNat ≤ ev.length := by
    rw [hb.events, UInt64.toNat_ofNat']
    exact Nat.mod_le _ _
  have hone {raws' : List (List UInt8)} (hr : raws = raws' ++ [c.buf]) :
      raws'.length ≤ raws.length := by
    simp [hr]
  cases pc with
  | storeRunningHit => obtain ⟨raws', hr, hb⟩ := h; exact (hle hb).trans (hone hr)
  | addEvents site => obtain ⟨raws', hr, hb⟩ := h; exact (hle hb).trans (hone hr)
  | addWire site => obtain ⟨raws', hr, hb⟩ := h; exact hle hb
  | decode site => obtain ⟨raws', hr, hb⟩ := h; exact hle hb
  | _ => exact hle h

end Parties

section Totals

variable [Fintype ι] {cfg : RingConfig} {codec : Codec C} {jobs : ι → Job}
  {s : System ι C UInt64 Memory} {log : List (SysEvent ι UInt64)}

theorem reserves_length_eq_sum {W : Type} (log : List (SysEvent ι W)) :
    (reserves (ringLog log)).length = ∑ j, (pushes j log).length :=
  length_eq_sum_owned _

/-- No position is reserved that no event asks for. -/
theorem LoopsOk.reserves_length_le (h : LoopsOk cfg codec jobs s log) :
    (reserves (ringLog log)).length ≤ ∑ j, (jobs j).n.toNat := by
  rw [reserves_length_eq_sum]
  refine Finset.sum_le_sum fun j _ => ?_
  have hb := (h.producers j).booked
  have hl := hb.pushed.1.length_le
  rw [List.length_map] at hl
  exact hl.trans hb.bounded

theorem ScRun.windowed_of_total {as : List (SysAction ι)} {b : Nat}
    (h : ScRun cfg codec jobs Machine.free as s log) (hb : ∑ j, (jobs j).n.toNat < b) :
    ScRun cfg codec jobs (sysWindowed b) as s log := by
  obtain ⟨m, m', hm, hi, hrun⟩ := h
  refine ⟨m, m', hm, hi, hrun.strengthen (loopsOk_start m')
    (fun _ _ _ _ _ hI _ hs => LoopsOk.step hI hs) ?_⟩
  intro s log a hI _ j _ _ _ _ _
  exact Nat.lt_of_le_of_lt ((reservedSince_le j _).trans hI.reserves_length_le) hb

end Totals

/-! ### Every event once -/

/-- What a run of the system has done, at any point of it. -/
structure EndToEnd [Fintype ι] (cfg : RingConfig) (codec : Codec C) (jobs : ι → Job)
    (s : System ι C UInt64 Memory) (log : List (SysEvent ι UInt64)) : Prop where
  /-- Producers encode event 0, 1, ... -/
  numbered : ∀ j, (encodings j log).map Prod.fst =
    (List.range (encodings j log).length).map UInt64.ofNat
  bounded : ∀ j, (encodings j log).length ≤ (jobs j).n.toNat
  /-- They push what they encoded, once each and in order; the last one may still be ahead. -/
  pushed : ∀ j, pushes j log <+: (encodings j log).map Prod.snd ∧
    (encodings j log).length ≤ (pushes j log).length + 1
  returned : ∀ j, (s.producer j).pc = .returned →
    pushes j log = (encodings j log).map Prod.snd ∧ (encodings j log).length = (jobs j).n.toNat
  /-- The consumer pops them once each and in order. -/
  inOrder : ∀ j, processed j log <+: (pushes j log).map truncated
  fifo : popped log = ((reserves (ringLog log)).take (popped log).length).map fun r =>
    truncated r.2.1
  /-- And has counted all it popped, when it is not just doing so. -/
  counted : s.consumer.pc.accounting = false →
    s.consumer.stats = {
      events := UInt64.ofNat (popped log).length
      wireBytes := UInt64.ofNat (wireTotal (popped log))
      payloadBytes := UInt64.ofNat (payloadTotal cfg codec (popped log)) }
  events_le : s.consumer.stats.events.toNat ≤ ∑ j, (jobs j).n.toNat
  /-- Once the producers are done and head has come up to tail, that is everything. -/
  drained : (∀ j, (s.producer j).pc = .returned) →
    (segOps cfg).loadHead s.ring.mem = (segOps cfg).loadTail s.ring.mem →
    (popped log).length = ∑ j, (jobs j).n.toNat ∧
      (∀ j, processed j log = ((encodings j log).map Prod.snd).map truncated) ∧
      (s.consumer.pc.accounting = false →
        s.consumer.stats.events = UInt64.ofNat (∑ j, (jobs j).n.toNat))
  /-- Which is what a consumer outside its calls that sees nothing to pop may conclude. -/
  empty : (∀ j, (s.producer j).pc = .returned) → s.ring.pop.ready = true →
    ¬ (segOps cfg).HeadPublished s.ring.mem →
    (segOps cfg).loadHead s.ring.mem = (segOps cfg).loadTail s.ring.mem

/-- Every event is encoded, pushed, popped and counted once, as long as no producer stays between
a tail load and the comparisons made with it for 2^63 - num_slots reservations. -/
theorem end_to_end [Fintype ι] {cfg : RingConfig} {codec : Codec C} {jobs : ι → Job}
    {as : List (SysAction ι)} {s : System ι C UInt64 Memory} {log : List (SysEvent ι UInt64)}
    (hN : 2 ≤ cfg.N) (h : ScRun cfg codec jobs (sysWindowed (2 ^ 63 - cfg.N)) as s log) :
    EndToEnd cfg codec jobs s log := by
  have hloops := h.loopsOk
  obtain ⟨bs, hinit⟩ := h.initRun
  obtain ⟨u, ulog, hR⟩ := hinit.refines hN
  have hg := hinit.admitted
  have hf := hinit.fits
  have hbooked (j : ι) := (hloops.producers j).booked
  have hret (j : ι) (hj : (s.producer j).pc = .returned) : pushes j log =
      (encodings j log).map Prod.snd ∧
      (encodings j log).length = (jobs j).n.toNat := by
    have hok := hloops.producers j
    rw [hj] at hok
    exact ⟨Sent.pushed hok, Sent.length hok⟩
  have hcounted (hacc : s.consumer.pc.accounting = false) := hloops.consumer.books hacc
  refine ⟨fun j => (hbooked j).numbered, fun j => (hbooked j).bounded, fun j => (hbooked j).pushed,
    hret, processed_prefix hR, popped_eq hR, fun hacc => ?_, ?_, fun hall heq => ?_,
    fun hall hpop hpub => ?_⟩
  · have hb := hcounted hacc
    rw [← hb.events, ← hb.wireBytes, ← hb.payloadBytes]
  · exact (hloops.consumer.events_le.trans (popped_length_le hR)).trans hloops.reserves_length_le
  · have hlen : (popped log).length = (reserves (ringLog log)).length := by
      rw [popped, List.length_map, hR.pops_length, hR.reserves_length, head_eq_tail hg hR heq]
    have htotal : (popped log).length = ∑ j, (jobs j).n.toNat := by
      rw [hlen, reserves_length_eq_sum]
      refine Finset.sum_congr rfl fun j _ => ?_
      rw [(hret j (hall j)).1, List.length_map, (hret j (hall j)).2]
    refine ⟨htotal, fun j => ?_, fun hacc => ?_⟩
    · rw [processed_all hR hlen, (hret j (hall j)).1]
    · rw [(hcounted hacc).events, htotal]
  · have hready (j : ι) : (s.ring.push j).ready = true := by
      rw [hloops.calls.push, hall j]
      rfl
    have heq := drained_of_unpublished hg hf hR hready hpop hpub
    show s.ring.mem.load64 64 = s.ring.mem.load64 0
    rw [hR.sim.mem.head, hR.sim.mem.tail, heq]

/-- Two producers with two events each. -/
def twoEach (j : Bool) : Job where
  name := if j then "p1" else "p0"
  n := 2
  payload := if j then [8] else [7]

/-- The second producer overtakes the first in its `push`, and the second events go through the
slots of the first ones. -/
def fourDeliveries : List (SysAction Bool) :=
  List.replicate 4 (.producer false 0 false) ++ List.replicate 9 (.producer true 0 false) ++
    List.replicate 5 (.producer false 0 false) ++ List.replicate 21 .consumer ++
    List.replicate 9 (.producer true 0 false) ++ List.replicate 9 (.producer false 0 false) ++
    List.replicate 21 .consumer

theorem fourDeliveries_exec :
    ((init tiny blank).bind fun m =>
      (sysMachine tiny plain (sc (segOps tiny)) twoEach).exec
        (System.start tiny plain m, []) fourDeliveries).map (fun c =>
      decide ((∀ j, (c.1.producer j).pc = .returned) ∧ c.1.consumer.pc.accounting = false ∧
        popped c.2 = [[7], [8], [8], [7]])) = some true := by
  decide +kernel

theorem end_to_end_fourDeliveries : ∃ s log,
    ScRun tiny plain twoEach Machine.free fourDeliveries s log ∧
    EndToEnd tiny plain twoEach s log ∧ popped log = [[7], [8], [8], [7]] ∧
    s.consumer.stats = { events := 4, wireBytes := 4, payloadBytes := 4 } := by
  obtain ⟨c, hc, hd⟩ := Option.map_eq_some_iff.mp fourDeliveries_exec
  obtain ⟨m, hi, hrun⟩ := Option.bind_eq_some_iff.mp hc
  obtain ⟨_, hacc, hpopped⟩ := of_decide_eq_true hd
  have hrun : ScRun tiny plain twoEach Machine.free fourDeliveries c.1 c.2 :=
    ⟨blank, m, rfl, hi, Machine.run_of_exec hrun⟩
  have hend := end_to_end (by decide) (hrun.windowed_of_total (by decide))
  refine ⟨c.1, c.2, hrun, hend, hpopped, ?_⟩
  have hcounted := hend.counted hacc
  rw [hpopped] at hcounted
  exact hcounted

end ShmMpsc
