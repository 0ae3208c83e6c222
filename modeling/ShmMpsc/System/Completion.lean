import ShmMpsc.Lib.Fair
import ShmMpsc.System.Progress

/-!
# Everything arrives

Runs without end in which no task is left out for ever. What was reserved is popped, since the
consumer cannot go on without it; then there is room, and no producer can go on without reserving
what it still has to send.
-/

namespace ShmMpsc

set_option autoImplicit false

open RingConfig

variable {ι C : Type} [Fintype ι] [DecidableEq ι]

/-- A run of the system without end. -/
abbrev SysTrace (cfg : RingConfig) (codec : Codec C) (jobs : ι → Job) :=
  (sysMachine cfg codec (sc (segOps cfg)) jobs).Trace (stoppedLate jobs)

variable {cfg : RingConfig} {codec : Codec C} {jobs : ι → Job}

namespace SysTrace

/-- Producer `j` makes its CAS on `tail`. -/
def Tries (t : SysTrace cfg codec jobs) (j : ι) (k : Nat) : Prop :=
  (∃ data pos, (t.state k).ring.push j = .cas data pos) ∧ t.Takes (Task.run j).Acts k

/-- It begins with `init`, leaves no task out for ever, and does not let the
`compare_exchange_weak` of a producer fail for no reason every time. -/
structure Scheduled (t : SysTrace cfg codec jobs) : Prop where
  start : ∃ m m', m.size = cfg.total.toNat ∧ init cfg m = some m' ∧
    t.state 0 = System.start cfg codec m' ∧ t.log 0 = []
  tasks : ∀ task : Task ι, t.Fair task.Acts
  cas : ∀ j, (∀ n, ∃ k, n ≤ k ∧ t.Tries j k) →
    ∀ n, ∃ k, n ≤ k ∧ t.Tries j k ∧ ∃ now, t.act k = some (.producer j now false)

end SysTrace

/-- All events are encoded, popped in the order of their producers, and counted; every `run` has
returned and every notification is handled. -/
structure Completed (cfg : RingConfig) (codec : Codec C) (jobs : ι → Job)
    (s : System ι C UInt64 Memory) (log : List (SysEvent ι UInt64)) : Prop where
  returned : ∀ j, (s.producer j).pc = .returned
  encoded : ∀ j, (encodings j log).map Prod.fst =
    (List.range (jobs j).n.toNat).map UInt64.ofNat
  delivered : ∀ j, processed j log = ((encodings j log).map Prod.snd).map truncated
  total : (popped log).length = ∑ j, (jobs j).n.toNat
  stats : s.consumer.stats = {
    events := UInt64.ofNat (∑ j, (jobs j).n.toNat)
    wireBytes := UInt64.ofNat (wireTotal (popped log))
    payloadBytes := UInt64.ofNat (payloadTotal cfg codec (popped log)) }
  handled : ∀ j, (s.producer j).queue = [] ∧ (s.producer j).socket = []
  posted : s.postedCalls = UInt64.ofNat (winners log).length

/-- A state of a trace that reserves and pops no more. -/
structure Settled (cfg : RingConfig) (codec : Codec C) (jobs : ι → Job) (T H : Nat)
    (s : System ι C UInt64 Memory) (log : List (SysEvent ι UInt64)) : Prop where
  sound : Sound cfg codec jobs s log
  reserved : (reserves (ringLog log)).length = T
  popped : (popped log).length = H

section Steps

variable {T H : Nat} {s s' : System ι C UInt64 Memory} {log ev : List (SysEvent ι UInt64)}

theorem Settled.reserves_nil (h : Settled cfg codec jobs T H s log)
    (h' : Settled cfg codec jobs T H s' (log ++ ev)) : reserves (ringLog ev) = [] := by
  have hlen := h'.reserved
  rw [ringLog_append, reserves_append, List.length_append, h.reserved] at hlen
  exact List.length_eq_zero_iff.mp (by omega)

theorem Settled.popped_nil (h : Settled cfg codec jobs T H s log)
    (h' : Settled cfg codec jobs T H s' (log ++ ev)) : ShmMpsc.popped ev = [] := by
  have hlen := h'.popped
  rw [popped_append, List.length_append, h.popped] at hlen
  exact List.length_eq_zero_iff.mp (by omega)

theorem Settled.drained (h : Settled cfg codec jobs T T s log) : Drained log :=
  h.popped.trans h.reserved.symm

/-- A position that was loaded before the last reservation stays so. -/
theorem Settled.reservedSince_le (h : Settled cfg codec jobs T H s log)
    (h' : Settled cfg codec jobs T H s' (log ++ ev)) (j : ι) :
    reservedSince j (ringLog (log ++ ev)) ≤ reservedSince j (ringLog log) := by
  rw [ringLog_append]
  have hle := reservedSince_append_le j (ringLog log) (ringLog ev)
  rwa [h.reserves_nil h'] at hle

/-- The consumer sees the next message if it is published. -/
theorem Settled.sees (hg : cfg.Admitted) (hf : cfg.Fits) (hN : 2 ≤ cfg.N)
    (hsum : ∑ j, (jobs j).n.toNat < 2 ^ 63 - cfg.N) (h : Settled cfg codec jobs T H s log)
    (hpub : Published (ringLog log) (UInt64.ofNat H)) (out : List UInt8) (head seq : UInt64)
    (hpop : s.ring.pop = .loadSeq out head)
    (hseq : (segOps cfg).loadSeq head s.ring.mem = some seq) : seq = (segOps cfg).next head := by
  obtain ⟨u, ulog, hR⟩ := h.sound.ring
  have hpops : (pops (ringLog log)).length = H := by
    rw [← h.popped, ShmMpsc.popped, List.length_map]
  obtain ⟨_, hyes, _⟩ := hR.seqLoad hg hf hN hpop
  have hb := Nat.lt_of_le_of_lt h.sound.loops.reserves_length_le hsum
  have hu := (hR.published_length hb).mp (by rwa [hpops])
  have hstep := hyes hu
  by_contra hne
  have hempty : PopTrans (segOps cfg) (.loadSeq out head) s.ring.mem (.done none out) s.ring.mem
      [.none out] := .empty hseq hne
  simp [ringStep, hpop, hempty.step] at hstep

/-- What is neither published nor being written has not been reserved. -/
theorem Settled.all_popped (hN : 2 ≤ cfg.N) (hsum : ∑ j, (jobs j).n.toNat < 2 ^ 63 - cfg.N)
    (h : Settled cfg codec jobs T H s log) (hpub : ¬ Published (ringLog log) (UInt64.ofNat H))
    (hw : ∀ j, (s.ring.push j).writing = none) : H = T := by
  obtain ⟨u, ulog, hR⟩ := h.sound.ring
  have hpops : (pops (ringLog log)).length = H := by
    rw [← h.popped, ShmMpsc.popped, List.length_map]
  have hb := Nat.lt_of_le_of_lt h.sound.loops.reserves_length_le hsum
  have hnot : ¬ Published ulog H := by
    rw [← hpops] at hpub ⊢
    exact mt (hR.published_length hb).mpr hpub
  have hhead : u.mem.head = H := by rw [← hR.pops_length, hpops]
  have htail : u.mem.tail = T := by rw [← hR.reserves_length, h.reserved]
  have hle := hR.inv.freed_le
  rw [hR.inv.published] at hnot
  have hfreed : u.mem.head ≤ freed u := head_le_freed u
  by_contra hne
  rcases hR.inv.slot H (by omega) (by omega) with ⟨_, hwriter⟩ | ⟨hseq, _⟩
  · obtain ⟨j, data, hj⟩ := hwriter (by omega)
    have hnone := hw j
    rw [hR.sim.push j, PushPc.writing_map, hj] at hnone
    cases hnone
  · exact hnot (.inr ⟨by omega, hseq⟩)

theorem Settled.writing_nearer (h : Settled cfg codec jobs T H s log) {j : ι}
    {r : List UInt8 × UInt64} (hw : (s.ring.push j).writing = some r) {a : SysAction ι}
    (ha : (Task.run j).Acts a)
    (hs : sysStep cfg codec (sc (segOps cfg)) jobs s a = some (s', ev)) :
    stepsLeft 0 (s'.ring.push j) < stepsLeft 0 (s.ring.push j) := by
  cases a with
  | producer k now spurious =>
    obtain rfl : k = j := ha
    have hring := ringStep_of_inPush h.sound.loops.calls (not_ready_of_writing hw) hs
    generalize s'.ring = ring', ringLog ev = rev at hring ⊢
    cases ringTrans_of_step hring with | push htr
    simp only [Function.update_self]
    generalize s.ring.push k = pc at hw htr
    cases htr with
    | writeLen | writePayload | publish => simp [stepsLeft]
    | _ => cases hw
  | send | serve | drop | consumer | commit | stop => exact ha.elim

/-- Nobody's CAS succeeds, and one made with the last tail would. -/
theorem Settled.cas_step (hg : cfg.Admitted) (hf : cfg.Fits) (hN : 2 ≤ cfg.N)
    (hsum : ∑ j, (jobs j).n.toNat < 2 ^ 63 - cfg.N) (h : Settled cfg codec jobs T H s log)
    (h' : Settled cfg codec jobs T H s' (log ++ ev)) {j : ι} {data : List UInt8} {pos : UInt64}
    (hcas : s.ring.push j = .cas data pos) {now : UInt64} {spurious : Bool}
    (hs : sysStep cfg codec (sc (segOps cfg)) jobs s (.producer j now spurious) = some (s', ev)) :
    s'.ring.push j = .loadTail data ∧ (spurious = false → 0 < reservedSince j (ringLog log)) := by
  obtain ⟨u, ulog, hR⟩ := h.sound.ring
  have hready : (s.ring.push j).ready = false := by rw [hcas]; rfl
  have hnone := h.reserves_nil h'
  have hring := ringStep_of_inPush h.sound.loops.calls hready hs
  have hback : s'.ring.push j = .loadTail data := by
    generalize s'.ring = ring', ringLog ev = rev at hring hnone ⊢
    cases ringTrans_of_step hring with | push htr
    rw [hcas] at htr
    simp only [Function.update_self]
    cases htr with
    | spurious | lost => rfl
    | won => cases hnone
  refine ⟨hback, ?_⟩
  rintro rfl
  exact hR.reservedSince_pos hg hf hN (h.sound.windowed hsum _) hring hback
    (by simp [SpuriousFailure])

/-- Producer `j` works with the last tail, or is about to load it. -/
def Fresh (j : ι) (s : System ι C UInt64 Memory) (log : List (SysEvent ι UInt64)) : Prop :=
  (∃ data, s.ring.push j = .loadTail data) ∨ reservedSince j (ringLog log) = 0

theorem Settled.fresh_step (h : Settled cfg codec jobs T H s log)
    (h' : Settled cfg codec jobs T H s' (log ++ ev)) {j : ι} (hfresh : Fresh j s log)
    {a : SysAction ι} (hs : sysStep cfg codec (sc (segOps cfg)) jobs s a = some (s', ev)) :
    Fresh j s' (log ++ ev) := by
  have hle := h.reservedSince_le h' j
  rcases hfresh with ⟨data, hload⟩ | hzero
  · by_cases ha : (Task.run j).Acts a
    · cases a with
      | producer k now spurious =>
        obtain rfl : k = j := ha
        have hring := ringStep_of_inPush h.sound.loops.calls (by rw [hload]; rfl) hs
        refine .inr ?_
        rw [ringLog_append]
        generalize s'.ring = ring', ringLog ev = rev at hring ⊢
        cases ringTrans_of_step hring with | push htr
        rw [hload] at htr
        cases htr
        exact (reservedSince_tailLoad k k).trans (if_pos rfl)
      | send | serve | drop | consumer | commit | stop => exact ha.elim
    · exact .inl ⟨data, by rw [(producer_kept hs ha).2, hload]⟩
  · exact .inr (by omega)

/-- Whose loop is through has sent everything. -/
theorem Settled.total (h : Settled cfg codec jobs T H s log)
    (hthrough : ∀ j, (s.producer j).pc.through = true) :
    T = ∑ j, (jobs j).n.toNat ∧ ∀ j, Sent (jobs j).n (encodings j log) (pushes j log)
      (jobs j).n.toNat := by
  have hsent (j : ι) : Sent (jobs j).n (encodings j log) (pushes j log) (jobs j).n.toNat := by
    have hok := h.sound.loops.producers j
    have hpc := hthrough j
    generalize (s.producer j).pc = pc at hok hpc
    cases pc with
    | shutdown | returned => exact hok
    | _ => cases hpc
  refine ⟨?_, hsent⟩
  rw [← h.reserved, reserves_length_eq_sum]
  refine Finset.sum_congr rfl fun j _ => ?_
  rw [(hsent j).pushed, List.length_map, (hsent j).length]

end Steps

omit [Fintype ι] [DecidableEq ι] in
theorem popped_length_mono {log log' : List (SysEvent ι UInt64)} (h : log <+: log') :
    (popped log).length ≤ (popped log').length := by
  obtain ⟨ev, rfl⟩ := h
  rw [popped_append, List.length_append]
  exact Nat.le_add_right _ _

theorem stepsLeft_mono {W : Type} {stale stale' : Nat} (h : stale' ≤ stale) (pc : PushPc W) :
    stepsLeft stale' pc ≤ stepsLeft stale pc := by
  cases pc with
  | loadSeq | cas =>
    simp only [stepsLeft]
    split <;> split <;> omega
  | _ => exact Nat.le_refl _

theorem ProducerPc.left_mono {W : Type} {stale stale' : Nat} (h : stale' ≤ stale) (push : PushPc W)
    (pc : ProducerPc W) : pc.left stale' push ≤ pc.left stale push := by
  cases pc with
  | push => exact stepsLeft_mono h push
  | _ => exact Nat.le_refl _

section Scheduled

variable {t : SysTrace cfg codec jobs} (hN : 2 ≤ cfg.N)
  (hsum : ∑ j, (jobs j).n.toNat < 2 ^ 63 - cfg.N) (hsend : ∀ j, Sendable cfg codec (jobs j))
  (h : t.Scheduled)

include h

theorem SysTrace.Scheduled.admitted : cfg.Admitted := by
  obtain ⟨m, m', _, hi, _⟩ := h.start
  exact check_iff.mp (init_eq_some hi).1

theorem SysTrace.Scheduled.fits : cfg.Fits := by
  obtain ⟨m, m', hm, hi, _⟩ := h.start
  exact fits_of_init hm hi

include hN hsum hsend

theorem SysTrace.Scheduled.sound (k : Nat) : Sound cfg codec jobs (t.state k) (t.log k) := by
  obtain ⟨m, m', hm, hi, hs, hl⟩ := h.start
  obtain ⟨as, hrun⟩ := t.run (Nat.zero_le k)
  rw [hs, hl] at hrun
  have hsc : ScRun cfg codec jobs (stoppedLate jobs) as (t.state k) (t.log k) :=
    ⟨m, m', hm, hi, hrun⟩
  exact hsc.sound hN hsum hsend

/-- Reservations and pops come to an end. -/
theorem SysTrace.Scheduled.settles : ∃ n T H, ∀ k, n ≤ k →
    Settled cfg codec jobs T H (t.state k) (t.log k) := by
  have hsound := h.sound hN hsum hsend
  have hreserves : ∀ k, (reserves (ringLog (t.log k))).length ≤ ∑ j, (jobs j).n.toNat :=
    fun k => (hsound k).loops.reserves_length_le
  have hpopped : ∀ k, (popped (t.log k)).length ≤ ∑ j, (jobs j).n.toNat := by
    intro k
    obtain ⟨u, ulog, hR⟩ := (hsound k).ring
    exact (popped_length_le hR).trans (hreserves k)
  have hmono : ∀ l l' : List (SysEvent ι UInt64), l <+: l' →
      (reserves (ringLog l)).length ≤ (reserves (ringLog l')).length := by
    rintro l _ ⟨l', rfl⟩
    simp
  obtain ⟨n, hn⟩ := t.settles hmono hreserves
  obtain ⟨n', hn'⟩ := t.settles (fun _ _ => popped_length_mono) hpopped
  refine ⟨max n n', _, _, fun k hk => ⟨hsound k, hn k (by omega), hn' k (by omega)⟩⟩

variable {T H n k : Nat}

omit hsend in
/-- A published message does not wait for ever. -/
theorem SysTrace.Scheduled.not_published (hstop : ∀ k, (t.state k).stop = false)
    (hset : ∀ k, n ≤ k → Settled cfg codec jobs T H (t.state k) (t.log k)) (hk : n ≤ k) :
    ¬ Published (ringLog (t.log k)) (UInt64.ofNat H) := by
  intro hpub
  have hg := h.admitted
  have hf := h.fits
  have hnever : ∃ k', k ≤ k' ∧ False := by
    refine Machine.Trace.leads_to (h.tasks .consumer) (Q := fun _ _ => False)
      (I := fun s log => (Settled cfg codec jobs T H s log ∧ s.stop = false) ∧
        Published (ringLog log) (UInt64.ofNat H))
      (fun s _ => s.consumer.pc.left s.ring.pop) ?_ ?_ ?_ ?_
    · intro k' hk'
      obtain ⟨ev, hev⟩ := t.log_prefix hk'
      refine ⟨⟨hset k' (by omega), hstop k'⟩, ?_⟩
      rw [← hev, ringLog_append]
      exact published_append.mpr (.inl hpub)
    · rintro s log ⟨⟨hs, hst⟩, _⟩ _
      refine ⟨.consumer, trivial, nofun, hs.sound.consumer_open hg hf hN fun hret => ?_⟩
      rw [hs.sound.halted hret] at hst
      cases hst
    · intro s log a s' ev _ _ _ ha _ hstep
      obtain ⟨hc, hp⟩ := consumer_kept hstep ha
      exact .inr (by rw [hc, hp])
    · rintro s log a s' ev ⟨⟨hs, _⟩, hpub⟩ ⟨⟨hs', _⟩, _⟩ _ ha _ hstep
      cases sysTrans_of_step hstep with
      | producer | send | serve | drop | commit | stop => exact ha.elim
      | @consumer c pop m _ ht =>
        rcases ht.nearer (hs.sees hg hf hN hsum hpub) with hp | hlt
        · exact absurd (hs.popped_nil hs') hp
        · exact .inr hlt
  obtain ⟨_, _, hfalse⟩ := hnever
  exact hfalse

omit hsend in
theorem SysTrace.Scheduled.written
    (hset : ∀ k, n ≤ k → Settled cfg codec jobs T H (t.state k) (t.log k)) :
    ∃ k, n ≤ k ∧ ∀ k', k ≤ k' → ∀ j, ((t.state k').ring.push j).writing = none := by
  have hg := h.admitted
  have hf := h.fits
  refine Machine.Trace.all_stay (Q := fun j s _ => (s.ring.push j).writing = none) hset
    ?_ fun j => ?_
  · intro j s log a s' ev hs hs' hw _ hstep
    rcases writing_step hstep hw with hw' | hone
    · exact hw'
    · rw [hs.reserves_nil hs'] at hone
      cases hone
  · refine Machine.Trace.leads_to (h.tasks (.run j))
      (Q := fun s _ => (s.ring.push j).writing = none)
      (fun s _ => stepsLeft 0 (s.ring.push j)) hset ?_ ?_ ?_
    · intro s log hs hw
      obtain ⟨r, hr⟩ := Option.ne_none_iff_exists'.mp hw
      have hsome := hs.sound.push_open hg hf hN hsum (not_ready_of_writing hr) 0 false
      exact ⟨.producer j 0 false, rfl, nofun, hsome⟩
    · intro s log a s' ev _ _ _ ha _ hstep
      exact .inr (by rw [(producer_kept hstep ha).2])
    · intro s log a s' ev hs _ hw ha _ hstep
      obtain ⟨r, hr⟩ := Option.ne_none_iff_exists'.mp hw
      exact .inr (hs.writing_nearer hr ha hstep)

/-- All that is ever reserved is popped. -/
theorem SysTrace.Scheduled.drained : ∃ n T, ∀ k, n ≤ k →
    Settled cfg codec jobs T T (t.state k) (t.log k) := by
  obtain ⟨n, T, H, hset⟩ := h.settles hN hsum hsend
  by_cases hstop : ∀ k, (t.state k).stop = false
  · obtain ⟨k, hk, hw⟩ := h.written hN hsum hset
    have hnot := h.not_published hN hsum hstop hset hk
    have heq := (hset k hk).all_popped hN hsum hnot (hw k (Nat.le_refl k))
    exact ⟨n, T, fun k hk => heq ▸ hset k hk⟩
  · -- who stored stop had seen them all counted
    obtain ⟨k, hk⟩ := not_forall.mp hstop
    have hsound := h.sound hN hsum hsend
    have hall := (hsound k).stopped (Bool.not_eq_false _ ▸ hk)
    have hk' := hset (max n k) (Nat.le_max_left n k)
    have hmono := popped_length_mono (t.log_prefix (Nat.le_max_right n k))
    have hle := hk'.sound.loops.reserves_length_le
    obtain ⟨u, ulog, hR⟩ := hk'.sound.ring
    have hpopped := popped_length_le hR
    have hH := hk'.popped
    have hT := hk'.reserved
    obtain rfl : H = T := by omega
    exact ⟨n, H, hset⟩

section Producers

variable (hset : ∀ k, n ≤ k → Settled cfg codec jobs T T (t.state k) (t.log k))
include hset

omit hsend in
/-- With room in the ring, who is not through with its loop comes to its CAS. -/
theorem SysTrace.Scheduled.comes_to_cas {j : ι}
    (hnot : ∀ k, n ≤ k → ((t.state k).producer j).pc.through = false) :
    ∃ k, n ≤ k ∧ ∃ data pos, (t.state k).ring.push j = .cas data pos := by
  have hg := h.admitted
  have hf := h.fits
  refine Machine.Trace.leads_to (h.tasks (.run j))
    (I := fun s log => Settled cfg codec jobs T T s log ∧ (s.producer j).pc.through = false)
    (Q := fun s _ => ∃ data pos, s.ring.push j = .cas data pos)
    (fun s log => (s.producer j).pc.left (reservedSince j (ringLog log)) (s.ring.push j))
    (fun k hk => ⟨hset k hk, hnot k hk⟩) ?_ ?_ ?_
  · rintro s log ⟨hs, hpc⟩ _
    refine ⟨.producer j 0 false, rfl, nofun, hs.sound.producer_open hg hf hN hsum ?_ ?_ 0 false⟩
    · intro heq
      rw [heq] at hpc
      cases hpc
    · intro heq
      rw [heq] at hpc
      cases hpc
  · rintro s log a s' ev ⟨hs, _⟩ ⟨hs', _⟩ _ ha _ hstep
    obtain ⟨hpc, hpush⟩ := producer_kept hstep ha
    rw [hpc, hpush]
    exact .inr (ProducerPc.left_mono (hs.reservedSince_le hs' j) _ _)
  · rintro s log a s' ev ⟨hs, hpc⟩ ⟨hs', hpc'⟩ hcas ha _ hstep
    cases a with
    | producer k now spurious =>
      obtain rfl : k = j := ha
      have hne : (s.producer k).pc ≠ .shutdown := by
        intro heq
        rw [heq] at hpc
        cases hpc
      rcases hs.sound.producer_nearer hg hf hN hsum hs'.sound hs.drained
        (fun data pos heq => hcas ⟨data, pos, heq⟩) hne hstep with hend | hlt
      · rw [hend] at hpc'
        cases hpc'
      · exact .inr hlt
    | send | serve | drop | consumer | commit | stop => exact ha.elim

omit hsend in
theorem SysTrace.Scheduled.tries {j : ι}
    (hnot : ∀ k, n ≤ k → ((t.state k).producer j).pc.through = false) (k : Nat) :
    ∃ k', k ≤ k' ∧ n ≤ k' ∧ t.Tries j k' := by
  have hg := h.admitted
  have hf := h.fits
  have hset' : ∀ k', max n k ≤ k' → Settled cfg codec jobs T T (t.state k') (t.log k') :=
    fun k' hk' => hset k' (by omega)
  obtain ⟨i, hi, hcas⟩ := h.comes_to_cas hN hsum hset' (j := j) fun k' hk' => hnot k' (by omega)
  obtain ⟨k', hk', htries⟩ := Machine.Trace.taken (h.tasks (.run j))
    (P := fun k => ∃ data pos, (t.state k).ring.push j = .cas data pos) hcas (by
      rintro k' hk' ⟨data, pos, hpush⟩
      constructor
      · have hready : ((t.state k').ring.push j).ready = false := by rw [hpush]; rfl
        have hsome := (hset k' (by omega)).sound.push_open hg hf hN hsum hready 0 false
        exact Machine.Trace.not_blocked (a := .producer j 0 false) rfl nofun hsome
      · intro hidle
        rcases t.step_cases k' with ⟨_, hs, _⟩ | ⟨a, ev, hact, _, hstep, _⟩
        · exact ⟨data, pos, by rw [hs, hpush]⟩
        · have ha : ¬ (Task.run j).Acts a := fun ha => hidle ⟨a, hact, ha⟩
          exact ⟨data, pos, by rw [(producer_kept hstep ha).2, hpush]⟩)
  exact ⟨k', by omega, by omega, htries⟩

omit hsend in
theorem SysTrace.Scheduled.comes_through (j : ι) :
    ∃ k, n ≤ k ∧ ((t.state k).producer j).pc.through = true := by
  by_contra hnever
  have hg := h.admitted
  have hf := h.fits
  have hnot : ∀ k, n ≤ k → ((t.state k).producer j).pc.through = false := fun k hk =>
    Bool.not_eq_true _ ▸ fun hpc => hnever ⟨k, hk, hpc⟩
  have htries := h.tries hN hsum hset hnot
  have hstep : ∀ k, n ≤ k → t.Tries j k → ∃ data now spurious,
      t.act k = some (.producer j now spurious) ∧
      (t.state (k + 1)).ring.push j = .loadTail data ∧
      (spurious = false → 0 < reservedSince j (ringLog (t.log k))) := by
    rintro k hk ⟨⟨data, pos, hcas⟩, a, hact, ha⟩
    have hset' := hset (k + 1) (by omega)
    rcases t.step_cases k with ⟨hnone, _, _⟩ | ⟨b, ev, hact', _, hs, hl⟩
    · rw [hnone] at hact
      cases hact
    · obtain rfl : a = b := Option.some.inj (hact.symm.trans hact')
      cases a with
      | producer i now spurious =>
        obtain rfl : i = j := ha
        rw [hl] at hset'
        obtain ⟨hback, hpos⟩ := (hset k hk).cas_step hg hf hN hsum hset' hcas hs
        exact ⟨data, now, spurious, hact, hback, hpos⟩
      | send | serve | drop | consumer | commit | stop => exact ha.elim
  obtain ⟨k, _, hk, htry⟩ := htries n
  obtain ⟨data, _, _, _, hback, _⟩ := hstep k hk htry
  -- from here on the producer works with the last tail
  have hfresh : ∀ k', k + 1 ≤ k' → Fresh j (t.state k') (t.log k') := fun k' hk' =>
    t.stable hset (fun _ _ _ _ _ hs hs' hQ _ hstep => hs.fresh_step hs' hQ hstep) (by omega) hk'
      (.inl ⟨data, hback⟩)
  obtain ⟨k', hk', htry', now, hact⟩ := h.cas j (fun i => by
    obtain ⟨i', hi, _, htry⟩ := htries i
    exact ⟨i', hi, htry⟩) (k + 1)
  obtain ⟨_, _, spurious, hact', _, hpos⟩ := hstep k' (by omega) htry'
  rw [hact] at hact'
  cases hact'
  have hpos := hpos rfl
  obtain ⟨⟨_, _, hcas⟩, _⟩ := htry'
  rcases hfresh k' hk' with ⟨_, hload⟩ | hzero
  · rw [hcas] at hload
    cases hload
  · omega

end Producers

/-! ### The end -/

/-- Every loop is through, and what `Q` says of every producer holds. -/
def Ended (cfg : RingConfig) (codec : Codec C) (jobs : ι → Job) (T : Nat)
    (Q : Producer C UInt64 → Prop) (s : System ι C UInt64 Memory) (log : List (SysEvent ι UInt64)) :
    Prop :=
  Settled cfg codec jobs T T s log ∧ ∀ j, (s.producer j).pc.through = true ∧ Q (s.producer j)

omit hN hsum hsend in
theorem SysTrace.Scheduled.writes_out
    (hend : ∀ k, n ≤ k → Ended cfg codec jobs T (fun _ => True) (t.state k) (t.log k)) :
    ∃ k, n ≤ k ∧ ∀ k', k ≤ k' → Ended cfg codec jobs T (fun p => p.queue = [])
      (t.state k') (t.log k') := by
  have hqueues : ∃ k, n ≤ k ∧ ∀ k', k ≤ k' → ∀ j, ((t.state k').producer j).queue = [] := by
    refine Machine.Trace.all_stay (Q := fun j s _ => (s.producer j).queue = []) hend ?_ fun j => ?_
    · intro j s log a s' ev hs _ hq _ hstep
      by_cases ha : (Task.writer j).Acts a
      · have hlt := queue_sent hstep ha
        rw [hq] at hlt
        cases hlt
      · obtain ⟨hfail, hsig⟩ := ProducerPc.through_not (hs.2 j).1
        rw [queue_kept hstep hfail hsig ha, hq]
    · refine Machine.Trace.leads_to (h.tasks (.writer j))
        (Q := fun s _ => (s.producer j).queue = [])
        (fun s _ => (s.producer j).queue.length) hend ?_ ?_ ?_
      · intro s log _ hq
        obtain ⟨seq, rest, hcons⟩ := List.exists_cons_of_ne_nil hq
        exact ⟨.send j, rfl, nofun, by simp [sysMachine, sysStep, sendStep, hcons]⟩
      · intro s log a s' ev hs _ _ ha _ hstep
        obtain ⟨hfail, hsig⟩ := ProducerPc.through_not (hs.2 j).1
        exact .inr (by rw [queue_kept hstep hfail hsig ha])
      · intro s log a s' ev _ _ _ ha _ hstep
        exact .inr (queue_sent hstep ha)
  obtain ⟨k, hk, hall⟩ := hqueues
  exact ⟨k, hk,
    fun k' hk' => ⟨(hend k' (by omega)).1, fun j => ⟨((hend k' (by omega)).2 j).1, hall k' hk' j⟩⟩⟩

omit hsend in
/-- With nothing left to write out `run` returns. -/
theorem SysTrace.Scheduled.returns
    (hend : ∀ k, n ≤ k → Ended cfg codec jobs T (fun p => p.queue = []) (t.state k) (t.log k)) :
    ∃ k, n ≤ k ∧ ∀ k', k ≤ k' → ∀ j, ((t.state k').producer j).pc = .returned := by
  have hg := h.admitted
  have hf := h.fits
  refine Machine.Trace.all_stay (Q := fun j s _ => (s.producer j).pc = .returned) hend
    ?_ fun j => ?_
  · intro j s log a s' ev _ _ hret _ hstep
    exact returned_step hstep hret
  · refine Machine.Trace.leads_to (h.tasks (.run j)) (Q := fun s _ => (s.producer j).pc = .returned)
      (fun _ _ => 0) hend ?_ ?_ ?_
    · intro s log hs hret
      have hq := (hs.2 j).2
      exact ⟨.producer j 0 false, rfl, nofun,
        hs.1.sound.producer_open hg hf hN hsum hret (fun _ => hq) 0 false⟩
    · exact fun _ _ _ _ _ _ _ _ _ _ _ => .inr (Nat.le_refl _)
    · intro s log a s' ev hs _ _ ha _ hstep
      exact .inl (return_step hstep ha (hs.2 j).1)

omit hN hsum hsend in
theorem SysTrace.Scheduled.handles
    (hend : ∀ k, n ≤ k → Ended cfg codec jobs T (fun p => p.queue = []) (t.state k) (t.log k)) :
    ∃ k, n ≤ k ∧ ∀ k', k ≤ k' → ∀ j, ((t.state k').producer j).socket = [] := by
  refine Machine.Trace.all_stay (Q := fun j s _ => (s.producer j).socket = []) hend ?_ fun j => ?_
  · intro j s log a s' ev hs _ hsock _ hstep
    by_cases ha : (Task.serve j).Acts a
    · have hlt := unserved_lt hstep ha
      simp [Producer.unserved, hsock] at hlt
    · rw [(socket_kept hstep (hs.2 j).2 ha).1, hsock]
  · refine Machine.Trace.leads_to (h.tasks (.serve j)) (Q := fun s _ => (s.producer j).socket = [])
      (fun s _ => (s.producer j).unserved) hend ?_ ?_ ?_
    · intro s log _ hsock
      obtain ⟨seq, rest, hcons⟩ := List.exists_cons_of_ne_nil hsock
      refine ⟨.serve j, rfl, fun hs => absurd hs (by simp), ?_⟩
      simp only [sysMachine, sysStep, serveStep, hcons, Option.isSome_map]
      split <;> rfl
    · intro s log a s' ev hs _ _ ha _ hstep
      obtain ⟨hsock, hcounted⟩ := socket_kept hstep (hs.2 j).2 ha
      exact .inr (by rw [Producer.unserved, hsock, hcounted, ← Producer.unserved])
    · intro s log a s' ev _ _ _ ha _ hstep
      exact .inr (unserved_lt hstep ha)

omit hsum hsend in
/-- The consumer gets through with the statistics of what it has popped. -/
theorem SysTrace.Scheduled.accounts
    (hset : ∀ k, n ≤ k → Settled cfg codec jobs T T (t.state k) (t.log k)) :
    ∃ k, n ≤ k ∧ ∀ k', k ≤ k' → (t.state k').consumer.pc.accounting = false := by
  have hg := h.admitted
  have hf := h.fits
  have hone : ∃ k, n ≤ k ∧ (t.state k).consumer.pc.accounting = false := by
    refine Machine.Trace.leads_to (h.tasks .consumer)
      (Q := fun s _ => s.consumer.pc.accounting = false)
      (fun s _ => s.consumer.pc.left s.ring.pop) hset ?_ ?_ ?_
    · intro s log hs hacc
      refine ⟨.consumer, trivial, nofun, hs.sound.consumer_open hg hf hN fun hret => hacc ?_⟩
      rw [hret]
      rfl
    · intro s log a s' ev _ _ _ ha _ hstep
      obtain ⟨hc, hp⟩ := consumer_kept hstep ha
      exact .inr (by rw [hc, hp])
    · intro s log a s' ev hs hs' hacc ha _ hstep
      cases sysTrans_of_step hstep with
      | producer | send | serve | drop | commit | stop => exact ha.elim
      | @consumer c pop m _ ht =>
        have hready := hs.sound.loops.calls.pop
        have hout : s.consumer.pc.inPop = false := by
          by_contra hin
          exact hacc (ConsumerPc.accounting_of_inPop (Bool.not_eq_false _ ▸ hin))
        rw [hout] at hready
        rcases ht.nearer
          (fun out head seq hpop _ => by rw [hpop] at hready; cases hready) with hp | hlt
        · exact absurd (hs.popped_nil hs') hp
        · exact .inr hlt
  obtain ⟨k, hk, hacc⟩ := hone
  refine ⟨k, hk, fun k' hk' => t.stable (Q := fun s _ => s.consumer.pc.accounting = false)
    hset ?_ hk hk'
    hacc⟩
  intro s log a s' ev hs hs' hacc _ hstep
  by_cases ha : (Task.consumer : Task ι).Acts a
  · cases sysTrans_of_step hstep with
    | producer | send | serve | drop | commit | stop => exact ha.elim
    | consumer ht =>
      rcases ht.accounting hacc with hp | hacc'
      · exact absurd (hs.popped_nil hs') hp
      · exact hacc'
  · rw [(consumer_kept hstep ha).1]
    exact hacc

end Scheduled

theorem Sound.posted {s : System ι C UInt64 Memory} {log : List (SysEvent ι UInt64)}
    (h : Sound cfg codec jobs s log) (hpc : ∀ j, (s.producer j).pc.through = true)
    (hq : ∀ j, (s.producer j).queue = []) (hsock : ∀ j, (s.producer j).socket = []) :
    s.postedCalls = UInt64.ofNat (winners log).length := by
  have hperm : ((counted log).map Prod.fst).Perm (winners log) := by
    refine List.perm_iff_count.mpr fun j => ?_
    obtain ⟨hfail, hsig⟩ := ProducerPc.through_not (hpc j)
    have hrelay := h.notes.relay j
    obtain ⟨lost, hsent, hlost⟩ := hrelay.sent
    have hwins := hrelay.wins
    have hcounts := hrelay.counts
    rw [hsig] at hwins
    rw [hsock j, hq j, hlost hfail] at hsent
    rw [hsock j] at hcounts
    rw [count_map_fst, hwins, hcounts, hsent]
    simp
  rw [h.notes.calls, ← hperm.length_eq, List.length_map]

/-- Nothing is left to do but to stop the consumer. -/
structure Finished (cfg : RingConfig) (codec : Codec C) (jobs : ι → Job)
    (s : System ι C UInt64 Memory) (log : List (SysEvent ι UInt64)) : Prop where
  settled : ∃ T, Settled cfg codec jobs T T s log
  returned : ∀ j, (s.producer j).pc = .returned
  queue : ∀ j, (s.producer j).queue = []
  socket : ∀ j, (s.producer j).socket = []
  accounted : s.consumer.pc.accounting = false

theorem SysTrace.Scheduled.finishes (hN : 2 ≤ cfg.N)
    (hsum : ∑ j, (jobs j).n.toNat < 2 ^ 63 - cfg.N) (hsend : ∀ j, Sendable cfg codec (jobs j))
    {t : SysTrace cfg codec jobs} (h : t.Scheduled) :
    ∃ n, ∀ k, n ≤ k → Finished cfg codec jobs (t.state k) (t.log k) := by
  obtain ⟨n₀, T, hset⟩ := h.drained hN hsum hsend
  obtain ⟨n₁, hn₁, hthrough⟩ := Machine.Trace.all_stay
    (Q := fun j s _ => (s.producer j).pc.through = true) hset
    (fun _ _ _ _ _ _ _ _ hpc _ hstep => through_step hstep hpc)
    fun j => h.comes_through hN hsum hset j
  have hend : ∀ k, n₁ ≤ k → Ended cfg codec jobs T (fun _ => True) (t.state k) (t.log k) :=
    fun k hk => ⟨hset k (by omega), fun j => ⟨hthrough k hk j, trivial⟩⟩
  obtain ⟨n₂, hn₂, hend⟩ := h.writes_out hend
  obtain ⟨n₃, hn₃, hret⟩ := h.returns hN hsum hend
  obtain ⟨n₄, hn₄, hsock⟩ := h.handles hend
  obtain ⟨n₅, hn₅, hacc⟩ := h.accounts hN hset
  exact ⟨max n₃ (max n₄ n₅), fun k hk => ⟨⟨T, hset k (by omega)⟩, hret k (by omega),
    fun j => ((hend k (by omega)).2 j).2, hsock k (by omega), hacc k (by omega)⟩⟩

theorem Finished.completed {s : System ι C UInt64 Memory} {log : List (SysEvent ι UInt64)}
    (h : Finished cfg codec jobs s log) : Completed cfg codec jobs s log := by
  obtain ⟨T, hset⟩ := h.settled
  have hthrough (j : ι) : (s.producer j).pc.through = true := by
    rw [h.returned j]
    rfl
  obtain ⟨htotal, hsent⟩ := hset.total hthrough
  obtain ⟨u, ulog, hR⟩ := hset.sound.ring
  have hbooks := hset.sound.loops.consumer.books h.accounted
  have hpopped : (popped log).length = ∑ j, (jobs j).n.toNat := by rw [hset.popped, htotal]
  refine ⟨h.returned, fun j => (hsent j).numbered, fun j => ?_, hpopped, ?_,
    fun j => ⟨h.queue j, h.socket j⟩, hset.sound.posted hthrough h.queue h.socket⟩
  · rw [processed_all hR hset.drained, (hsent j).pushed]
  · rw [← hpopped, ← hbooks.events, ← hbooks.wireBytes, ← hbooks.payloadBytes]

/-- Scheduled fairly, the system delivers and counts every event, every `run` returns, every
notification is handled, and that stays so; `stop` may be stored once all events are popped. -/
theorem all_complete (hN : 2 ≤ cfg.N) (hsum : ∑ j, (jobs j).n.toNat < 2 ^ 63 - cfg.N)
    (hsend : ∀ j, Sendable cfg codec (jobs j)) (t : SysTrace cfg codec jobs) (h : t.Scheduled) :
    ∃ n, ∀ k, n ≤ k → Completed cfg codec jobs (t.state k) (t.log k) := by
  obtain ⟨n, hfinished⟩ := h.finishes hN hsum hsend
  exact ⟨n, fun k hk => (hfinished k hk).completed⟩

/-! ### Everybody in turn -/

def inTurn (n : Nat) : SysAction Bool :=
  match n % 7 with
  | 0 => .producer false 0 false
  | 1 => .producer true 0 false
  | 2 => .send false
  | 3 => .send true
  | 4 => .serve false
  | 5 => .serve true
  | _ => .consumer

theorem inTurn_back (task : Task Bool) (n : Nat) : ∃ k, n ≤ k ∧ task.Acts (inTurn k) := by
  have hmod (i : Nat) (hi : i < 7) : (7 * n + i) % 7 = i := by omega
  have hturn (i : Nat) (hi : i < 7) : n ≤ 7 * n + i := by omega
  cases task with
  | run j =>
    cases j with
    | false => exact ⟨7 * n + 0, hturn 0 (by decide), by rw [inTurn, hmod 0 (by decide)]; rfl⟩
    | true => exact ⟨7 * n + 1, hturn 1 (by decide), by rw [inTurn, hmod 1 (by decide)]; rfl⟩
  | writer j =>
    cases j with
    | false => exact ⟨7 * n + 2, hturn 2 (by decide), by rw [inTurn, hmod 2 (by decide)]; rfl⟩
    | true => exact ⟨7 * n + 3, hturn 3 (by decide), by rw [inTurn, hmod 3 (by decide)]; rfl⟩
  | serve j =>
    cases j with
    | false => exact ⟨7 * n + 4, hturn 4 (by decide), by rw [inTurn, hmod 4 (by decide)]; rfl⟩
    | true => exact ⟨7 * n + 5, hturn 5 (by decide), by rw [inTurn, hmod 5 (by decide)]; rfl⟩
  | consumer => exact ⟨7 * n + 6, hturn 6 (by decide), by rw [inTurn, hmod 6 (by decide)]; trivial⟩

theorem inTurn_ne_stop (n : Nat) : inTurn n ≠ .stop := by
  unfold inTurn
  split <;> exact nofun

theorem inTurn_producer {n : Nat} {j : Bool} (h : (Task.run j).Acts (inTurn n)) :
    inTurn n = .producer j 0 false := by
  unfold inTurn at h ⊢
  split at h <;> first | exact h.elim | exact congrArg (SysAction.producer · 0 false) h

theorem twoEach_sendable (j : Bool) : Sendable tiny plain (twoEach j) := by
  intro c _ _ _ _
  refine ⟨c, (twoEach j).payload, rfl, ?_⟩
  cases j <;> decide

/-- `twoEach` with everybody in turn. -/
def turns (m : Memory) : SysTrace tiny plain twoEach :=
  .ofSchedule _ (System.start tiny plain m, []) inTurn fun n _ _ h => absurd h (inTurn_ne_stop n)

theorem turns_scheduled {m : Memory} (hi : init tiny blank = some m) : (turns m).Scheduled := by
  have hg : tiny.Admitted := check_iff.mp (init_eq_some hi).1
  have hf : tiny.Fits := fits_of_init rfl hi
  have hsum : ∑ j, (twoEach j).n.toNat < 2 ^ 63 - tiny.N := by decide
  have hsound (k : Nat) : Sound tiny plain twoEach ((turns m).state k) ((turns m).log k) := by
    obtain ⟨as, hrun⟩ := (turns m).run (Nat.zero_le k)
    exact ScRun.sound (by decide) hsum twoEach_sendable ⟨blank, m, rfl, hi, hrun⟩
  refine ⟨⟨blank, m, rfl, hi, rfl, rfl⟩, fun task => ?_, fun j hall n => ?_⟩
  · refine Machine.Trace.fair_ofSchedule _ (inTurn_back task) fun n a hn ha hnone => ?_
    by_cases hrun : ∃ j, task = .run j
    · obtain ⟨j, rfl⟩ := hrun
      cases a with
      | producer i now spurious =>
        obtain rfl : i = j := ha
        rw [inTurn_producer hn] at hnone
        exact (hsound n).producer_alike hg hf (by decide) hsum hnone
      | send | serve | drop | consumer | commit | stop => exact ha.elim
    · rwa [Task.acts_eq (fun j h => hrun ⟨j, h⟩) ha hn]
  · obtain ⟨k, hk, htry⟩ := hall n
    refine ⟨k, hk, htry, 0, ?_⟩
    obtain ⟨_, a, hact, ha⟩ := htry
    rw [hact]
    simp only [turns, Machine.Trace.ofSchedule, Machine.followed] at hact
    split at hact
    · obtain rfl := Option.some.inj hact
      exact congrArg some (inTurn_producer ha)
    · cases hact

theorem all_complete_inTurn : ∃ t : SysTrace tiny plain twoEach, t.Scheduled ∧
    ∃ n, ∀ k, n ≤ k → Completed tiny plain twoEach (t.state k) (t.log k) := by
  obtain ⟨c, hc, _⟩ := Option.map_eq_some_iff.mp fourDeliveries_exec
  obtain ⟨m, hi, _⟩ := Option.bind_eq_some_iff.mp hc
  have hsched := turns_scheduled hi
  exact ⟨turns m, hsched, all_complete (by decide) (by decide) twoEach_sendable _ hsched⟩

end ShmMpsc
