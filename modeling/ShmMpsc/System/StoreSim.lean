import ShmMpsc.Ring.Simulation
import ShmMpsc.System.StoreRing

/-!
# The bytes behind store buffers

The segment with its store buffers shows the unbounded ring that lags: the memories as
without buffers, the buffers store by store. Every access of a thread acts on what the
thread sees, where the words it compares are close.
-/

namespace ShmMpsc

set_option autoImplicit false

open RingConfig

/-! ### Renaming positions -/

section Map

variable {W V : Type} (f : W → V)

def Store.map : Store W → Store V
  | .seq pos v => .seq (f pos) (f v)
  | .len pos v => .len (f pos) v
  | .payload pos bs => .payload (f pos) bs
  | .head v => .head (f v)
  | .state v => .state v

@[simp] theorem PushPc.locked_map (spurious : Bool) (pc : PushPc W) :
    (pc.map f).locked spurious = pc.locked spurious := by
  cases pc <;> rfl

end Map

variable {cfg : RingConfig} {τ : Type}

theorem PushPc.store_map (pc : PushPc Nat) : (pc.map UInt64.ofNat).store (segOps cfg) =
    (pc.store (unbounded cfg)).map (Store.map UInt64.ofNat) := by
  cases pc with
  | publish data pos =>
    show some (Store.seq _ (UInt64.ofNat pos + 1)) = some (Store.seq _ (UInt64.ofNat (pos + 1)))
    rw [ofNat_succ]
  | _ => rfl

theorem PopPc.store_map (pc : PopPc Nat) : (pc.map UInt64.ofNat).store (segOps cfg) =
    (pc.store (unbounded cfg)).map (Store.map UInt64.ofNat) := by
  cases pc with
  | release out head =>
    show some (Store.seq _ (UInt64.ofNat head + cfg.numSlots)) =
      some (Store.seq _ (UInt64.ofNat (head + cfg.N)))
    rw [ofNat_add_numSlots]
  | storeHead out head =>
    show some (Store.head (UInt64.ofNat head + 1)) = some (Store.head (UInt64.ofNat (head + 1)))
    rw [ofNat_succ]
  | _ => rfl

/-! ### The memory and its buffers -/

/-- The buffered segment `b` shows the buffered unbounded memory `w`. -/
structure StoreSim (cfg : RingConfig) (b : Buffered τ (Store UInt64) Memory)
    (w : Buffered τ (Store Nat) UMem) : Prop where
  mem : MemSim cfg b.mem w.mem
  buf : ∀ t, b.buf t = (w.buf t).map (Store.map UInt64.ofNat)

section Access

variable (hg : cfg.Admitted) (hf : cfg.Fits) {m : Memory} {u : UMem}
  {b : Buffered τ (Store UInt64) Memory} {w : Buffered τ (Store Nat) UMem}

include hg hf

theorem store_sim (h : MemSim cfg m u) {e : Store Nat} (he : e.Fits (cfg.S - 20)) :
    ∃ m' u', (e.map UInt64.ofNat).apply (segOps cfg) m = some m' ∧
      e.apply (unbounded cfg) u = some u' ∧ MemSim cfg m' u' := by
  have hslot : ∀ p, p % cfg.N < cfg.N := fun p => Nat.mod_lt p hg.pos
  cases e with
  | seq pos v =>
    obtain ⟨m', hm, hm'⟩ := h.storeSeq hf hg (hslot pos) v
    refine ⟨m', _, ?_, rfl, hm'⟩
    show m.store64 (cfg.slotPtr (UInt64.ofNat pos)).toNat _ = _
    rw [slotPtr_ofNat hg hf]
    exact hm
  | len pos v =>
    obtain ⟨m', hm, hm'⟩ := h.storeLen hf hg (hslot pos) v
    refine ⟨m', _, ?_, rfl, hm'⟩
    show m.store32 (cfg.slotPtr (UInt64.ofNat pos) + 8).toNat _ = _
    rw [slotPtr_add hg hf pos (by decide)]
    exact hm
  | payload pos bs =>
    have hle : bs.length ≤ cfg.S - 20 := he
    have hbs : bs.length ≤ cfg.S - 16 := by omega
    obtain ⟨m', hm, hm'⟩ := h.writePayload hf hg (hslot pos) hbs
    refine ⟨m', _, ?_, rfl, hm'⟩
    show m.write (cfg.slotPtr (UInt64.ofNat pos) + SLOT_HDR).toNat _ = _
    rw [slotPtr_add hg hf pos (by decide)]
    exact hm
  | head v =>
    obtain ⟨m', hm, hm'⟩ := h.storeHead hf v
    exact ⟨m', _, hm, rfl, hm'⟩
  | state v =>
    obtain ⟨m', hm, hm'⟩ := h.storeState hf v
    exact ⟨m', _, hm, rfl, hm'⟩

theorem drain_sim (h : MemSim cfg m u) {es : List (Store Nat)}
    (hes : ∀ e ∈ es, e.Fits (cfg.S - 20)) :
    ∃ m' u', Buffered.drain (Store.apply (segOps cfg))
      (es.map (Store.map UInt64.ofNat)) m = some m' ∧
      Buffered.drain (Store.apply (unbounded cfg)) es u = some u' ∧ MemSim cfg m' u' := by
  induction es generalizing m u with
  | nil => exact ⟨m, u, rfl, rfl, h⟩
  | cons e es ih =>
    obtain ⟨m1, u1, hm, hu, h1⟩ := store_sim hg hf h (hes e List.mem_cons_self)
    obtain ⟨m2, u2, hm2, hu2, h2⟩ := ih h1 fun e he => hes e (List.mem_cons_of_mem _ he)
    refine ⟨m2, u2, ?_, ?_, h2⟩
    · simp [Buffered.drain, hm, hm2]
    · simp [Buffered.drain, hu, hu2]

/-- What a thread sees. -/
theorem StoreSim.view (h : StoreSim cfg b w) {t : τ} (ht : ∀ e ∈ w.buf t, e.Fits (cfg.S - 20)) :
    ∃ m v, b.view (Store.apply (segOps cfg)) t = some m ∧
      w.view (Store.apply (unbounded cfg)) t = some v ∧ MemSim cfg m v := by
  unfold Buffered.view
  rw [h.buf t]
  exact drain_sim hg hf h.mem ht

end Access

section Leaves

variable [DecidableEq τ] {b : Buffered τ (Store UInt64) Memory} {w : Buffered τ (Store Nat) UMem}

theorem StoreSim.update (h : StoreSim cfg b w) {m : Memory} {v : UMem} (hm : MemSim cfg m v) (t : τ)
    (es : List (Store Nat)) : StoreSim cfg
      { mem := m, buf := Function.update b.buf t (es.map (Store.map UInt64.ofNat)) }
      { mem := v, buf := Function.update w.buf t es } := by
  refine ⟨hm, fun k => ?_⟩
  by_cases hk : k = t
  · subst hk
    simp
  · simpa [hk] using h.buf k

theorem StoreSim.leaves (h : StoreSim cfg b w) {m : Memory} {v : UMem} (hm : MemSim cfg m v) (t : τ)
    (store : Option (Store Nat)) (locked : Bool) : StoreSim cfg
      (leaves t b (store.map (Store.map UInt64.ofNat)) locked m) (leaves t w store locked v) := by
  cases store with
  | some e =>
    have hstep := h.update h.mem t (w.buf t ++ [e])
    rwa [List.map_append, ← h.buf t] at hstep
  | none =>
    cases locked with
    | true => exact h.update hm t []
    | false => exact h

end Leaves

/-! ### The ring behind store buffers -/

variable {ι : Type} [DecidableEq ι]

section Near

variable {u : RingState ι Nat UMem} {log : List (RingEvent ι Nat)}
  {w : Buffered (Option ι) (Store Nat) UMem} {c : Nat} {v : UMem}

/-- The words that a producer compares are close also where it sees old ones. -/
theorem Behind.pushNear (h : Behind cfg.N (cfg.S - 20) u log w c)
    (hI : RingInv cfg.N (cfg.S - 20) u log) (hg : cfg.Admitted) {i : ι}
    (hv : w.view (Store.apply (unbounded cfg)) (some i) = some v)
    (hw : (u.push i).deciding → reservedSince i log + cfg.N < 2 ^ 63) :
    PushNear cfg v (u.push i) := by
  have hok := hI.push_ok i
  have hsmall := hI.small i
  have htail : v.tail = u.mem.tail := by
    rw [tail_changes.view hv, Buffered.foldl_untouched fun _ _ _ => rfl, h.tail]
  have hbound := h.seq_bound hI hg.pos hv
  have hroom := h.room
  have hfreed := hI.freed_le
  generalize u.push i = pc at hw hok hsmall
  cases pc with
  | loadSeq data pos =>
    have hok : pos + reservedSince i log = u.mem.tail := hok
    have hw := hw rfl
    have hseq := hbound pos
    exact ⟨by omega, by omega⟩
  | cas data pos =>
    have hok : pos + reservedSince i log = u.mem.tail := hok.1
    have hw := hw rfl
    exact ⟨by omega, by omega⟩
  | writePayload data pos =>
    have hlen := hsmall data rfl
    show data.length ≤ cfg.S - 16
    omega
  | _ => trivial

theorem Behind.popNear (h : Behind cfg.N (cfg.S - 20) u log w c)
    (hI : RingInv cfg.N (cfg.S - 20) u log) (hg : cfg.Admitted) (hN : 2 ≤ cfg.N)
    (hv : w.view (Store.apply (unbounded cfg)) none = some v) : PopNear cfg v u.pop := by
  have hok := hI.pop_ok
  have hnear := hI.popNear hN
  have hbound := h.seq_bound hI hg.pos hv
  have hfreed := fun hp => freed_eq_head (s := u) hp
  generalize hpc : u.pop = pc at hok hnear
  cases pc with
  | loadSeq out head =>
    have hok : head = u.mem.head := hok
    have hf := hfreed (by simp [hpc])
    have hN63 : cfg.N ≤ 2 ^ 63 := hg.numSlots_le
    have hseq := hbound head
    have hroom := h.room
    have hle := hI.freed_le
    exact ⟨by omega, by omega⟩
  | readPayload out head len => exact hnear
  | _ => trivial

end Near

/-- The ring behind its store buffers shows the unbounded ring `u` that runs ahead of its own
memory `w`. -/
structure LateRefines (cfg : RingConfig)
    (s : RingState ι UInt64 (Buffered (Option ι) (Store UInt64) Memory))
    (log : List (RingEvent ι UInt64)) (u : RingState ι Nat UMem) (ulog : List (RingEvent ι Nat))
    (w : Buffered (Option ι) (Store Nat) UMem) (c : Nat) : Prop where
  mem : StoreSim cfg s.mem w
  push : ∀ i, s.push i = (u.push i).map UInt64.ofNat
  pop : s.pop = u.pop.map UInt64.ofNat
  inv : RingInv cfg.N (cfg.S - 20) u ulog
  behind : Behind cfg.N (cfg.S - 20) u ulog w c
  log_eq : log = ulog.map (RingEvent.map UInt64.ofNat)

namespace LateRefines

variable {s : RingState ι UInt64 (Buffered (Option ι) (Store UInt64) Memory)}
  {log : List (RingEvent ι UInt64)} {u : RingState ι Nat UMem} {ulog : List (RingEvent ι Nat)}
  {w : Buffered (Option ι) (Store Nat) UMem} {c : Nat}

theorem fits (h : LateRefines cfg s log u ulog w c) (t : Option ι) :
    ∀ e ∈ w.buf t, e.Fits (cfg.S - 20) := by
  intro e he
  cases t with
  | none => exact (h.behind.back.back e he).fits
  | some i =>
    obtain ⟨p, hF⟩ := h.behind.front i
    exact (hF.issued.of e he).fits

theorem push_update (h : LateRefines cfg s log u ulog w c) (i : ι) (pc : PushPc Nat) (j : ι) :
    Function.update s.push i (pc.map UInt64.ofNat) j =
      (Function.update u.push i pc j).map UInt64.ofNat := by
  by_cases hj : j = i
  · subst hj
    simp
  · simpa [hj] using h.push j

section Steps

variable (hg : cfg.Admitted) (hf : cfg.Fits) (hN : 2 ≤ cfg.N)
include hg hf hN

/-- A step of `push` behind its store buffer. -/
theorem pushStep (h : LateRefines cfg s log u ulog w c) {i : ι} {spurious : Bool}
    (hw : (s.push i).deciding → reservedSince i log < 2 ^ 63 - cfg.N) {pc : PushPc UInt64}
    {b : Buffered (Option ι) (Store UInt64) Memory} {ev : List (PushEvent UInt64)}
    (hs : ShmMpsc.pushStep ((segOps cfg).buffered (some i)) spurious (s.push i) s.mem =
      some (pc, b, ev)) :
    ∃ u' ulog' w', LateRefines cfg { s with mem := b, push := Function.update s.push i pc }
      (log ++ ev.map (.push i)) u' ulog' w' c := by
  obtain ⟨m, v, hm, hv, hsim⟩ := h.mem.view hg hf (h.fits (some i))
  have hnear : PushNear cfg v (u.push i) := by
    refine h.behind.pushNear h.inv hg hv fun hd => ?_
    have hlt := hw (by rw [h.push i, PushPc.deciding_map]; exact hd)
    rw [h.log_eq, reservedSince_map] at hlt
    omega
  rw [pushStep_buffered hm, h.push i] at hs
  cases hu : ShmMpsc.pushStep (unbounded cfg) spurious (u.push i) v with
  | none =>
    rw [pushStep_of_ready ((PushPc.ready_map _ _).trans (ready_of_pushStep hu))] at hs
    cases hs
  | some r =>
    obtain ⟨pc', v', uev⟩ := r
    have hut := pushTrans_of_step hu
    obtain ⟨m', ht, hsim'⟩ := push_sim hg hf hsim hnear hut
    rw [ht.step, Option.map_some] at hs
    cases hs
    obtain ⟨um, hI, hB⟩ := h.behind.pushTrans h.inv hN rfl hv hut
    refine ⟨{ u with mem := um, push := Function.update u.push i pc' }, _, _, ?_,
      h.push_update i pc', h.pop, hI, hB, by simp [h.log_eq, RingEvent.map]⟩
    rw [PushPc.store_map, PushPc.locked_map]
    exact h.mem.leaves hsim' _ _ _

theorem popStep (h : LateRefines cfg s log u ulog w c) {pc : PopPc UInt64}
    {b : Buffered (Option ι) (Store UInt64) Memory} {ev : List (PopEvent UInt64)}
    (hs : ShmMpsc.popStep ((segOps cfg).buffered (none : Option ι)) s.pop s.mem =
      some (pc, b, ev)) :
    ∃ u' ulog' w', LateRefines cfg { s with mem := b, pop := pc } (log ++ ev.map .pop) u' ulog' w'
      c := by
  obtain ⟨m, v, hm, hv, hsim⟩ := h.mem.view hg hf (h.fits none)
  have hnear := h.behind.popNear h.inv hg hN hv
  rw [popStep_buffered hm, h.pop] at hs
  cases hu : ShmMpsc.popStep (unbounded cfg) u.pop v with
  | none =>
    rw [popStep_of_ready ((PopPc.ready_map _ _).trans (ready_of_popStep hu))] at hs
    cases hs
  | some r =>
    obtain ⟨pc', v', uev⟩ := r
    have hut := popTrans_of_step hu
    obtain ⟨m', ht, hsim'⟩ := pop_sim hg hf hsim hnear hut
    rw [ht.step, Option.map_some] at hs
    cases hs
    obtain ⟨um, hI, hB⟩ := h.behind.popTrans h.inv hN rfl hv hut
    refine ⟨{ u with mem := um, pop := pc' }, _, _, ?_, h.push, rfl, hI, hB,
      by simp [h.log_eq, RingEvent.map]⟩
    rw [PopPc.store_map]
    exact h.mem.leaves hsim' _ _ _

omit hf in
theorem call (h : LateRefines cfg s log u ulog w c) {i : ι} (hready : (s.push i).ready = true)
    (ops : SegOps UInt64 (Buffered (Option ι) (Store UInt64) Memory))
    (hops : ops.maxLen = (segOps cfg).maxLen) (data : List UInt8) :
    ∃ u' ulog', LateRefines cfg { s with push := Function.update s.push i (pushCall ops data) }
      (log ++ [.call i data]) u' ulog' w c := by
  have hu : (u.push i).ready = true := by
    rwa [h.push i, PushPc.ready_map] at hready
  have hstep : ringStep (unbounded cfg) u (.call i data) = some ({ u with
      push := Function.update u.push i (pushCall (unbounded cfg) data) }, [.call i data]) := by
    simp [ringStep, hu]
  have hcall : pushCall ops data = (pushCall (unbounded cfg) data).map UInt64.ofNat := by
    rw [← sim_pushCall hg]
    unfold pushCall
    rw [hops]
  refine ⟨{ u with push := Function.update u.push i (pushCall (unbounded cfg) data) }, _, h.mem, ?_,
    h.pop, h.inv.step hN hstep, h.behind.quiet_push _ ?_ ?_, by simp [h.log_eq, RingEvent.map]⟩
  · rw [hcall]
    exact h.push_update i _
  · have hnone : (u.push i).writing = none := by
      generalize u.push i = pc at hu
      cases pc <;> first | rfl | cases hu
    rw [hnone]
    unfold pushCall
    split <;> rfl
  · unfold pushCall
    split <;> simp

omit hg hf in
theorem popCall (h : LateRefines cfg s log u ulog w c) (hready : s.pop.ready = true)
    (out : List UInt8) : ∃ u' ulog', LateRefines cfg { s with pop := .loadHead out }
      (log ++ [.popCall out]) u' ulog' w c := by
  have hu : u.pop.ready = true := by
    rwa [h.pop, PopPc.ready_map] at hready
  have hstep : ringStep (unbounded cfg) u (.popCall out) =
      some ({ u with pop := .loadHead out }, [.popCall out]) := by
    simp [ringStep, hu]
  have hfreed := freed_of_ready hu
  refine ⟨{ u with pop := .loadHead out }, _, h.mem, h.push, rfl, h.inv.step hN hstep,
    h.behind.quiet_pop _ hfreed.symm ?_, by simp [h.log_eq, RingEvent.map]⟩
  intro q hq hq'
  have hle := freed_le_claimed u
  have hq' : q < u.mem.head := hq'
  exact h.behind.shown q hq (by omega)

omit hg hf hN in
theorem storeState (h : LateRefines cfg s log u ulog w c) {x : UInt64}
    {b : Buffered (Option ι) (Store UInt64) Memory}
    (hs : ((segOps cfg).buffered (none : Option ι)).storeState x s.mem = some b) :
    ∃ w', LateRefines cfg { s with mem := b } log u ulog w' c := by
  cases Buffered.store_eq_some hs
  exact ⟨_, h.mem.leaves h.mem.mem none (some (.state x)) false, h.push, h.pop, h.inv,
    h.behind.storeState x, h.log_eq⟩

omit hN in
theorem casState (h : LateRefines cfg s log u ulog w c) {i : ι} {expected new : UInt64} {won : Bool}
    {b : Buffered (Option ι) (Store UInt64) Memory}
    (hs : ((segOps cfg).buffered (some i)).casState expected new s.mem = some (b, won)) :
    ∃ w', LateRefines cfg { s with mem := b } log u ulog w' c := by
  obtain ⟨m, v, hm, hv, hsim⟩ := h.mem.view hg hf (h.fits (some i))
  have hB := h.behind.flush h.inv hv
  have hs : (s.mem.rmw (Store.apply (segOps cfg)) (some i) ((segOps cfg).casState expected new)) =
      some (b, won) := hs
  rw [Buffered.rmw_of_view hm] at hs
  obtain ⟨r, hr, hs⟩ := Option.map_eq_some_iff.mp hs
  cases hs
  obtain ⟨m', won⟩ := r
  cases won with
  | true =>
    obtain ⟨m1, hm1, hsim'⟩ := hsim.storeState hf new
    have hm' : (segOps cfg).storeState new m = some m' := by
      obtain ⟨cur, _, hr⟩ := Option.bind_eq_some_iff.mp hr
      split at hr
      · obtain ⟨m2, hm2, hr⟩ := Option.map_eq_some_iff.mp hr
        cases hr
        exact hm2
      · cases hr
    obtain rfl : m' = m1 := Option.some.inj (hm'.symm.trans hm1)
    exact ⟨_, h.mem.update hsim' (some i) [], h.push, h.pop, h.inv, hB.setState new, h.log_eq⟩
  | false =>
    have hm' : m' = m := by
      obtain ⟨cur, _, hr⟩ := Option.bind_eq_some_iff.mp hr
      split at hr
      · obtain ⟨m2, _, hr⟩ := Option.map_eq_some_iff.mp hr
        cases hr
      · cases hr
        rfl
    subst hm'
    exact ⟨_, h.mem.update hsim (some i) [], h.push, h.pop, h.inv, hB, h.log_eq⟩

omit hN in
theorem commit (h : LateRefines cfg s log u ulog w c) {t : Option ι}
    {b : Buffered (Option ι) (Store UInt64) Memory}
    (hs : s.mem.commit (Store.apply (segOps cfg)) t = some b) :
    ∃ w' c', LateRefines cfg { s with mem := b } log u ulog w' c' := by
  obtain ⟨e, es, m, hb, hm, rfl⟩ := Buffered.commit_eq_some hs
  rw [h.mem.buf t] at hb
  obtain ⟨e, es, hw, rfl, rfl⟩ := List.map_eq_cons_iff.mp hb
  obtain ⟨m', v, hm', hv, hsim⟩ := store_sim hg hf h.mem.mem (h.fits t e (by simp [hw]))
  obtain rfl : m = m' := Option.some.inj (hm.symm.trans hm')
  have hmem := h.mem.update hsim t es
  cases t with
  | some i =>
    exact ⟨_, c, hmem, h.push, h.pop, h.inv, h.behind.commit_producer h.inv hw hv, h.log_eq⟩
  | none =>
    obtain ⟨c', hB⟩ := h.behind.commit_consumer h.inv hw hv
    exact ⟨_, c', hmem, h.push, h.pop, h.inv, hB, h.log_eq⟩

end Steps

end LateRefines

end ShmMpsc
