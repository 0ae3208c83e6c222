import ShmMpsc.Ring.Invariant
import ShmMpsc.Ring.MemSim

/-!
# The wrapping ring follows the unbounded ring

Positions, results and events of the unbounded ring are read modulo 2^64. As long as a
position is compared with words that are close to it, the code takes the same branch at
the same slot; the invariant of the unbounded ring provides the closeness, a producer's
own staleness being bounded by the reservations since its tail load.
-/

namespace ShmMpsc

set_option autoImplicit false

open RingConfig

/-! ### Renaming positions -/

section Map

variable {ι W V M : Type} (f : W → V)

def PushPc.map : PushPc W → PushPc V
  | .idle => .idle
  | .loadTail data => .loadTail data
  | .loadSeq data pos => .loadSeq data (f pos)
  | .cas data pos => .cas data (f pos)
  | .writeLen data pos => .writeLen data (f pos)
  | .writePayload data pos => .writePayload data (f pos)
  | .publish data pos => .publish data (f pos)
  | .done r => .done (r.map f)

def PopPc.map : PopPc W → PopPc V
  | .idle => .idle
  | .loadHead out => .loadHead out
  | .loadSeq out head => .loadSeq out (f head)
  | .readLen out head => .readLen out (f head)
  | .readPayload out head len => .readPayload out (f head) len
  | .release out head => .release out (f head)
  | .storeHead out head => .storeHead out (f head)
  | .done r out => .done (r.map f) out

def PushEvent.map : PushEvent W → PushEvent V
  | .tailLoad => .tailLoad
  | .casFail spurious => .casFail spurious
  | .reserve data pos => .reserve data (f pos)
  | .publish pos => .publish (f pos)
  | .full => .full

def PopEvent.map : PopEvent W → PopEvent V
  | .release head => .release (f head)
  | .some pos out => .some (f pos) out
  | .none out => .none out

def RingEvent.map : RingEvent ι W → RingEvent ι V
  | .call i data => .call i data
  | .push i e => .push i (e.map f)
  | .popCall out => .popCall out
  | .pop e => .pop (e.map f)

@[simp] theorem PushPc.ready_map (pc : PushPc W) : (pc.map f).ready = pc.ready := by
  cases pc <;> rfl

@[simp] theorem PopPc.ready_map (pc : PopPc W) : (pc.map f).ready = pc.ready := by
  cases pc <;> rfl

/-- The next step of the call compares a position read before with a word read now. -/
def PushPc.deciding : PushPc W → Bool
  | .loadSeq _ _ | .cas _ _ => true
  | _ => false

@[simp] theorem PushPc.deciding_map (pc : PushPc W) : (pc.map f).deciding = pc.deciding := by
  cases pc <;> rfl

variable {log : List (RingEvent ι W)}

theorem reserves_map : reserves (log.map (RingEvent.map f)) =
    (reserves log).map fun r => (r.1, r.2.1, f r.2.2) := by
  simp only [reserves, List.filterMap_map, List.map_filterMap]
  congr 1
  funext e
  rcases e with _ | ⟨_, e⟩ | _ | e <;> try rfl
  cases e <;> rfl

theorem pops_map : pops (log.map (RingEvent.map f)) =
    (pops log).map fun r => (f r.1, r.2) := by
  simp only [pops, List.filterMap_map, List.map_filterMap]
  congr 1
  funext e
  rcases e with _ | _ | _ | e <;> try rfl
  cases e <;> rfl

theorem releases_map : releases (log.map (RingEvent.map f)) = (releases log).map f := by
  simp only [releases, List.filterMap_map, List.map_filterMap]
  congr 1
  funext e
  rcases e with _ | _ | _ | e <;> try rfl
  cases e <;> rfl

theorem reservedSince_map [DecidableEq ι] (i : ι) :
    reservedSince i (log.map (RingEvent.map f)) = reservedSince i log := by
  simp only [reservedSince, List.foldl_map]
  congr 1
  funext n e
  rcases e with _ | ⟨_, e⟩ | _ | _ <;> try rfl
  cases e <;> rfl

theorem published_map {pos : V} :
    Published (log.map (RingEvent.map f)) pos ↔ ∃ p, f p = pos ∧ Published log p := by
  constructor
  · rintro ⟨i, h⟩
    obtain ⟨e, he, heq⟩ := List.mem_map.mp h
    cases e with
    | push j e =>
      cases e with
      | publish p => cases heq; exact ⟨p, rfl, i, he⟩
      | _ => cases heq
    | _ => cases heq
  · rintro ⟨p, rfl, i, h⟩
    exact ⟨i, List.mem_map.mpr ⟨_, h, rfl⟩⟩

end Map

/-! ### One step -/

/-- The words a producer's next step compares are close, and what it copies fits. -/
def PushNear (cfg : RingConfig) (u : UMem) : PushPc Nat → Prop
  | .loadSeq _ pos =>
    (pos : Int) - u.seq (pos % cfg.N) ≤ 2 ^ 63 ∧ (u.seq (pos % cfg.N) : Int) - pos < 2 ^ 63
  | .cas _ pos => u.tail < pos + 2 ^ 64 ∧ pos < u.tail + 2 ^ 64
  | .writePayload data _ => data.length ≤ cfg.S - 16
  | _ => True

def PopNear (cfg : RingConfig) (u : UMem) : PopPc Nat → Prop
  | .loadSeq _ head =>
    u.seq (head % cfg.N) < head + 1 + 2 ^ 64 ∧ head + 1 < u.seq (head % cfg.N) + 2 ^ 64
  | .readPayload _ _ len => len ≤ cfg.S - 16
  | _ => True

section Step

variable {cfg : RingConfig} (hg : cfg.Admitted) (hf : cfg.Fits) {m : Memory} {u u' : UMem}

/-- The unbounded ring of the same geometry. -/
abbrev unbounded (cfg : RingConfig) : SegOps Nat UMem := unboundedOps cfg.N (cfg.S - 20)

theorem ofNat_succ (p : Nat) : UInt64.ofNat p + 1 = UInt64.ofNat (p + 1) := by
  rw [UInt64.ofNat_add]
  rfl

theorem ofNat_add_numSlots (p : Nat) :
    UInt64.ofNat p + cfg.numSlots = UInt64.ofNat (p + cfg.N) := by
  rw [UInt64.ofNat_add, UInt64.ofNat_toNat]

include hg hf in
theorem push_sim (h : MemSim cfg m u) {spurious : Bool} {pc pc' : PushPc Nat}
    {ev : List (PushEvent Nat)} (hnear : PushNear cfg u pc)
    (hs : PushTrans (unbounded cfg) spurious pc u pc' u' ev) :
    ∃ m', PushTrans (segOps cfg) spurious (pc.map UInt64.ofNat) m (pc'.map UInt64.ofNat) m'
        (ev.map (PushEvent.map UInt64.ofNat)) ∧ MemSim cfg m' u' := by
  have hslot : ∀ p, p % cfg.N < cfg.N := fun p => Nat.mod_lt p hg.pos
  have hseq : ∀ p, m.load64 (cfg.slotPtr (UInt64.ofNat p)).toNat =
      some (UInt64.ofNat (u.seq (p % cfg.N))) := by
    intro p
    rw [slotPtr_ofNat hg hf, h.seq _ (hslot p)]
  -- the sign of the wrapped difference is the sign of the true one
  have hdiff : ∀ data pos, pc = .loadSeq data pos →
      (segOps cfg).diff (UInt64.ofNat (u.seq (pos % cfg.N))) (UInt64.ofNat pos) =
        (u.seq (pos % cfg.N) : Int) - pos := by
    rintro data pos rfl
    exact toInt64_sub hnear.1 hnear.2
  cases hs with
  | loadTail ht =>
    cases ht
    exact ⟨m, .loadTail h.tail, h⟩
  | @free data pos _ _ hl hd =>
    cases hl
    exact ⟨m, .free (hseq pos) ((hdiff data pos rfl).trans hd), h⟩
  | @full data pos _ _ hl hd =>
    cases hl
    exact ⟨m, .full (hseq pos) ((hdiff data pos rfl).symm ▸ hd), h⟩
  | @stale data pos _ _ hl hd =>
    cases hl
    exact ⟨m, .stale (hseq pos) ((hdiff data pos rfl).symm ▸ hd), h⟩
  | spurious hsp => exact ⟨m, .spurious hsp, h⟩
  | @won data pos _ _ hsp hc =>
    simp only [unboundedOps] at hc
    split at hc
    · rename_i heq
      cases hc
      obtain ⟨m', hm, hm'⟩ := h.storeTail hf (pos + 1)
      refine ⟨m', .won hsp ?_, hm'⟩
      show (m.load64 0).bind _ = _
      rw [h.tail, heq, Option.bind_some, if_pos rfl]
      show (m.store64 0 (UInt64.ofNat pos + 1)).map _ = _
      rw [ofNat_succ, hm]
      rfl
    · cases hc
  | @lost data pos _ _ hsp hc =>
    simp only [unboundedOps] at hc
    split at hc
    · cases hc
    · rename_i hne
      cases hc
      refine ⟨m, .lost hsp ?_, h⟩
      show (m.load64 0).bind _ = _
      rw [h.tail, Option.bind_some, if_neg (mt (ofNat_inj_of_near hnear.1 hnear.2).mp hne)]
  | @writeLen data pos _ _ hm =>
    cases hm
    obtain ⟨m', hm, hm'⟩ := h.storeLen hf hg (hslot pos) (UInt32.ofNat data.length)
    refine ⟨m', .writeLen ?_, hm'⟩
    show m.store32 (cfg.slotPtr (UInt64.ofNat pos) + 8).toNat _ = _
    rw [slotPtr_add hg hf pos (by decide)]
    exact hm
  | @writePayload data pos _ _ hm =>
    cases hm
    obtain ⟨m', hm, hm'⟩ := h.writePayload hf hg (hslot pos) hnear
    refine ⟨m', .writePayload ?_, hm'⟩
    show m.write (cfg.slotPtr (UInt64.ofNat pos) + SLOT_HDR).toNat _ = _
    rw [slotPtr_add hg hf pos (by decide)]
    exact hm
  | @publish data pos _ _ hm =>
    cases hm
    obtain ⟨m', hm, hm'⟩ := h.storeSeq hf hg (hslot pos) (pos + 1)
    refine ⟨m', .publish ?_, hm'⟩
    show m.store64 (cfg.slotPtr (UInt64.ofNat pos)).toNat (UInt64.ofNat pos + 1) = _
    rw [slotPtr_ofNat hg hf, ofNat_succ]
    exact hm

include hg hf in
theorem pop_sim (h : MemSim cfg m u) {pc pc' : PopPc Nat} {ev : List (PopEvent Nat)}
    (hnear : PopNear cfg u pc) (hs : PopTrans (unbounded cfg) pc u pc' u' ev) :
    ∃ m', PopTrans (segOps cfg) (pc.map UInt64.ofNat) m (pc'.map UInt64.ofNat) m'
        (ev.map (PopEvent.map UInt64.ofNat)) ∧ MemSim cfg m' u' := by
  have hslot : ∀ p, p % cfg.N < cfg.N := fun p => Nat.mod_lt p hg.pos
  have hseq : ∀ p, m.load64 (cfg.slotPtr (UInt64.ofNat p)).toNat =
      some (UInt64.ofNat (u.seq (p % cfg.N))) := by
    intro p
    rw [slotPtr_ofNat hg hf, h.seq _ (hslot p)]
  cases hs with
  | loadHead hh =>
    cases hh
    exact ⟨m, .loadHead h.head, h⟩
  | @empty out head _ _ hl hne =>
    cases hl
    refine ⟨m, .empty (hseq head) ?_, h⟩
    show _ ≠ UInt64.ofNat head + 1
    rw [ofNat_succ]
    exact mt (ofNat_inj_of_near hnear.1 hnear.2).mp hne
  | @ready out head _ hl =>
    refine ⟨m, .ready ?_, h⟩
    have hl : u.seq (head % cfg.N) = head + 1 := Option.some.inj hl
    show m.load64 (cfg.slotPtr (UInt64.ofNat head)).toNat = some (UInt64.ofNat head + 1)
    rw [hseq, hl, ofNat_succ]
  | @readLen out head _ _ hl =>
    cases hl
    refine ⟨m, .readLen ?_, h⟩
    show m.load32 (cfg.slotPtr (UInt64.ofNat head) + 8).toNat = _
    rw [slotPtr_add hg hf head (by decide)]
    exact h.len _ (hslot head)
  | @readPayload out head len _ _ hb =>
    cases hb
    refine ⟨m, .readPayload ?_, h⟩
    show m.read (cfg.slotPtr (UInt64.ofNat head) + SLOT_HDR).toNat len = _
    rw [slotPtr_add hg hf head (by decide)]
    exact h.readPayload hf hg (hslot head) hnear
  | @release out head _ _ hm =>
    cases hm
    obtain ⟨m', hm, hm'⟩ := h.storeSeq hf hg (hslot head) (head + cfg.N)
    refine ⟨m', .release ?_, hm'⟩
    show m.store64 (cfg.slotPtr (UInt64.ofNat head)).toNat (UInt64.ofNat head + cfg.numSlots) = _
    rw [slotPtr_ofNat hg hf, ofNat_add_numSlots]
    exact hm
  | @storeHead out head _ _ hm =>
    cases hm
    obtain ⟨m', hm, hm'⟩ := h.storeHead hf (head + 1)
    refine ⟨m', .storeHead ?_, hm'⟩
    show m.store64 64 (UInt64.ofNat head + 1) = _
    rw [ofNat_succ]
    exact hm

end Step

/-! ### The whole ring -/

section Ring

variable {cfg : RingConfig} {ι : Type}

/-- The state of the code shows the state of the unbounded ring. -/
structure Sim (cfg : RingConfig) (s : RingState ι UInt64 Memory) (u : RingState ι Nat UMem) :
    Prop where
  mem : MemSim cfg s.mem u.mem
  push : ∀ i, s.push i = (u.push i).map UInt64.ofNat
  pop : s.pop = u.pop.map UInt64.ofNat

variable [DecidableEq ι]

/-- Fewer than `b` reservations between a tail load and the comparisons made with it. -/
def windowed {W M : Type} (b : Nat) : Machine.Guard (RingState ι W M) (RingAction ι)
    (RingEvent ι W) := fun s log a =>
  ∀ i spurious, a = .push i spurious → (s.push i).deciding → reservedSince i log < b

/-- Same results, same events, related states. -/
def SameStep (cfg : RingConfig) (r : Option (RingState ι UInt64 Memory × List (RingEvent ι UInt64)))
    (r' : Option (RingState ι Nat UMem × List (RingEvent ι Nat))) : Prop :=
  Option.Rel (fun x y => Sim cfg x.1 y.1 ∧ x.2 = y.2.map (RingEvent.map UInt64.ofNat)) r r'

variable {s : RingState ι UInt64 Memory} {u : RingState ι Nat UMem}
  {log : List (RingEvent ι UInt64)} {ulog : List (RingEvent ι Nat)}

/-- `seq` of a slot is the position of the window it serves, or one more. -/
theorem RingInv.seq_near {N L : Nat} (h : RingInv N L u ulog) (hN : 0 < N) (pos : Nat) :
    freed u ≤ u.mem.seq (pos % N) ∧ u.mem.seq (pos % N) ≤ freed u + N := by
  -- the position of the window that shares the slot with pos
  obtain ⟨q, hq, hq', hqN⟩ : ∃ q, freed u ≤ q ∧ q < freed u + N ∧ q % N = pos % N := by
    refine ⟨freed u + (pos + (N - freed u % N)) % N, Nat.le_add_right _ _,
      Nat.add_lt_add_left (Nat.mod_lt _ hN) _, ?_⟩
    have hlt := Nat.mod_lt (freed u) hN
    have hsum : freed u + (pos + (N - freed u % N)) = pos + N * (freed u / N + 1) := by
      have := Nat.div_add_mod (freed u) N
      rw [Nat.mul_add, Nat.mul_one]
      omega
    rw [Nat.add_mod, Nat.mod_mod, ← Nat.add_mod, hsum, Nat.add_mul_mod_self_left]
  rw [← hqN]
  rcases h.slot q hq hq' with ⟨hs, _⟩ | ⟨hs, _⟩ <;> omega

theorem RingInv.pushNear (h : RingInv cfg.N (cfg.S - 20) u ulog) (hN : 2 ≤ cfg.N) {i : ι}
    (hw : (u.push i).deciding → reservedSince i ulog + cfg.N < 2 ^ 63) :
    PushNear cfg u.mem (u.push i) := by
  have hok := h.push_ok i
  have hsmall := h.small i
  have ht := h.tail_le
  have hf := h.freed_le
  generalize u.push i = pc at hw hok hsmall
  cases pc with
  | loadSeq data pos =>
    have hok : pos + reservedSince i ulog = u.mem.tail := hok
    have hw := hw rfl
    have hnear := h.seq_near (by omega) pos
    exact ⟨by omega, by omega⟩
  | cas data pos =>
    have hok : pos + reservedSince i ulog = u.mem.tail := hok.1
    have hw := hw rfl
    exact ⟨by omega, by omega⟩
  | writePayload data pos =>
    have hlen := hsmall data rfl
    show data.length ≤ cfg.S - 16
    omega
  | _ => trivial

theorem RingInv.popNear (h : RingInv cfg.N (cfg.S - 20) u ulog) (hN : 2 ≤ cfg.N) :
    PopNear cfg u.mem u.pop := by
  have hok := h.pop_ok
  have hfreed := fun hp => freed_eq_head (s := u) hp
  generalize hpc : u.pop = pc at hok
  cases pc with
  | loadSeq out head =>
    have hok : head = u.mem.head := hok
    have hf := hfreed (by simp [hpc])
    have hN64 : cfg.N < 2 ^ 64 := cfg.numSlots.toNat_lt
    have hhead : u.mem.seq (head % cfg.N) = head ∨ u.mem.seq (head % cfg.N) = head + 1 := by
      rcases h.slot head (by omega) (by omega) with ⟨hs, _⟩ | ⟨hs, _⟩
      · exact .inl hs
      · exact .inr hs
    constructor <;> omega
  | readPayload out head len =>
    obtain ⟨rfl, hseq, rfl⟩ := hok
    have hf := hfreed (by simp [hpc])
    show (u.mem.len _).toNat ≤ cfg.S - 16
    rcases h.slot u.mem.head (by omega) (by omega) with ⟨hs, _⟩ | ⟨_, i, data, hr, hh⟩
    · omega
    · have hle := (h.reserved_at _ _ _ _ hr).2
      have hmod : (u.mem.len (u.mem.head % cfg.N)).toNat = data.length % 2 ^ 32 := by
        rw [hh.len, UInt32.toNat_ofNat']
      have := Nat.mod_le data.length (2 ^ 32)
      omega
  | _ => trivial

theorem sim_pushCall (hg : cfg.Admitted) (data : List UInt8) :
    pushCall (segOps cfg) data = (pushCall (unbounded cfg) data).map UInt64.ofNat := by
  have hmax : (segOps cfg).maxLen = (unbounded cfg).maxLen := maxLen_toNat hg.min
  unfold pushCall
  rw [hmax]
  split <;> rfl

/-- One action from related states whose words are close. -/
theorem Sim.step (hg : cfg.Admitted) (hf : cfg.Fits) (h : Sim cfg s u) {a : RingAction ι}
    (hpush : ∀ i spurious, a = .push i spurious → PushNear cfg u.mem (u.push i))
    (hpop : a = .pop → PopNear cfg u.mem u.pop) :
    SameStep cfg (ringStep (segOps cfg) s a) (ringStep (unbounded cfg) u a) := by
  have hupdate : ∀ i {pc : PushPc Nat} {m : Memory} {m' : UMem}, MemSim cfg m m' →
      Sim cfg { s with mem := m, push := Function.update s.push i (pc.map UInt64.ofNat) }
        { u with mem := m', push := Function.update u.push i pc } := by
    intro i pc m m' hm
    refine ⟨hm, fun j => ?_, h.pop⟩
    by_cases hj : j = i
    · subst hj; simp
    · simpa [hj] using h.push j
  cases a with
  | call i data =>
    simp only [ringStep, h.push i, PushPc.ready_map]
    split
    · refine .some ⟨?_, rfl⟩
      rw [sim_pushCall hg]
      exact hupdate i h.mem
    · exact .none
  | push i spurious =>
    simp only [ringStep, h.push i]
    cases hu : pushStep (unbounded cfg) spurious (u.push i) u.mem with
    | some r =>
      obtain ⟨m', ht, hm⟩ := push_sim hg hf h.mem (hpush i spurious rfl) (pushTrans_of_step hu)
      rw [ht.step]
      refine .some ⟨hupdate i hm, ?_⟩
      simp [RingEvent.map]
    | none =>
      rw [pushStep_of_ready ((PushPc.ready_map _ _).trans (ready_of_pushStep hu))]
      exact .none
  | popCall out =>
    simp only [ringStep, h.pop, PopPc.ready_map]
    split
    · exact .some ⟨⟨h.mem, h.push, rfl⟩, rfl⟩
    · exact .none
  | pop =>
    simp only [ringStep, h.pop]
    cases hu : popStep (unbounded cfg) u.pop u.mem with
    | some r =>
      obtain ⟨m', ht, hm⟩ := pop_sim hg hf h.mem (hpop rfl) (popTrans_of_step hu)
      rw [ht.step]
      refine .some ⟨⟨hm, h.push, rfl⟩, ?_⟩
      simp [RingEvent.map]
    | none =>
      rw [popStep_of_ready ((PopPc.ready_map _ _).trans (ready_of_popStep hu))]
      exact .none
  | state v =>
    obtain ⟨m', hm, hm'⟩ := h.mem.storeState hf v
    show SameStep cfg ((s.mem.store64 128 v).map _) _
    rw [hm]
    exact .some ⟨⟨hm', h.push, h.pop⟩, rfl⟩

/-- Related states, with the invariant of the unbounded one and logs that agree. -/
structure Refines (cfg : RingConfig) (s : RingState ι UInt64 Memory)
    (log : List (RingEvent ι UInt64)) (u : RingState ι Nat UMem) (ulog : List (RingEvent ι Nat)) :
    Prop where
  sim : Sim cfg s u
  inv : RingInv cfg.N (cfg.S - 20) u ulog
  log_eq : log = ulog.map (RingEvent.map UInt64.ofNat)

namespace Refines

theorem windowed_iff (h : Refines cfg s log u ulog) {b : Nat} {a : RingAction ι} :
    windowed b s log a ↔ windowed b u ulog a := by
  simp only [windowed, h.sim.push, PushPc.deciding_map, h.log_eq, reservedSince_map]

variable (hg : cfg.Admitted) (hf : cfg.Fits) (hN : 2 ≤ cfg.N)
include hg hf hN

theorem sameStep (h : Refines cfg s log u ulog) {a : RingAction ι}
    (hw : windowed (2 ^ 63 - cfg.N) s log a) :
    SameStep cfg (ringStep (segOps cfg) s a) (ringStep (unbounded cfg) u a) := by
  refine h.sim.step hg hf (fun i spurious ha => ?_) fun _ => h.inv.popNear hN
  refine h.inv.pushNear hN fun hd => ?_
  have hlt := h.windowed_iff.mp hw i spurious ha hd
  omega

theorem step (h : Refines cfg s log u ulog) {a : RingAction ι}
    (hw : windowed (2 ^ 63 - cfg.N) s log a) {s' : RingState ι UInt64 Memory}
    {ev : List (RingEvent ι UInt64)} (hs : ringStep (segOps cfg) s a = some (s', ev)) :
    ∃ u' uev, ringStep (unbounded cfg) u a = some (u', uev) ∧
      Refines cfg s' (log ++ ev) u' (ulog ++ uev) := by
  have hsame := h.sameStep hg hf hN hw
  rw [hs] at hsame
  cases hu : ringStep (unbounded cfg) u a with
  | none => rw [hu] at hsame; cases hsame
  | some r =>
    rw [hu] at hsame
    cases hsame with
    | some hr =>
      obtain ⟨hsim, hev⟩ := hr
      refine ⟨r.1, r.2, rfl, hsim, h.inv.step hN hu, ?_⟩
      have hev : ev = _ := hev
      rw [h.log_eq, hev, List.map_append]

theorem run (h : Refines cfg s log u ulog) {as : List (RingAction ι)}
    {s' : RingState ι UInt64 Memory} {log' : List (RingEvent ι UInt64)}
    (hrun : (ringMachine ι (segOps cfg)).Run (windowed (2 ^ 63 - cfg.N)) s log as s' log') :
    ∃ u' ulog', (ringMachine ι (unbounded cfg)).Run (windowed (2 ^ 63 - cfg.N)) u ulog as u' ulog' ∧
      Refines cfg s' log' u' ulog' := by
  have hlock : ∃ u' ulog', (ringMachine ι (unbounded cfg)).Run (windowed (2 ^ 63 - cfg.N)) u ulog
      (as.map id) u' ulog' ∧ Refines cfg s' log' u' ulog' :=
        hrun.lockstep id h fun s log u ulog a s' ev hR hw hs => by
    obtain ⟨u', uev, hu, hR'⟩ := hR.step hg hf hN hw hs
    exact ⟨u', uev, hR.windowed_iff.mp hw, hu, hR'⟩
  simpa using hlock

end Refines

theorem refines_init {m m' : Memory} (hm : m.size = cfg.total.toNat) (h : init cfg m = some m') :
    ∃ len payload, Refines cfg (RingState.start m' : RingState ι UInt64 Memory) []
      (RingState.start (UMem.start cfg.N len payload)) [] := by
  have hg := check_iff.mp (init_eq_some h).1
  obtain ⟨_, len, payload, hsim⟩ := memSim_init hg hm h
  exact ⟨len, payload, ⟨hsim, fun _ => rfl, rfl⟩, .start _ _ _ _, rfl⟩

end Ring

end ShmMpsc
