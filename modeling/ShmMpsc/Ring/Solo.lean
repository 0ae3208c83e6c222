import ShmMpsc.Ring.Simulation

/-!
# Undisturbed calls

The paths of a `push` and a `try_pop` that nobody interrupts: over the unbounded memory,
over the segment, and inside a run of the ring.
-/

namespace ShmMpsc

set_option autoImplicit false

open RingConfig

section Paths

variable {W M : Type}

/-- Steps of one `push` in a row, none failing spuriously, with what they show; `near` holds
wherever a step starts. -/
inductive PushPath (ops : SegOps W M) (near : M → PushPc W → Prop) :
    PushPc W → M → List (PushEvent W) → PushPc W → M → Prop where
  | nil {pc m} : PushPath ops near pc m [] pc m
  | cons {pc m ev pc' m' evs pc'' m''} : near m pc → PushTrans ops false pc m pc' m' ev →
      PushPath ops near pc' m' evs pc'' m'' → PushPath ops near pc m (ev ++ evs) pc'' m''

inductive PopPath (ops : SegOps W M) (near : M → PopPc W → Prop) :
    PopPc W → M → List (PopEvent W) → PopPc W → M → Prop where
  | nil {pc m} : PopPath ops near pc m [] pc m
  | cons {pc m ev pc' m' evs pc'' m''} : near m pc → PopTrans ops pc m pc' m' ev →
      PopPath ops near pc' m' evs pc'' m'' → PopPath ops near pc m (ev ++ evs) pc'' m''

theorem PushPath.append {ops : SegOps W M} {near : M → PushPc W → Prop} {pc pc' pc'' : PushPc W}
    {m m' m'' : M} {evs evs' : List (PushEvent W)} (h : PushPath ops near pc m evs pc' m')
    (h' : PushPath ops near pc' m' evs' pc'' m'') :
    PushPath ops near pc m (evs ++ evs') pc'' m'' := by
  induction h with
  | nil => exact h'
  | cons hn ht _ ih => simpa using PushPath.cons hn ht (ih h')

/-- No condition. -/
def anywhere {P : Type} : M → P → Prop := fun _ _ => True

section Ring

variable {ι : Type} [DecidableEq ι] [DecidableEq W] {ops : SegOps W M}
  {G : Machine.Guard (RingState ι W M) (RingAction ι) (RingEvent ι W)}

theorem PushPath.run {near : M → PushPc W → Prop} {pc pc' : PushPc W} {m m' : M}
    {evs : List (PushEvent W)} (h : PushPath ops near pc m evs pc' m') {i : ι}
    (hG : ∀ s log, G s log (.push i false)) :
    ∀ (s : RingState ι W M) log, s.push i = pc → s.mem = m →
      ∃ n, (ringMachine ι ops).Run G s log (List.replicate n (.push i false))
        { mem := m', push := Function.update s.push i pc', pop := s.pop }
        (log ++ evs.map (.push i)) := by
  induction h with
  | nil =>
    rintro s log rfl rfl
    refine ⟨0, ?_⟩
    rw [Function.update_eq_self, List.map_nil, List.append_nil]
    exact .nil
  | @cons pc m ev pc1 m1 evs _ _ _ ht _ ih =>
    rintro s log rfl rfl
    have hstep : (ringMachine ι ops).step s (.push i false) =
        some ({ s with mem := m1, push := Function.update s.push i pc1 }, ev.map (.push i)) := by
      simp [ringMachine, ringStep, ht.step]
    obtain ⟨n, hrun⟩ := ih { s with mem := m1, push := Function.update s.push i pc1 }
      (log ++ ev.map (.push i)) (Function.update_self ..) rfl
    have hall := (Machine.Run.single (hG s log) hstep).trans hrun
    refine ⟨n + 1, ?_⟩
    simpa [Function.update_idem, List.replicate_succ] using hall

theorem PopPath.run {near : M → PopPc W → Prop} {pc pc' : PopPc W} {m m' : M}
    {evs : List (PopEvent W)} (h : PopPath ops near pc m evs pc' m')
    (hG : ∀ s log, G s log .pop) :
    ∀ (s : RingState ι W M) log, s.pop = pc → s.mem = m →
      ∃ n, (ringMachine ι ops).Run G s log (List.replicate n .pop)
        { mem := m', push := s.push, pop := pc' }
        (log ++ evs.map .pop) := by
  induction h with
  | nil =>
    rintro s log rfl rfl
    refine ⟨0, ?_⟩
    rw [List.map_nil, List.append_nil]
    exact .nil
  | @cons pc m ev pc1 m1 evs _ _ _ ht _ ih =>
    rintro s log rfl rfl
    have hstep : (ringMachine ι ops).step s .pop =
        some ({ s with mem := m1, pop := pc1 }, ev.map .pop) := by
      simp [ringMachine, ringStep, ht.step]
    obtain ⟨n, hrun⟩ := ih { s with mem := m1, pop := pc1 } (log ++ ev.map .pop) rfl rfl
    have hall := (Machine.Run.single (hG s log) hstep).trans hrun
    refine ⟨n + 1, ?_⟩
    simpa [List.replicate_succ] using hall

theorem PushPath.callRun {near : M → PushPc W → Prop} {data : List UInt8} {pc' : PushPc W}
    {m m' : M} {evs : List (PushEvent W)} (h : PushPath ops near (.loadTail data) m evs pc' m')
    {i : ι} (hG : ∀ s log, G s log (.push i false)) (hcall : ∀ s log, G s log (.call i data))
    (hlen : data.length ≤ ops.maxLen) {s : RingState ι W M} (log : List (RingEvent ι W))
    (hready : (s.push i).ready = true) (hm : s.mem = m) :
    ∃ n, (ringMachine ι ops).Run G s log (.call i data :: List.replicate n (.push i false))
      { mem := m', push := Function.update s.push i pc', pop := s.pop }
      (log ++ .call i data :: evs.map (.push i)) := by
  have hstep : (ringMachine ι ops).step s (.call i data) =
      some ({ s with push := Function.update s.push i (.loadTail data) }, [.call i data]) := by
    simp [ringMachine, ringStep, hready, pushCall, Nat.not_lt.mpr hlen]
  obtain ⟨n, hrun⟩ := h.run hG { s with push := Function.update s.push i (.loadTail data) }
    (log ++ [.call i data]) (Function.update_self ..) hm
  have hall := (Machine.Run.single (hcall s log) hstep).trans hrun
  refine ⟨n, ?_⟩
  simpa [Function.update_idem] using hall

theorem PopPath.callRun {near : M → PopPc W → Prop} {out : List UInt8} {pc' : PopPc W}
    {m m' : M} {evs : List (PopEvent W)} (h : PopPath ops near (.loadHead out) m evs pc' m')
    (hG : ∀ s log, G s log .pop) (hcall : ∀ s log, G s log (.popCall out))
    {s : RingState ι W M} (log : List (RingEvent ι W)) (hready : s.pop.ready = true)
    (hm : s.mem = m) :
    ∃ n, (ringMachine ι ops).Run G s log (.popCall out :: List.replicate n .pop)
      { mem := m', push := s.push, pop := pc' } (log ++ .popCall out :: evs.map .pop) := by
  have hstep : (ringMachine ι ops).step s (.popCall out) =
      some ({ s with pop := .loadHead out }, [.popCall out]) := by
    simp [ringMachine, ringStep, hready]
  obtain ⟨n, hrun⟩ := h.run hG { s with pop := .loadHead out } (log ++ [.popCall out]) rfl hm
  have hall := (Machine.Run.single (hcall s log) hstep).trans hrun
  refine ⟨n, ?_⟩
  simpa using hall

end Ring

end Paths

/-! ### Over the unbounded memory -/

/-- The memory after a successful push. -/
def UMem.pushed (N : Nat) (u : UMem) (data : List UInt8) : UMem :=
  { u with
    tail := u.tail + 1
    len := Function.update u.len (u.tail % N) (UInt32.ofNat data.length)
    payload := Function.update u.payload (u.tail % N) fun j =>
      data[j]?.getD (u.payload (u.tail % N) j)
    seq := Function.update u.seq (u.tail % N) (u.tail + 1) }

/-- The memory after a successful pop. -/
def UMem.popped (N : Nat) (u : UMem) : UMem :=
  { u with
    head := u.head + 1
    seq := Function.update u.seq (u.head % N) (u.head + N) }

/-- What reading the slot of `head` brings. -/
def headBytes (cfg : RingConfig) (u : UMem) : List UInt8 :=
  (List.range (u.len (u.head % cfg.N)).toNat).map (u.payload (u.head % cfg.N))

section Solo

variable {cfg : RingConfig} {u : UMem} {data out : List UInt8}

/-- As far as the CAS, when the slot of `tail` is free. -/
theorem cas_path (hseq : u.seq (u.tail % cfg.N) = u.tail) :
    PushPath (unbounded cfg) (PushNear cfg) (.loadTail data) u [.tailLoad]
      (.cas data u.tail) u := by
  have hload : PushNear cfg u (.loadSeq data u.tail) := ⟨by omega, by omega⟩
  refine .cons trivial (.loadTail rfl) (.cons hload (.free rfl ?_) .nil)
  simp [unboundedOps, hseq]

/-- And past it. -/
theorem reserve_path (hseq : u.seq (u.tail % cfg.N) = u.tail) :
    PushPath (unbounded cfg) (PushNear cfg) (.loadTail data) u
      [.tailLoad, .reserve data u.tail] (.writeLen data u.tail) { u with tail := u.tail + 1 } := by
  have hcas : PushNear cfg u (.cas data u.tail) := ⟨by omega, by omega⟩
  exact (cas_path hseq).append (.cons hcas (.won rfl (if_pos rfl)) .nil)

theorem soloPush_path (hlen : data.length ≤ cfg.S - 20)
    (hseq : u.seq (u.tail % cfg.N) = u.tail) :
    PushPath (unbounded cfg) (PushNear cfg) (.loadTail data) u
      [.tailLoad, .reserve data u.tail, .publish u.tail] (.done (.ok u.tail))
      (u.pushed cfg.N data) := by
  have hpay : data.length ≤ cfg.S - 16 := by omega
  exact (reserve_path hseq).append (.cons trivial (.writeLen rfl)
    (.cons hpay (.writePayload rfl) (.cons trivial (.publish rfl) .nil)))

theorem fullPush_path (hseq : u.seq (u.tail % cfg.N) < u.tail)
    (hnear : u.tail ≤ u.seq (u.tail % cfg.N) + 2 ^ 63) :
    PushPath (unbounded cfg) (PushNear cfg) (.loadTail data) u [.tailLoad, .full]
      (.done (.error .full)) u := by
  have hload : PushNear cfg u (.loadSeq data u.tail) := ⟨by omega, by omega⟩
  have hd : (unbounded cfg).diff (u.seq (u.tail % cfg.N)) u.tail < 0 := by
    show (u.seq (u.tail % cfg.N) : Int) - u.tail < 0
    omega
  exact .cons trivial (.loadTail rfl) (.cons hload (.full rfl hd) .nil)

theorem soloPop_path (hlen : (u.len (u.head % cfg.N)).toNat ≤ cfg.S - 16)
    (hseq : u.seq (u.head % cfg.N) = u.head + 1) :
    PopPath (unbounded cfg) (PopNear cfg) (.loadHead out) u
      [.release u.head, .some u.head (headBytes cfg u)]
      (.done (some u.head) (headBytes cfg u)) (u.popped cfg.N) := by
  have hload : PopNear cfg u (.loadSeq out u.head) := ⟨by omega, by omega⟩
  exact .cons trivial (.loadHead rfl) (.cons hload (.ready (congrArg some hseq))
    (.cons trivial (.readLen rfl) (.cons hlen (.readPayload rfl)
      (.cons trivial (.release rfl) (.cons trivial (.storeHead rfl) .nil)))))

theorem emptyPop_path (hseq : u.seq (u.head % cfg.N) ≠ u.head + 1)
    (hnear : PopNear cfg u (.loadSeq out u.head)) :
    PopPath (unbounded cfg) (PopNear cfg) (.loadHead out) u [.none out] (.done none out) u :=
  .cons trivial (.loadHead rfl) (.cons hnear (.empty rfl hseq) .nil)

/-! ### Over the segment -/

variable (hg : cfg.Admitted) (hf : cfg.Fits)
include hg hf

theorem PushPath.sim {pc pc' : PushPc Nat} {u u' : UMem} {evs : List (PushEvent Nat)}
    (h : PushPath (unbounded cfg) (PushNear cfg) pc u evs pc' u') :
    ∀ m, MemSim cfg m u → ∃ m', MemSim cfg m' u' ∧
      PushPath (segOps cfg) anywhere (pc.map UInt64.ofNat) m
        (evs.map (PushEvent.map UInt64.ofNat)) (pc'.map UInt64.ofNat) m' := by
  induction h with
  | nil => exact fun m hm => ⟨m, hm, .nil⟩
  | cons hn ht _ ih =>
    intro m hm
    obtain ⟨m1, ht1, hm1⟩ := push_sim hg hf hm hn ht
    obtain ⟨m', hm', hp⟩ := ih m1 hm1
    refine ⟨m', hm', ?_⟩
    rw [List.map_append]
    exact .cons trivial ht1 hp

theorem PopPath.sim {pc pc' : PopPc Nat} {u u' : UMem} {evs : List (PopEvent Nat)}
    (h : PopPath (unbounded cfg) (PopNear cfg) pc u evs pc' u') :
    ∀ m, MemSim cfg m u → ∃ m', MemSim cfg m' u' ∧
      PopPath (segOps cfg) anywhere (pc.map UInt64.ofNat) m
        (evs.map (PopEvent.map UInt64.ofNat)) (pc'.map UInt64.ofNat) m' := by
  induction h with
  | nil => exact fun m hm => ⟨m, hm, .nil⟩
  | cons hn ht _ ih =>
    intro m hm
    obtain ⟨m1, ht1, hm1⟩ := pop_sim hg hf hm hn ht
    obtain ⟨m', hm', hp⟩ := ih m1 hm1
    refine ⟨m', hm', ?_⟩
    rw [List.map_append]
    exact .cons trivial ht1 hp

end Solo

/-! ### Inside a run of the code -/

section Refines

variable {cfg : RingConfig} {ι : Type} [DecidableEq ι] (hg : cfg.Admitted) (hf : cfg.Fits)
  (hN : 2 ≤ cfg.N) {s : RingState ι UInt64 Memory} {log : List (RingEvent ι UInt64)}
  {u : RingState ι Nat UMem} {ulog : List (RingEvent ι Nat)}
include hg hf hN

omit hg hf in
theorem RingInv.run {L : Nat} (h : RingInv cfg.N L u ulog) {as : List (RingAction ι)}
    {u' : RingState ι Nat UMem} {ulog' : List (RingEvent ι Nat)}
    (hrun : (ringMachine ι (unboundedOps cfg.N L)).Run Machine.free u ulog as u' ulog') :
    RingInv cfg.N L u' ulog' :=
  hrun.invariant h fun _ _ _ _ _ hI _ hs => hI.step hN hs

theorem Refines.popPath (h : Refines cfg s log u ulog) (hready : u.pop.ready = true)
    {out : List UInt8} {evs : List (PopEvent Nat)} {pc : PopPc Nat} {m : UMem}
    (hpath : PopPath (unbounded cfg) (PopNear cfg) (.loadHead out) u.mem evs pc m) :
    ∃ m', PopPath (segOps cfg) anywhere (.loadHead out) s.mem
        (evs.map (PopEvent.map UInt64.ofNat)) (pc.map UInt64.ofNat) m' ∧
      Refines cfg { mem := m', push := s.push, pop := pc.map UInt64.ofNat }
        (log ++ .popCall out :: evs.map fun e => .pop (e.map UInt64.ofNat))
        { mem := m, push := u.push, pop := pc } (ulog ++ .popCall out :: evs.map .pop) := by
  obtain ⟨m', hm', hseg⟩ := hpath.sim hg hf s.mem h.sim.mem
  obtain ⟨n, hurun⟩ := hpath.callRun (G := Machine.free) (fun _ _ => trivial)
    (fun _ _ => trivial) ulog hready rfl
  refine ⟨m', hseg, ⟨hm', h.sim.push, rfl⟩, h.inv.run hN hurun, ?_⟩
  simp [h.log_eq, RingEvent.map, Function.comp_def]

theorem Refines.pushPath (h : Refines cfg s log u ulog) {i : ι} (hready : (u.push i).ready = true)
    {data : List UInt8} (hlen : data.length ≤ cfg.S - 20) {evs : List (PushEvent Nat)}
    {pc : PushPc Nat} {m : UMem}
    (hpath : PushPath (unbounded cfg) (PushNear cfg) (.loadTail data) u.mem evs pc m) :
    ∃ m', PushPath (segOps cfg) anywhere (.loadTail data) s.mem
        (evs.map (PushEvent.map UInt64.ofNat)) (pc.map UInt64.ofNat) m' ∧
      Refines cfg
        { mem := m', push := Function.update s.push i (pc.map UInt64.ofNat), pop := s.pop }
        (log ++ .call i data :: evs.map fun e => .push i (e.map UInt64.ofNat))
        { mem := m, push := Function.update u.push i pc, pop := u.pop }
        (ulog ++ .call i data :: evs.map (.push i)) := by
  obtain ⟨m', hm', hseg⟩ := hpath.sim hg hf s.mem h.sim.mem
  obtain ⟨n, hurun⟩ := hpath.callRun (G := Machine.free) (fun _ _ => trivial)
    (fun _ _ => trivial) hlen ulog hready rfl
  refine ⟨m', hseg, ⟨hm', fun j => ?_, h.sim.pop⟩, h.inv.run hN hurun, ?_⟩
  · by_cases hj : j = i
    · subst hj; simp
    · simpa [hj] using h.sim.push j
  · simp [h.log_eq, RingEvent.map, Function.comp_def]

omit hg hf in
theorem Refines.soloPop_path (h : Refines cfg s log u ulog) (hready : u.pop.ready = true)
    (hpub : Published ulog u.mem.head) (out : List UInt8) :
    PopPath (unbounded cfg) (PopNear cfg) (.loadHead out) u.mem
      [.release u.mem.head, .some u.mem.head (headBytes cfg u.mem)]
      (.done (some u.mem.head) (headBytes cfg u.mem)) (u.mem.popped cfg.N) := by
  have hhead := freed_of_ready hready
  have hseq := (h.inv.published_head hN hhead).mp hpub
  have hlen : (u.mem.len (u.mem.head % cfg.N)).toNat ≤ cfg.S - 16 := by
    rcases h.inv.slot u.mem.head (by omega) (by omega) with ⟨hs, _⟩ | ⟨_, i, data, hr, hh⟩
    · omega
    · have hle := (h.inv.reserved_at _ _ _ _ hr).2
      have hmod := Nat.mod_le data.length (2 ^ 32)
      rw [hh.len, UInt32.toNat_ofNat']
      omega
  exact ShmMpsc.soloPop_path hlen hseq

omit hg hf in
theorem Refines.emptyPop_path (h : Refines cfg s log u ulog) (hready : u.pop.ready = true)
    (hempty : u.mem.head = u.mem.tail) (out : List UInt8) :
    PopPath (unbounded cfg) (PopNear cfg) (.loadHead out) u.mem [.none out] (.done none out)
      u.mem := by
  have hhead := freed_of_ready hready
  have hseq := h.inv.seq_tail (by omega)
  rw [← hempty] at hseq
  exact ShmMpsc.emptyPop_path (by omega) ⟨by omega, by omega⟩

theorem Refines.soloPop (h : Refines cfg s log u ulog) (hready : u.pop.ready = true)
    (hpub : Published ulog u.mem.head) (out : List UInt8) :
    ∃ n s', (ringMachine ι (segOps cfg)).Run Machine.free s log
      (.popCall out :: List.replicate n .pop) s'
        (log ++ [.popCall out, .pop (.release (UInt64.ofNat u.mem.head)),
          .pop (.some (UInt64.ofNat u.mem.head) (headBytes cfg u.mem))]) ∧
      Refines cfg s' (log ++ [.popCall out, .pop (.release (UInt64.ofNat u.mem.head)),
          .pop (.some (UInt64.ofNat u.mem.head) (headBytes cfg u.mem))])
        { mem := u.mem.popped cfg.N, push := u.push,
          pop := .done (some u.mem.head) (headBytes cfg u.mem) }
        (ulog ++ [.popCall out, .pop (.release u.mem.head),
          .pop (.some u.mem.head (headBytes cfg u.mem))]) := by
  obtain ⟨m', hseg, hR'⟩ := h.popPath hg hf hN hready (h.soloPop_path hN hready hpub out)
  have hsready : s.pop.ready = true := by rw [h.sim.pop, PopPc.ready_map, hready]
  obtain ⟨n, hrun⟩ := hseg.callRun (G := Machine.free) (fun _ _ => trivial)
    (fun _ _ => trivial) log hsready rfl
  exact ⟨n, _, hrun, hR'⟩

theorem Refines.callPath (h : Refines cfg s log u ulog) {i : ι} (hready : (u.push i).ready = true)
    {data : List UInt8} (hlen : data.length ≤ cfg.S - 20) {evs : List (PushEvent Nat)}
    {pc : PushPc Nat} {m : UMem}
    (hpath : PushPath (unbounded cfg) (PushNear cfg) (.loadTail data) u.mem evs pc m) :
    ∃ n s', (ringMachine ι (segOps cfg)).Run Machine.free s log
        (.call i data :: List.replicate n (.push i false)) s'
        (log ++ .call i data :: evs.map fun e => .push i (e.map UInt64.ofNat)) ∧
      Refines cfg s' (log ++ .call i data :: evs.map fun e => .push i (e.map UInt64.ofNat))
        { mem := m, push := Function.update u.push i pc, pop := u.pop }
        (ulog ++ .call i data :: evs.map (.push i)) := by
  obtain ⟨m', hseg, hR'⟩ := h.pushPath hg hf hN hready hlen hpath
  have hmax : data.length ≤ (segOps cfg).maxLen := hlen.trans_eq (maxLen_toNat hg.min).symm
  have hsready : (s.push i).ready = true := by rw [h.sim.push, PushPc.ready_map, hready]
  obtain ⟨n, hrun⟩ := hseg.callRun (G := Machine.free) (fun _ _ => trivial)
    (fun _ _ => trivial) hmax log hsready rfl
  rw [List.map_map] at hrun
  exact ⟨n, _, hrun, hR'⟩

theorem Refines.soloPush (h : Refines cfg s log u ulog) {i : ι} (hready : (u.push i).ready = true)
    (hroom : u.mem.tail < freed u + cfg.N) {data : List UInt8} (hlen : data.length ≤ cfg.S - 20) :
    ∃ n s', (ringMachine ι (segOps cfg)).Run Machine.free s log
        (.call i data :: List.replicate n (.push i false)) s'
        (log ++ [.call i data, .push i .tailLoad, .push i (.reserve data (UInt64.ofNat u.mem.tail)),
          .push i (.publish (UInt64.ofNat u.mem.tail))]) ∧
      Refines cfg s' (log ++ [.call i data, .push i .tailLoad,
          .push i (.reserve data (UInt64.ofNat u.mem.tail)),
          .push i (.publish (UInt64.ofNat u.mem.tail))])
        { mem := u.mem.pushed cfg.N data
          push := Function.update u.push i (.done (.ok u.mem.tail))
          pop := u.pop }
        (ulog ++ [.call i data, .push i .tailLoad, .push i (.reserve data u.mem.tail),
          .push i (.publish u.mem.tail)]) :=
  h.callPath hg hf hN hready hlen (soloPush_path hlen (h.inv.seq_tail hroom))

end Refines

end ShmMpsc
