import ShmMpsc.Ring.Slots

/-!
# The steps of the ordered ring

What the ring does under its own orderings, the unbounded ring does in one memory, if a
producer is taken to load the tail only when its compare-exchange succeeds: until then old
messages may have misled it, and it has touched nothing.
-/

namespace ShmMpsc

set_option autoImplicit false

open RingConfig

/-- A producer that has reserved nothing has not begun. -/
def PushPc.settled {W : Type} : PushPc W → PushPc W
  | .loadSeq data _ | .cas data _ => .loadTail data
  | pc => pc

@[simp] theorem PushPc.ready_settled {W : Type} (pc : PushPc W) : pc.settled.ready = pc.ready := by
  cases pc <;> rfl

theorem PushPc.settled_of_writing {W : Type} {pc : PushPc W} {r : List UInt8 × W}
    (h : pc.writing = some r) : pc.settled = pc := by
  cases pc <;> first | rfl | cases h

/-! ### Hands -/

section Hands

variable {ι : Type} {u : RingState ι Nat UMem} {N L : Nat}

theorem hand_push [DecidableEq ι] (u : RingState ι Nat UMem) (i : ι) (pc : PushPc Nat) (m : UMem) :
    ({ u with mem := m, push := Function.update u.push i pc } : RingState ι Nat UMem).hand =
      Function.update u.hand (some i) (pc.writing.map Prod.snd) := by
  funext t
  cases t with
  | none => rfl
  | some j =>
    by_cases hj : j = i
    · subst hj
      simp [RingState.hand]
    · simp [RingState.hand, hj]

theorem hand_pop [DecidableEq ι] (u : RingState ι Nat UMem) (pc : PopPc Nat) (m : UMem) :
    ({ u with mem := m, pop := pc } : RingState ι Nat UMem).hand =
      Function.update u.hand none pc.holding := by
  funext t
  cases t with
  | none => simp [RingState.hand]
  | some j => simp [RingState.hand]

theorem hand_push_ready {i : ι} (h : (u.push i).ready = true) : u.hand (some i) = none := by
  generalize hq : u.push i = q at h
  rw [RingState.hand, hq]
  cases q <;> first | rfl | cases h

theorem hand_pop_ready (h : u.pop.ready = true) : u.hand none = none := by
  generalize hq : u.pop = q at h
  rw [RingState.hand, hq]
  cases q <;> first | rfl | cases h

variable [DecidableEq ι] {log : List (RingEvent ι Nat)}

theorem hand_keep {t : Option ι} {p : Option Nat} (h : u.hand t = p) :
    Function.update u.hand t p = u.hand := by
  rw [← h, Function.update_eq_self]

theorem RingInv.of_holding (h : RingInv N L u log) {p : Nat} (hp : u.pop.holding = some p) :
    p = u.mem.head ∧ u.mem.seq (p % N) = p + 1 ∧ freed u = p := by
  have hok := h.pop_ok
  have hfreed : (∀ out head, u.pop ≠ .storeHead out head) → freed u = u.mem.head := freed_eq_head
  generalize u.pop = pc at hp hok hfreed
  cases pc with
  | readLen out head =>
    cases hp
    obtain ⟨rfl, hs⟩ := hok
    exact ⟨rfl, hs, hfreed (by simp)⟩
  | readPayload out head len =>
    cases hp
    obtain ⟨rfl, hs, _⟩ := hok
    exact ⟨rfl, hs, hfreed (by simp)⟩
  | release out head =>
    cases hp
    obtain ⟨rfl, hs, _⟩ := hok
    exact ⟨rfl, hs, hfreed (by simp)⟩
  | _ => cases hp

omit [DecidableEq ι] in
theorem writing_of_hand {i : ι} {p : Nat} (h : u.hand (some i) = some p) :
    ∃ data, (u.push i).writing = some (data, p) := by
  obtain ⟨⟨data, q⟩, hw, rfl⟩ := Option.map_eq_some_iff.mp h
  exact ⟨data, hw⟩

/-- A position in somebody's hand is taken and not given back. -/
theorem RingInv.of_hand (hN : 0 < N) (h : RingInv N L u log) {t : Option ι} {p : Nat}
    (hp : u.hand t = some p) : freed u ≤ p ∧ p < u.mem.tail := by
  cases t with
  | some i =>
    obtain ⟨data, hw⟩ := writing_of_hand hp
    obtain ⟨hf, hlt, _⟩ := h.of_writing hw
    exact ⟨hf, hlt⟩
  | none =>
    obtain ⟨_, hs, hf⟩ := h.of_holding hp
    refine ⟨by omega, ?_⟩
    rcases h.slot p (by omega) (by omega) with ⟨hs', _⟩ | ⟨_, _, _, hr, _⟩
    · omega
    · exact h.reserved_lt hr

theorem RingInv.hand_ne_tail (hN : 0 < N) (h : RingInv N L u log)
    (hroom : u.mem.tail < freed u + N) {t : Option ι} {p : Nat} (hp : u.hand t = some p) :
    p % N ≠ u.mem.tail % N := by
  obtain ⟨hf, hlt⟩ := h.of_hand hN hp
  exact window_slot_ne hf (by omega) h.freed_le hroom (by omega)

/-- The slot of the tail shows the tail only if it is given back. -/
theorem RingInv.room_of_seq (hN : 2 ≤ N) (h : RingInv N L u log)
    (hs : u.mem.tail ≤ u.mem.seq (u.mem.tail % N)) : u.mem.tail < freed u + N := by
  have ht := h.tail_le
  by_contra hge
  have heq : u.mem.tail = freed u + N := by omega
  rw [heq, Nat.add_mod_right] at hs
  rcases h.slot (freed u) (Nat.le_refl _) (by omega) with ⟨hs', _⟩ | ⟨hs', _⟩ <;> omega

/-- Loading the tail and winning it at once. -/
theorem RingInv.reserve_now (h : RingInv N L u log) {i : ι} {data : List UInt8}
    (hi : u.push i = .loadTail data) (hroom : u.mem.tail < freed u + N) :
    RingInv N L { u with
      mem := { u.mem with tail := u.mem.tail + 1 }
      push := Function.update u.push i (.writeLen data u.mem.tail) }
      (log ++ [.push i .tailLoad, .push i (.reserve data u.mem.tail)]) := by
  have hsmall (d : List UInt8) (hd : (PushPc.cas data u.mem.tail).data = some d) : d.length ≤ L :=
    h.small i d (by rw [hi]; exact hd)
  have hok : PushOk N (freed u) u.mem (log ++ [.push i .tailLoad]) i (.cas data u.mem.tail) :=
    ⟨by rw [reservedSince_tailLoad, if_pos rfl]; rfl, hroom⟩
  have hload := h.quiet_push (.tailLoad i) (by rw [hi]; rfl) hok hsmall
    fun j hj => (reservedSince_tailLoad j i).trans (if_neg (Ne.symm hj))
  have hpc : Function.update u.push i (.cas data u.mem.tail) i = .cas data u.mem.tail := by simp
  have hcas := hload.reserve hpc
  simpa using hcas

/-- No slot is in two hands. -/
theorem RingInv.hand_unique (h : RingInv N L u log) {t k : Option ι} {p q : Nat}
    (ht : u.hand t = some p) (hk : u.hand k = some q) (hpq : p % N = q % N) : t = k := by
  cases t with
  | none =>
    cases k with
    | none => rfl
    | some j =>
      obtain ⟨data, hw⟩ := writing_of_hand hk
      obtain ⟨rfl, hs, hf⟩ := h.of_holding ht
      exact absurd hpq.symm (h.writer_slot_ne_head hw hf hs)
  | some i =>
    obtain ⟨data, hw⟩ := writing_of_hand ht
    cases k with
    | none =>
      obtain ⟨rfl, hs, hf⟩ := h.of_holding hk
      exact absurd hpq (h.writer_slot_ne_head hw hf hs)
    | some j =>
      obtain ⟨data', hw'⟩ := writing_of_hand hk
      by_cases hij : i = j
      · rw [hij]
      · exact absurd hpq (h.writer_slot_ne hw hw' hij)

end Hands

/-! ### What a producer has loaded -/

section Loads

variable {ι : Type} {cfg : RingConfig}

/-- A producer's tail may be old; the `seq` that let it go on is taken over. -/
def Loads (cfg : RingConfig) (s : Ordered ι) (u : UMem) (t : Option ι) : PushPc Nat → Prop
  | .loadSeq _ pos => pos ≤ u.tail
  | .cas _ pos => pos ≤ u.tail ∧ ∃ n ≤ (s.view t).2 (.seq (cfg.slotAt pos)),
    s.value ((segOps cfg).loadSeq (UInt64.ofNat pos)) (.seq (cfg.slotAt pos)) n =
        some (UInt64.ofNat pos) ∧
      s.passed (.seq (cfg.slotAt pos)) n ≤ s.view t
  | _ => True

variable {s s' : Ordered ι} {u u' : UMem} {t : Option ι} {pc : PushPc Nat}

theorem Loads.later (h : Loads cfg s u t pc) (hs : s.Wf) (hl : s.Later s') (ht : u.tail ≤ u'.tail) :
    Loads cfg s' u' t pc := by
  cases pc with
  | loadSeq data pos => exact Nat.le_trans h ht
  | cas data pos =>
    obtain ⟨hpos, n, hn, hval, hview⟩ := h
    have hcount := hn.trans (hs.view t _)
    refine ⟨hpos.trans ht, n, hn.trans ((hl.view t).2 _), ?_, ?_⟩
    · rw [hl.value _ _ _ hcount]
      exact hval
    · rw [hl.passed _ _ hcount]
      exact hview.trans (hl.view t)
  | _ => trivial

end Loads

/-! ### The ring behind -/

/-- The two logs say the same of positions and messages. -/
structure Agree {ι : Type} (log : List (RingEvent ι UInt64)) (ulog : List (RingEvent ι Nat)) :
    Prop where
  reserves : reserves log = (reserves ulog).map fun r => (r.1, r.2.1, UInt64.ofNat r.2.2)
  pops : pops log = (pops ulog).map fun r => (UInt64.ofNat r.1, r.2)
  published : ∀ q, Published log q ↔ ∃ p, UInt64.ofNat p = q ∧ Published ulog p

namespace Agree

variable {ι : Type} {log ev : List (RingEvent ι UInt64)} {ulog uev : List (RingEvent ι Nat)}

theorem of_map (ulog : List (RingEvent ι Nat)) :
    Agree (ulog.map (RingEvent.map UInt64.ofNat)) ulog :=
  ⟨reserves_map _, pops_map _, fun _ => published_map _⟩

theorem of_quiet (h : Quiet log) (h' : Quiet ulog) : Agree log ulog where
  reserves := by
    rw [h.reserves, h'.reserves]
    rfl
  pops := by
    rw [h.pops, h'.pops]
    rfl
  published := by
    intro q
    constructor
    · exact fun hq => absurd hq (h.published q)
    · rintro ⟨p, _, hp⟩
      exact absurd hp (h'.published p)

theorem append (h : Agree log ulog) (h' : Agree ev uev) : Agree (log ++ ev) (ulog ++ uev) where
  reserves := by rw [reserves_append, reserves_append, h.reserves, h'.reserves, List.map_append]
  pops := by rw [pops_append, pops_append, h.pops, h'.pops, List.map_append]
  published := by
    intro q
    rw [published_append, h.published, h'.published]
    simp only [published_append]
    constructor
    · rintro (⟨p, hq, hp⟩ | ⟨p, hq, hp⟩)
      · exact ⟨p, hq, .inl hp⟩
      · exact ⟨p, hq, .inr hp⟩
    · rintro ⟨p, hq, hp | hp⟩
      · exact .inl ⟨p, hq, hp⟩
      · exact .inr ⟨p, hq, hp⟩

end Agree

section Tracks

variable {ι : Type} [DecidableEq ι] {cfg : RingConfig}

/-- The unbounded ring `u` has done what the ring `s` has done, in one memory. -/
structure Tracks (cfg : RingConfig) (s : OrderedState ι UInt64 UInt64 Memory)
    (log : List (RingEvent ι UInt64)) (u : RingState ι Nat UMem) (ulog : List (RingEvent ι Nat)) :
    Prop where
  ring : RingInv cfg.N (cfg.S - 20) u ulog
  mem : Shows cfg s.mem u.mem u.hand
  push : ∀ i, ∃ pc, s.push i = pc.map UInt64.ofNat ∧ u.push i = pc.settled ∧
    Loads cfg s.mem u.mem (some i) pc
  pop : s.pop = u.pop.map UInt64.ofNat
  agree : Agree log ulog

namespace Tracks

variable {s : OrderedState ι UInt64 UInt64 Memory} {log : List (RingEvent ι UInt64)}
  {u : RingState ι Nat UMem} {ulog : List (RingEvent ι Nat)} {i : ι}

/-- The step is possible and is followed. -/
def Steps (cfg : RingConfig) (s : OrderedState ι UInt64 UInt64 Memory)
    (log : List (RingEvent ι UInt64)) (a : OrderedAction ι UInt64) : Prop :=
  ∃ s' ev u' ulog', orderedStep (segOps cfg) cfg.slotPtr s a = some (s', ev) ∧
    Tracks cfg s' (log ++ ev) u' ulog'

/-- A step of `push`, put together. -/
theorem pushed (h : Tracks cfg s log u ulog) {spurious : Bool} (pc : PushPc Nat)
    (uev : List (RingEvent ι Nat)) {m m' : Ordered ι} {pev : List (PushEvent UInt64)} {um : UMem}
    (hs : pushStep ((segOps cfg).ordered cfg.slotPtr (some i)) spurious (s.push i) s.mem =
      some (pc.map UInt64.ofNat, m, pev))
    (hm : (s.push i).loaded cfg.slotPtr (some i) m = m')
    (hI : RingInv cfg.N (cfg.S - 20)
      { u with mem := um, push := Function.update u.push i pc.settled } (ulog ++ uev))
    (hS : Shows cfg m' um (Function.update u.hand (some i) (pc.settled.writing.map Prod.snd)))
    (hl : s.mem.Later m') (ht : u.mem.tail ≤ um.tail) (hloads : Loads cfg m' um (some i) pc)
    (hev : Agree (pev.map (RingEvent.push i)) uev) :
    Steps cfg s log (.ring (.push i spurious)) := by
  refine ⟨{ s with mem := m', push := Function.update s.push i (pc.map UInt64.ofNat) },
    pev.map (.push i), { u with mem := um, push := Function.update u.push i pc.settled },
    ulog ++ uev, ?_, hI, ?_, ?_, h.pop, h.agree.append hev⟩
  · simp only [orderedStep, RingAction.thread, ringStep, hs, Option.map_some]
    rw [RingState.loaded, hm]
  · rw [hand_push]
    exact hS
  · intro j
    by_cases hj : j = i
    · subst hj
      exact ⟨pc, by simp, by simp, hloads⟩
    · obtain ⟨pc', hpc, hu, hl'⟩ := h.push j
      exact ⟨pc', by simpa [hj] using hpc, by simpa [hj] using hu, hl'.later h.mem.wf hl ht⟩
section Push

variable (hg : cfg.Admitted) (hf : cfg.Fits) (hN : 2 ≤ cfg.N)

/-- A step that reserves nothing and leaves the unbounded ring where it is. -/
theorem misled (h : Tracks cfg s log u ulog) {spurious : Bool} (pc pc' : PushPc Nat)
    {m' : Ordered ι} {pev : List (PushEvent UInt64)}
    (hpc : s.push i = pc.map UInt64.ofNat) (hu : u.push i = pc.settled)
    (hs : pushStep ((segOps cfg).ordered cfg.slotPtr (some i)) spurious
      (pc.map UInt64.ofNat) s.mem =
      some (pc'.map UInt64.ofNat, s.mem, pev))
    (hm : (pc.map UInt64.ofNat).loaded cfg.slotPtr (some i) s.mem = m')
    (hS : Shows cfg m' u.mem u.hand) (hl : s.mem.Later m') (hsame : pc'.settled = pc.settled)
    (hnone : pc.settled.writing = none) (hloads : Loads cfg m' u.mem (some i) pc')
    (hev : Quiet (pev.map (RingEvent.push i))) : Steps cfg s log (.ring (.push i spurious)) := by
  have hupdate : Function.update u.push i pc'.settled = u.push := by
    rw [hsame, ← hu, Function.update_eq_self]
  have hhand : Function.update u.hand (some i) (pc'.settled.writing.map Prod.snd) = u.hand := by
    have hi : u.hand (some i) = none := by
      rw [RingState.hand, hu, hnone]
      rfl
    rw [hsame, hnone, Option.map_none, hand_keep hi]
  refine h.pushed pc' [] (hpc ▸ hs) (hpc ▸ hm) ?_ ?_ hl (Nat.le_refl _) hloads
    (.of_quiet hev .nil)
  · rw [hupdate, List.append_nil]
    exact h.ring
  · rw [hhand]
    exact hS

theorem tail_lt (h : Tracks cfg s log u ulog) (hb : (reserves log).length < 2 ^ 63 - cfg.N) :
    u.mem.tail < 2 ^ 63 - cfg.N := by
  rw [← h.ring.tail_eq]
  rwa [h.agree.reserves, List.length_map] at hb

theorem mine (h : Tracks cfg s log u ulog) {t : Option ι} {p : Nat} (hp : u.hand t = some p)
    (k : Option ι) (q : Nat) (hq : u.hand k = some q) (hqp : q % cfg.N = p % cfg.N) : k = t :=
  h.ring.hand_unique hq hp hqp

/-- A tail of any age. -/
theorem loadTail_step (h : Tracks cfg s log u ulog) {data : List UInt8}
    (hpc : s.push i = .loadTail data) (hu : u.push i = .loadTail data) (spurious : Bool) :
    Steps cfg s log (.ring (.push i spurious)) := by
  obtain ⟨v, hv, hval⟩ := h.mem.tail _ (h.mem.wf.view (some i) .tail)
  have hs : pushStep ((segOps cfg).ordered cfg.slotPtr (some i)) spurious (.loadTail data) s.mem =
      some (.loadSeq data (UInt64.ofNat v), s.mem, [.tailLoad]) :=
    (PushTrans.loadTail hval).step
  exact h.misled (.loadTail data) (.loadSeq data v) hpc hu hs rfl h.mem (.refl _) rfl
    rfl hv (.tailLoad i)

include hN in
/-- A `seq` of any age: an equal one is taken over with what it passes on. -/
theorem loadSeq_step (h : Tracks cfg s log u ulog) (hb : u.mem.tail < 2 ^ 63 - cfg.N)
    {data : List UInt8} {pos : Nat} (hpc : s.push i = .loadSeq data (UInt64.ofNat pos))
    (hu : u.push i = .loadTail data) (hpos : pos ≤ u.mem.tail) (spurious : Bool) :
    Steps cfg s log (.ring (.push i spurious)) := by
  have hwf := h.mem.wf
  have hseen := hwf.view (some i) (.seq (cfg.slotAt pos))
  obtain ⟨v, hval, hv, _⟩ := h.mem.seq pos _ hseen
  have hnear := h.ring.seq_near (by omega) pos
  have hfreed := h.ring.freed_le
  have hload : ((segOps cfg).ordered cfg.slotPtr (some i)).loadSeq (UInt64.ofNat pos) s.mem =
      some (UInt64.ofNat v) := hval
  have hdiff : ((segOps cfg).ordered cfg.slotPtr (some i)).diff (UInt64.ofNat v)
      (UInt64.ofNat pos) = (v : Int) - pos := toInt64_sub (by omega) (by omega)
  obtain ⟨w, hw, hk, hloaded, hpassed⟩ :=
    RelAcq.loaded_eq hwf .acquire (some i) (.seq (cfg.slotAt pos))
  have hS := h.mem.setView hw hk
  have hlater := RelAcq.setView_later hw
  rcases Nat.lt_trichotomy v pos with hlt | rfl | hgt
  · have hs : pushStep ((segOps cfg).ordered cfg.slotPtr (some i)) spurious
        (.loadSeq data (UInt64.ofNat pos)) s.mem = some (.done (.error .full), s.mem, [.full]) :=
      (PushTrans.full hload (by rw [hdiff]; omega)).step
    have hfull : RingInv cfg.N (cfg.S - 20)
        { u with push := Function.update u.push i (.done (.error .full)) }
        (ulog ++ [.push i .full]) :=
      h.ring.quiet_push (.full i) (by rw [hu]; rfl) trivial (fun _ hd => by cases hd)
        (by simp [reservedSince])
    have hi : u.hand (some i) = none := by rw [RingState.hand, hu]; rfl
    refine h.pushed (.done (.error .full)) [.push i .full] (hpc ▸ hs) (hpc ▸ hloaded) hfull
      ((hand_keep hi).symm ▸ hS) hlater (Nat.le_refl _) trivial ?_
    exact .of_map [.push i .full]
  · have hs : pushStep ((segOps cfg).ordered cfg.slotPtr (some i)) spurious
        (.loadSeq data (UInt64.ofNat v)) s.mem = some (.cas data (UInt64.ofNat v), s.mem, []) :=
      (PushTrans.free hload (by rw [hdiff]; omega)).step
    refine h.misled (.loadSeq data v) (.cas data v) hpc hu hs hloaded hS hlater rfl rfl
      ⟨hpos, _, (hlater.view (some i)).2 _, ?_, ?_⟩ .nil
    · rw [hlater.value _ _ _ hseen]
      exact hval
    · rw [hlater.passed _ _ hseen]
      simpa [RelAcq.setView] using hpassed rfl
  · have hs : pushStep ((segOps cfg).ordered cfg.slotPtr (some i)) spurious
        (.loadSeq data (UInt64.ofNat pos)) s.mem = some (.loadTail data, s.mem, []) :=
      (PushTrans.stale hload (by rw [hdiff]; omega)).step
    exact h.misled (.loadSeq data pos) (.loadTail data) hpc hu hs hloaded hS hlater rfl
      rfl trivial .nil

include hg hf hN in
/-- An exchange that succeeds has the latest tail, so the `seq` before it was the latest, too. -/
theorem cas_step (h : Tracks cfg s log u ulog) (hb : u.mem.tail < 2 ^ 63 - cfg.N)
    {data : List UInt8} {pos : Nat} (hpc : s.push i = .cas data (UInt64.ofNat pos))
    (hu : u.push i = .loadTail data) (hloads : Loads cfg s.mem u.mem (some i) (.cas data pos))
    (spurious : Bool) : Steps cfg s log (.ring (.push i spurious)) := by
  obtain ⟨hpos, n, hn, hval, hview⟩ := hloads
  have hN64 : cfg.N < 2 ^ 64 := cfg.numSlots.toNat_lt
  have hback {pev : List (PushEvent UInt64)}
      (hs : pushStep ((segOps cfg).ordered cfg.slotPtr (some i)) spurious
        (.cas data (UInt64.ofNat pos)) s.mem = some (.loadTail data, s.mem, pev))
      (hev : Quiet (pev.map (RingEvent.push i))) : Steps cfg s log (.ring (.push i spurious)) :=
    h.misled (.cas data pos) (.loadTail data) hpc hu hs rfl h.mem (.refl _) rfl rfl
      trivial hev
  cases spurious with
  | true => exact hback (PushTrans.spurious rfl).step (.casFail i true)
  | false =>
    by_cases heq : pos = u.mem.tail
    · subst heq
      -- the message that let the producer go on is the last one of its slot
      obtain ⟨v, hval', hv, hlast⟩ := h.mem.seq u.mem.tail n (hn.trans (h.mem.wf.view _ _))
      have hnear := h.ring.seq_near (by omega) u.mem.tail
      have hfreed := h.ring.freed_le
      obtain rfl : v = u.mem.tail := by
        rw [hval, Option.some.injEq] at hval'
        exact ((ofNat_inj_of_near (by omega) (by omega)).mp hval').symm
      have hroom := h.ring.room_of_seq hN hv
      have hn' := hlast.mp (h.ring.seq_tail hroom).symm
      subst hn'
      have hcov := h.mem.free u.mem.tail fun t q hq => h.ring.hand_ne_tail (by omega) hroom hq
      have hsc : PushTrans (unbounded cfg) false (.cas data u.mem.tail) u.mem
          (.writeLen data u.mem.tail) { u.mem with tail := u.mem.tail + 1 }
          [.reserve data u.mem.tail] := .won rfl (by simp [unboundedOps])
      have hclose : PushNear cfg u.mem (.cas data u.mem.tail) := ⟨by omega, by omega⟩
      obtain ⟨m, ht, hm⟩ := push_sim hg hf h.mem.mem hclose hsc
      cases ht with
      | won _ hc =>
        have hi : u.hand (some i) = none := by rw [RingState.hand, hu]; rfl
        have hS := (h.mem.take hi hn (hcov.mono hview)).storeTail (t := some i) hm (Nat.le_succ _)
        have hs : pushStep ((segOps cfg).ordered cfg.slotPtr (some i)) false
            (.cas data (UInt64.ofNat u.mem.tail)) s.mem =
              some (.writeLen data (UInt64.ofNat u.mem.tail),
                s.mem.wrote m (some i) .tail ⟨UInt64.ofNat (u.mem.tail + 1),
                  s.mem.passed .tail (s.mem.count .tail)⟩,
              [.reserve data (UInt64.ofNat u.mem.tail)]) := by
          rw [← ofNat_succ]
          exact (PushTrans.won rfl (RelAcq.cas_won hc)).step
        have hev : Agree [RingEvent.push i (.reserve data (UInt64.ofNat u.mem.tail))]
            [.push i .tailLoad, .push i (.reserve data u.mem.tail)] :=
          (Agree.of_quiet .nil (.tailLoad i)).append (.of_map [.push i (.reserve data u.mem.tail)])
        refine h.pushed (.writeLen data u.mem.tail) _ (hpc ▸ hs) (hpc ▸ rfl)
          (h.ring.reserve_now hu hroom) hS (RelAcq.wrote_later h.mem.wf _ _)
            (Nat.le_succ _) trivial ?_
        exact hev
    · have hc : (segOps cfg).casTail (UInt64.ofNat pos) (UInt64.ofNat pos + 1) s.mem.mem =
          some (s.mem.mem, false) := by
        show (s.mem.mem.load64 0).bind _ = _
        rw [h.mem.mem.tail, Option.bind_some,
          if_neg (mt (ofNat_inj_of_near (by omega) (by omega)).mp (Ne.symm heq))]
      exact hback (PushTrans.lost rfl (RelAcq.cas_lost hc)).step (.casFail i false)

include hg hf in
/-- The bytes of a slot are its holder's. -/
theorem write_step (h : Tracks cfg s log u ulog) (pc pc' : PushPc Nat) {data : List UInt8} {p : Nat}
    (hpc : s.push i = pc.map UInt64.ofNat) (hu : u.push i = pc)
    (hold : pc.writing = some (data, p)) (hnew : pc'.writing = some (data, p)) {spurious : Bool}
    {m : Memory} {um : UMem}
    (hs : pushStep ((segOps cfg).ordered cfg.slotPtr (some i)) spurious
      (pc.map UInt64.ofNat) s.mem =
      some (pc'.map UInt64.ofNat, s.mem.noteWrite m (some i) (cfg.slotAt p), []))
    (hI : RingInv cfg.N (cfg.S - 20)
      { u with mem := um, push := Function.update u.push i pc' } ulog)
    (hm : MemSim cfg m um) (htail : um.tail = u.mem.tail) (hhead : um.head = u.mem.head)
    (hseq : um.seq = u.mem.seq) : Steps cfg s log (.ring (.push i spurious)) := by
  have hi : u.hand (some i) = some p := by
    rw [RingState.hand, hu, hold]
    rfl
  have htouched := RelAcq.noteWrite_touched s.mem m (some i) (cfg.slotAt p)
  have hS := h.mem.touched hg hf htouched hi (h.mine hi) hm htail hhead hseq
  have hhand : Function.update u.hand (some i) (pc'.settled.writing.map Prod.snd) = u.hand := by
    rw [PushPc.settled_of_writing hnew, hnew, Option.map_some, hand_keep hi]
  have hloaded : (pc.map UInt64.ofNat).loaded cfg.slotPtr (some i)
      (s.mem.noteWrite m (some i) (cfg.slotAt p)) = s.mem.noteWrite m (some i) (cfg.slotAt p) := by
    cases pc <;> first | rfl | cases hold
  have hloads : Loads cfg (s.mem.noteWrite m (some i) (cfg.slotAt p)) um (some i) pc' := by
    cases pc' <;> trivial
  refine h.pushed pc' [] (hpc ▸ hs) (hpc ▸ hloaded) ?_ (hhand.symm ▸ hS) htouched.later
    htail.ge hloads ?_
  · rw [PushPc.settled_of_writing hnew, List.append_nil]
    exact hI
  · exact .of_quiet .nil .nil

include hg hf hN in
theorem writeLen_step (h : Tracks cfg s log u ulog) {data : List UInt8} {p : Nat}
    (hpc : s.push i = .writeLen data (UInt64.ofNat p)) (hu : u.push i = .writeLen data p)
    (spurious : Bool) : Steps cfg s log (.ring (.push i spurious)) := by
  have hi : u.hand (some i) = some p := by rw [RingState.hand, hu]; rfl
  have hsc : PushTrans (unbounded cfg) spurious (.writeLen data p) u.mem
      (.writePayload data p) _ [] :=
    .writeLen rfl
  have hI := h.ring.pushTrans hN hu hsc
  obtain ⟨m, ht, hm⟩ :=
    push_sim hg hf h.mem.mem (show PushNear cfg u.mem (.writeLen data p) from trivial) hsc
  cases ht with
  | writeLen hst =>
    have hw : ((segOps cfg).ordered cfg.slotPtr (some i)).storeLen (UInt64.ofNat p)
        (UInt32.ofNat data.length) s.mem = some (s.mem.noteWrite m (some i) (cfg.slotAt p)) := by
      refine (RelAcq.plainWrite_eq (h.mem.held _ _ hi).2).trans ?_
      rw [hst]
      rfl
    exact h.write_step hg hf (.writeLen data p) (.writePayload data p) hpc hu rfl rfl
      (PushTrans.writeLen hw).step (by simpa using hI) hm rfl rfl rfl

include hg hf hN in
theorem writePayload_step (h : Tracks cfg s log u ulog) {data : List UInt8} {p : Nat}
    (hpc : s.push i = .writePayload data (UInt64.ofNat p)) (hu : u.push i = .writePayload data p)
    (spurious : Bool) : Steps cfg s log (.ring (.push i spurious)) := by
  have hi : u.hand (some i) = some p := by rw [RingState.hand, hu]; rfl
  have hlen : data.length ≤ cfg.S - 20 := h.ring.small i data (by rw [hu]; rfl)
  have hnear : PushNear cfg u.mem (.writePayload data p) := by
    show data.length ≤ cfg.S - 16
    omega
  have hsc : PushTrans (unbounded cfg) spurious (.writePayload data p) u.mem
      (.publish data p) _ [] :=
    .writePayload rfl
  have hI := h.ring.pushTrans hN hu hsc
  obtain ⟨m, ht, hm⟩ := push_sim hg hf h.mem.mem hnear hsc
  cases ht with
  | writePayload hst =>
    have hw : ((segOps cfg).ordered cfg.slotPtr (some i)).writePayload (UInt64.ofNat p) data s.mem =
        some (s.mem.noteWrite m (some i) (cfg.slotAt p)) := by
      refine (RelAcq.plainWrite_eq (h.mem.held _ _ hi).2).trans ?_
      rw [hst]
      rfl
    exact h.write_step hg hf (.writePayload data p) (.publish data p) hpc hu rfl rfl
      (PushTrans.writePayload hw).step (by simpa using hI) hm rfl rfl rfl

include hg hf hN in
/-- What the producer knows of its slot goes out with the position. -/
theorem publish_step (h : Tracks cfg s log u ulog) {data : List UInt8} {p : Nat}
    (hpc : s.push i = .publish data (UInt64.ofNat p)) (hu : u.push i = .publish data p)
    (spurious : Bool) : Steps cfg s log (.ring (.push i spurious)) := by
  have hi : u.hand (some i) = some p := by rw [RingState.hand, hu]; rfl
  have hseq : u.mem.seq (p % cfg.N) = p := by
    have hok := h.ring.push_ok i
    rw [hu] at hok
    exact hok.2.2.1
  have hsc : PushTrans (unbounded cfg) spurious (.publish data p) u.mem (.done (.ok p))
      { u.mem with seq := Function.update u.mem.seq (p % cfg.N) (p + 1) } [.publish p] :=
    .publish rfl
  have hI := h.ring.pushTrans hN hu hsc
  obtain ⟨m, ht, hm⟩ :=
    push_sim hg hf h.mem.mem (show PushNear cfg u.mem (.publish data p) from trivial) hsc
  cases ht with
  | publish hst =>
    have hS := h.mem.release hg hf hm hi (h.mine hi) (by omega)
    have hst : (segOps cfg).storeSeq (UInt64.ofNat p) (UInt64.ofNat p + 1) s.mem.mem = some m := hst
    have hw : ((segOps cfg).ordered cfg.slotPtr (some i)).storeSeq (UInt64.ofNat p)
        (UInt64.ofNat p + 1) s.mem = some (s.mem.wrote m (some i) (.seq (cfg.slotAt p))
          ⟨UInt64.ofNat (p + 1), (s.mem.view (some i)).since (.seq (cfg.slotAt p))
            (s.mem.count (.seq (cfg.slotAt p)) + 1)⟩) := by
      refine (RelAcq.store_release _ _ (h.mem.held _ _ hi).1).trans ?_
      rw [hst, ofNat_succ]
      rfl
    refine h.pushed (.done (.ok p)) _ (hpc ▸ (PushTrans.publish hw).step) (hpc ▸ rfl) hI hS
      (RelAcq.wrote_later h.mem.wf _ _) (Nat.le_refl _) trivial ?_
    exact .of_map [.push i (.publish p)]

include hg hf hN in
theorem push_step (h : Tracks cfg s log u ulog) (hb : (reserves log).length < 2 ^ 63 - cfg.N)
    (hready : (s.push i).ready = false) (spurious : Bool) :
    Steps cfg s log (.ring (.push i spurious)) := by
  obtain ⟨pc, hpc, hu, hloads⟩ := h.push i
  have htail := h.tail_lt hb
  rw [hpc, PushPc.ready_map] at hready
  cases pc with
  | idle => cases hready
  | done r => cases hready
  | loadTail data => exact h.loadTail_step hpc hu spurious
  | loadSeq data pos => exact h.loadSeq_step hN htail hpc hu hloads spurious
  | cas data pos => exact h.cas_step hg hf hN htail hpc hu hloads spurious
  | writeLen data p => exact h.writeLen_step hg hf hN hpc hu spurious
  | writePayload data p => exact h.writePayload_step hg hf hN hpc hu spurious
  | publish data p => exact h.publish_step hg hf hN hpc hu spurious

end Push

section Pop

variable (hg : cfg.Admitted) (hf : cfg.Fits) (hN : 2 ≤ cfg.N)

theorem popped (h : Tracks cfg s log u ulog) (pc : PopPc Nat) (uev : List (PopEvent Nat))
    {m m' : Ordered ι} {um : UMem}
    (hs : popStep ((segOps cfg).ordered cfg.slotPtr none) s.pop s.mem =
      some (pc.map UInt64.ofNat, m, uev.map (PopEvent.map UInt64.ofNat)))
    (hm : s.pop.loaded cfg.slotPtr none m = m')
    (hI : RingInv cfg.N (cfg.S - 20) { u with mem := um, pop := pc } (ulog ++ uev.map .pop))
    (hS : Shows cfg m' um (Function.update u.hand none pc.holding)) (hl : s.mem.Later m')
    (ht : um.tail = u.mem.tail) : Steps cfg s log (.ring .pop) := by
  have hev : (uev.map (PopEvent.map UInt64.ofNat)).map (RingEvent.pop : _ → RingEvent ι UInt64) =
      (uev.map .pop).map (RingEvent.map UInt64.ofNat) := by
    simp [RingEvent.map]
  refine ⟨{ s with mem := m', pop := pc.map UInt64.ofNat },
    (uev.map (PopEvent.map UInt64.ofNat)).map .pop, { u with mem := um, pop := pc },
    ulog ++ uev.map .pop, ?_, hI, ?_, ?_, rfl, h.agree.append ?_⟩
  · simp only [orderedStep, RingAction.thread, ringStep, hs, Option.map_some]
    rw [RingState.loaded, hm]
  · rw [hand_pop]
    exact hS
  · intro j
    obtain ⟨pc', hpc, hu, hloads⟩ := h.push j
    exact ⟨pc', hpc, hu, hloads.later h.mem.wf hl ht.ge⟩
  · rw [hev]
    exact .of_map _

include hN in
theorem loadHead_step (h : Tracks cfg s log u ulog) {out : List UInt8} (hpc : s.pop = .loadHead out)
    (hu : u.pop = .loadHead out) : Steps cfg s log (.ring .pop) := by
  have hseen : (s.mem.view none).2 .head = s.mem.count .head :=
    Nat.le_antisymm (h.mem.wf.view none .head) h.mem.head.1
  have hload : ((segOps cfg).ordered cfg.slotPtr (none : Option ι)).loadHead s.mem =
      some (UInt64.ofNat u.mem.head) := by
    show s.mem.value _ _ _ = _
    rw [hseen]
    exact h.mem.head.2
  have hnone : u.hand none = none := by rw [RingState.hand, hu]; rfl
  exact h.popped (.loadSeq out u.mem.head) [] (hpc ▸ (PopTrans.loadHead hload).step)
    (hpc ▸ rfl) (h.ring.popTrans hN hu (.loadHead rfl))
      ((hand_keep hnone).symm ▸ h.mem) (.refl _) rfl

include hN in
/-- A `seq` of any age again: a published position is the latest message of its slot. -/
theorem loadSeq_pop (h : Tracks cfg s log u ulog) (hb : u.mem.tail < 2 ^ 63 - cfg.N)
    {out : List UInt8} {head : Nat} (hpc : s.pop = .loadSeq out (UInt64.ofNat head))
    (hu : u.pop = .loadSeq out head) :
    Steps cfg s log (.ring .pop) := by
  have hwf := h.mem.wf
  have hle := h.ring.freed_le
  have hhead : head = u.mem.head := by
    have hok := h.ring.pop_ok
    rw [hu] at hok
    exact hok
  have hfreed : freed u = u.mem.head := freed_eq_head (by simp [hu])
  have hnone : u.hand none = none := by rw [RingState.hand, hu]; rfl
  obtain ⟨v, hval, hv, hlast⟩ := h.mem.seq head _ (hwf.view none (.seq (cfg.slotAt head)))
  have hload : ((segOps cfg).ordered cfg.slotPtr (none : Option ι)).loadSeq (UInt64.ofNat head)
      s.mem = some (UInt64.ofNat v) := hval
  have hseq : u.mem.seq (head % cfg.N) = head ∨ u.mem.seq (head % cfg.N) = head + 1 := by
    rcases h.ring.slot head (by omega) (by omega) with ⟨hs, _⟩ | ⟨hs, _⟩
    · exact .inl hs
    · exact .inr hs
  obtain ⟨w, hw, hk, hloaded, hpassed⟩ :=
    RelAcq.loaded_eq hwf .acquire none (.seq (cfg.slotAt head))
  have hS := h.mem.setView hw hk
  have hlater := RelAcq.setView_later hw
  by_cases hready : v = head + 1
  · have hs : u.mem.seq (head % cfg.N) = head + 1 := by omega
    have hn := hlast.mp (hready.trans hs.symm)
    have hfree (t : Option ι) (q : Nat) (hq : u.hand t = some q) : q % cfg.N ≠ head % cfg.N := by
      cases t with
      | none =>
        rw [hnone] at hq
        cases hq
      | some i =>
        obtain ⟨data, hwr⟩ := writing_of_hand hq
        rw [hhead] at hs ⊢
        exact h.ring.writer_slot_ne_head hwr hfreed hs
    have hcov := h.mem.free head hfree
    rw [← hn] at hcov
    have hview : (s.mem.setView none w).view none = w := by simp [RelAcq.setView]
    have hS' := hS.take (p := head) hnone (hn.ge.trans ((hlater.view none).2 _))
      (hview.symm ▸ hcov.mono (hpassed rfl))
    have hload' : ((segOps cfg).ordered cfg.slotPtr (none : Option ι)).loadSeq (UInt64.ofNat head)
        s.mem = some (UInt64.ofNat head + 1) := by
      rw [hload, hready, ofNat_succ]
    have hI := h.ring.popTrans hN hu (.ready (congrArg some hs))
    exact h.popped (.readLen out head) [] (hpc ▸ (PopTrans.ready hload').step)
      (hpc ▸ hloaded) hI hS' hlater rfl
  · have hne : UInt64.ofNat v ≠ UInt64.ofNat head + 1 := by
      rw [ofNat_succ]
      exact mt (ofNat_inj_of_near (by omega) (by omega)).mp hready
    have hI : RingInv cfg.N (cfg.S - 20) { u with pop := .done none out }
        (ulog ++ [.pop (.none out)]) :=
      h.ring.quiet_pop (.none out) ((freed_eq_head (by simp)).trans hfreed.symm) trivial
        (by simp [reservedSince])
    exact h.popped (.done none out) [.none out] (hpc ▸ (PopTrans.empty hload hne).step)
      (hpc ▸ hloaded) hI ((hand_keep hnone).symm ▸ hS) hlater rfl

include hg hf in
theorem read_step (h : Tracks cfg s log u ulog) (pc pc' : PopPc Nat) {p : Nat}
    (hpc : s.pop = pc.map UInt64.ofNat) (hu : u.pop = pc) (hold : pc.holding = some p)
    (hnew : pc'.holding = some p)
    (hs : popStep ((segOps cfg).ordered cfg.slotPtr none) (pc.map UInt64.ofNat) s.mem =
      some (pc'.map UInt64.ofNat, s.mem, []))
    (hm : (pc.map UInt64.ofNat).loaded cfg.slotPtr none s.mem = s.mem.noteRead none (cfg.slotAt p))
    (hI : RingInv cfg.N (cfg.S - 20) { u with pop := pc' } ulog) :
    Steps cfg s log (.ring .pop) := by
  have hi : u.hand none = some p := by rw [RingState.hand, hu, hold]
  have htouched := RelAcq.noteRead_touched s.mem none (cfg.slotAt p)
  have hS := h.mem.touched hg hf htouched hi (h.mine hi) h.mem.mem rfl rfl rfl
  refine h.popped pc' [] (hpc ▸ hs) (hpc ▸ hm) (by simpa using hI) ?_ htouched.later
    rfl
  rw [hnew, hand_keep hi]
  exact hS

include hg hf hN in
theorem readLen_step (h : Tracks cfg s log u ulog) {out : List UInt8} {head : Nat}
    (hpc : s.pop = .readLen out (UInt64.ofNat head)) (hu : u.pop = .readLen out head) :
    Steps cfg s log (.ring .pop) := by
  have hi : u.hand none = some head := by rw [RingState.hand, hu]; rfl
  have hlen : (segOps cfg).loadLen (UInt64.ofNat head) s.mem.mem =
      some (u.mem.len (head % cfg.N)) := by
    show s.mem.mem.load32 (cfg.slotPtr (UInt64.ofNat head) + 8).toNat = _
    rw [slotPtr_add hg hf head (by decide)]
    exact h.mem.mem.len _ (Nat.mod_lt head hg.pos)
  have hload : ((segOps cfg).ordered cfg.slotPtr (none : Option ι)).loadLen (UInt64.ofNat head)
      s.mem = some (u.mem.len (head % cfg.N)) :=
    (RelAcq.plainRead_eq (h.mem.held _ _ hi).2).trans hlen
  have hI := h.ring.popTrans hN hu (.readLen rfl)
  exact h.read_step hg hf (.readLen out head) (.readPayload out head _) hpc hu rfl rfl
    (PopTrans.readLen hload).step rfl (by simpa using hI)

include hg hf hN in
theorem readPayload_step (h : Tracks cfg s log u ulog) {out : List UInt8} {head len : Nat}
    (hpc : s.pop = .readPayload out (UInt64.ofNat head) len)
    (hu : u.pop = .readPayload out head len) :
    Steps cfg s log (.ring .pop) := by
  have hi : u.hand none = some head := by rw [RingState.hand, hu]; rfl
  have hlen : len ≤ cfg.S - 16 := by
    have hnear := h.ring.popNear hN
    rw [hu] at hnear
    exact hnear
  have hread : (segOps cfg).readPayload (UInt64.ofNat head) len s.mem.mem =
      some ((List.range len).map (u.mem.payload (head % cfg.N))) := by
    show s.mem.mem.read (cfg.slotPtr (UInt64.ofNat head) + SLOT_HDR).toNat len = _
    rw [slotPtr_add hg hf head (by decide)]
    exact h.mem.mem.readPayload hf hg (Nat.mod_lt head hg.pos) hlen
  have hload : ((segOps cfg).ordered cfg.slotPtr (none : Option ι)).readPayload (UInt64.ofNat head)
      len s.mem = some ((List.range len).map (u.mem.payload (head % cfg.N))) :=
    (RelAcq.plainRead_eq (h.mem.held _ _ hi).2).trans hread
  have hI := h.ring.popTrans hN hu (.readPayload rfl)
  exact h.read_step hg hf (.readPayload out head len) (.release _ head) hpc hu rfl rfl
    (PopTrans.readPayload hload).step rfl (by simpa using hI)

include hg hf hN in
theorem release_step (h : Tracks cfg s log u ulog) {out : List UInt8} {head : Nat}
    (hpc : s.pop = .release out (UInt64.ofNat head)) (hu : u.pop = .release out head) :
    Steps cfg s log (.ring .pop) := by
  have hi : u.hand none = some head := by rw [RingState.hand, hu]; rfl
  have hseq : u.mem.seq (head % cfg.N) = head + 1 := (h.ring.of_holding (by rw [hu]; rfl)).2.1
  have hsc : PopTrans (unbounded cfg) (.release out head) u.mem (.storeHead out head)
      { u.mem with seq := Function.update u.mem.seq (head % cfg.N) (head + cfg.N) }
      [.release head] := .release rfl
  have hI := h.ring.popTrans hN hu hsc
  obtain ⟨m, ht, hm⟩ :=
    pop_sim hg hf h.mem.mem (show PopNear cfg u.mem (.release out head) from trivial) hsc
  cases ht with
  | release hst =>
    have hS := h.mem.release hg hf hm hi (h.mine hi) (by omega)
    have hst : (segOps cfg).storeSeq (UInt64.ofNat head) (UInt64.ofNat head + cfg.numSlots)
        s.mem.mem = some m := hst
    have hw : ((segOps cfg).ordered cfg.slotPtr (none : Option ι)).storeSeq (UInt64.ofNat head)
        (UInt64.ofNat head + cfg.numSlots) s.mem = some (s.mem.wrote m none (.seq (cfg.slotAt head))
          ⟨UInt64.ofNat (head + cfg.N), (s.mem.view none).since (.seq (cfg.slotAt head))
            (s.mem.count (.seq (cfg.slotAt head)) + 1)⟩) := by
      refine (RelAcq.store_release _ _ (h.mem.held _ _ hi).1).trans ?_
      rw [hst, ofNat_add_numSlots]
      rfl
    exact h.popped (.storeHead out head) [.release head]
      (hpc ▸ (PopTrans.release hw).step) (hpc ▸ rfl) hI hS (RelAcq.wrote_later h.mem.wf _ _) rfl

include hg hf hN in
theorem storeHead_step (h : Tracks cfg s log u ulog) {out : List UInt8} {head : Nat}
    (hpc : s.pop = .storeHead out (UInt64.ofNat head)) (hu : u.pop = .storeHead out head) :
    Steps cfg s log (.ring .pop) := by
  have hnone : u.hand none = none := by rw [RingState.hand, hu]; rfl
  have hsc : PopTrans (unbounded cfg) (.storeHead out head) u.mem (.done (some head) out)
      { u.mem with head := head + 1 } [.some head out] := .storeHead rfl
  have hI := h.ring.popTrans hN hu hsc
  obtain ⟨m, ht, hm⟩ :=
    pop_sim hg hf h.mem.mem (show PopNear cfg u.mem (.storeHead out head) from trivial) hsc
  cases ht with
  | storeHead hst =>
    have hS := h.mem.storeHead hm
    have hst : (segOps cfg).storeHead (UInt64.ofNat head + 1) s.mem.mem = some m := hst
    have hw : ((segOps cfg).ordered cfg.slotPtr (none : Option ι)).storeHead
        (UInt64.ofNat head + 1) s.mem = some (s.mem.wrote m none .head
          ⟨UInt64.ofNat (head + 1), (s.mem.view none).since .head (s.mem.count .head + 1)⟩) := by
      refine (RelAcq.store_release _ _ h.mem.head.1).trans ?_
      rw [hst, ofNat_succ]
      rfl
    exact h.popped (.done (some head) out) [.some head out]
      (hpc ▸ (PopTrans.storeHead hw).step) (hpc ▸ rfl) hI ((hand_keep hnone).symm ▸ hS)
      (RelAcq.wrote_later h.mem.wf _ _) rfl

include hg hf hN in
theorem pop_step (h : Tracks cfg s log u ulog) (hb : (reserves log).length < 2 ^ 63 - cfg.N)
    (hready : s.pop.ready = false) : Steps cfg s log (.ring .pop) := by
  have hpc := h.pop
  rw [hpc, PopPc.ready_map] at hready
  cases hu : u.pop with
  | idle => rw [hu] at hready; cases hready
  | done r out => rw [hu] at hready; cases hready
  | loadHead out => exact h.loadHead_step hN (by rw [hpc, hu]; rfl) hu
  | loadSeq out head => exact h.loadSeq_pop hN (h.tail_lt hb) (by rw [hpc, hu]; rfl) hu
  | readLen out head => exact h.readLen_step hg hf hN (by rw [hpc, hu]; rfl) hu
  | readPayload out head len => exact h.readPayload_step hg hf hN (by rw [hpc, hu]; rfl) hu
  | release out head => exact h.release_step hg hf hN (by rw [hpc, hu]; rfl) hu
  | storeHead out head => exact h.storeHead_step hg hf hN (by rw [hpc, hu]; rfl) hu

end Pop

end Tracks

end Tracks

end ShmMpsc
