import ShmMpsc.Ring.Ordered

/-!
# Who may touch a slot

A slot passes from hand to hand: a producer that has reserved its position, the consumer
that has found the position published, and nobody in between. Whoever has it knows every
access to its bytes and the last message of its `seq`; what nobody has is told by that
message.
-/

namespace ShmMpsc

set_option autoImplicit false

open RingConfig

namespace RingConfig

/-- The slot of position `p`, by its address. -/
def slotAt (cfg : RingConfig) (p : Nat) : UInt64 := cfg.slotPtr (UInt64.ofNat p)

theorem slotAt_eq_iff {cfg : RingConfig} (hg : cfg.Admitted) (hf : cfg.Fits) {p q : Nat} :
    cfg.slotAt p = cfg.slotAt q ↔ p % cfg.N = q % cfg.N := by
  have hmin : 20 < cfg.slotSize.toNat := hg.min
  rw [← UInt64.toNat_inj, slotAt, slotAt, slotPtr_ofNat hg hf, slotPtr_ofNat hg hf]
  constructor
  · intro h
    by_contra hne
    have happ := cfg.slotOff_apart hne
    rw [h] at happ
    omega
  · exact congrArg cfg.slotOff

end RingConfig

/-- The position whose slot the consumer reads. -/
def PopPc.holding {W : Type} : PopPc W → Option W
  | .readLen _ head | .readPayload _ head _ | .release _ head => some head
  | _ => none

variable {ι : Type} {cfg : RingConfig}

/-- The position whose slot thread `t` has. -/
def RingState.hand (u : RingState ι Nat UMem) : Option ι → Option Nat
  | some i => (u.push i).writing.map Prod.snd
  | none => u.pop.holding

abbrev Ordered (ι : Type) := RelAcq (Option ι) (Word UInt64) UInt64 UInt64 Memory

/-- The memory `s` shows `u` to threads that have the slots of `hand`. -/
structure Shows (cfg : RingConfig) (s : Ordered ι) (u : UMem) (hand : Option ι → Option Nat) :
    Prop where
  wf : s.Wf
  mem : MemSim cfg s.mem u
  /-- Older messages of a slot have smaller values. -/
  seq : ∀ p n, n ≤ s.count (.seq (cfg.slotAt p)) → ∃ v,
    s.value ((segOps cfg).loadSeq (UInt64.ofNat p)) (.seq (cfg.slotAt p)) n =
      some (UInt64.ofNat v) ∧
      v ≤ u.seq (p % cfg.N) ∧
      (v = u.seq (p % cfg.N) ↔ n = s.count (.seq (cfg.slotAt p)))
  tail : ∀ n ≤ s.count .tail, ∃ v ≤ u.tail,
    s.value (segOps cfg).loadTail .tail n = some (UInt64.ofNat v)
  head : s.count .head ≤ (s.view none).2 .head ∧
    s.value (segOps cfg).loadHead .head (s.count .head) = some (UInt64.ofNat u.head)
  held : ∀ t p, hand t = some p →
    s.count (.seq (cfg.slotAt p)) ≤ (s.view t).2 (.seq (cfg.slotAt p)) ∧
      s.Covers (s.view t) (cfg.slotAt p)
  free : ∀ p, (∀ t q, hand t = some q → q % cfg.N ≠ p % cfg.N) →
    s.Covers (s.passed (.seq (cfg.slotAt p)) (s.count (.seq (cfg.slotAt p)))) (cfg.slotAt p)

namespace Shows

variable {s s' : Ordered ι} {u u' : UMem} {hand : Option ι → Option Nat}
  {t : Option ι} {p : Nat}

theorem start {m : Memory} {len : Nat → UInt32} {payload : Nat → Nat → UInt8}
    (hg : cfg.Admitted) (hf : cfg.Fits) (hm : MemSim cfg m (UMem.start cfg.N len payload)) :
    Shows cfg (.start m : Ordered ι) (UMem.start cfg.N len payload) fun _ => none where
  wf := RelAcq.start_wf m
  mem := hm
  seq := by
    intro p n hn
    obtain rfl : n = 0 := Nat.le_zero.mp hn
    refine ⟨_, ?_, Nat.le_refl _, iff_of_true rfl rfl⟩
    show m.load64 (cfg.slotPtr (UInt64.ofNat p)).toNat = _
    rw [slotPtr_ofNat hg hf, hm.seq _ (Nat.mod_lt p hg.pos)]
  tail := by
    intro n hn
    obtain rfl : n = 0 := Nat.le_zero.mp hn
    exact ⟨0, Nat.le_refl 0, hm.tail⟩
  head := ⟨Nat.le_refl 0, hm.head⟩
  held := fun _ _ h => by cases h
  free := fun p _ => RelAcq.start_covers m _ _

theorem setMem (h : Shows cfg s u hand) {m : Memory} (hm : MemSim cfg m u')
    (htail : u'.tail = u.tail) (hhead : u'.head = u.head) (hseq : u'.seq = u.seq) :
    Shows cfg { s with mem := m } u' hand := by
  have hvalue (get : Memory → Option UInt64) (x : Word UInt64) (n : Nat) :
      ({ s with mem := m } : Ordered ι).value get x n = s.value get x n := by cases n <;> rfl
  have hpassed (x : Word UInt64) (n : Nat) :
      ({ s with mem := m } : Ordered ι).passed x n = s.passed x n := by cases n <;> rfl
  refine ⟨⟨h.wf.view, fun x n => ?_⟩, hm, ?_, ?_, ?_, h.held, ?_⟩
  · rw [hpassed]
    exact h.wf.passed x n
  · intro p n hn
    rw [hvalue, hseq]
    exact h.seq p n hn
  · intro n hn
    rw [hvalue, htail]
    exact h.tail n hn
  · rw [hvalue, hhead]
    exact h.head
  · intro p hp
    rw [hpassed]
    exact h.free p hp

variable [DecidableEq ι]

theorem setView (h : Shows cfg s u hand) {v : View (Option ι) (Word UInt64)} (hv : s.view t ≤ v)
    (hk : s.Known v) : Shows cfg (s.setView t v) u hand := by
  have hlater := RelAcq.setView_later hv
  have hvalue (get : Memory → Option UInt64) (x : Word UInt64) (n : Nat) :
      (s.setView t v).value get x n = s.value get x n := by cases n <;> rfl
  have hpassed (x : Word UInt64) (n : Nat) : (s.setView t v).passed x n = s.passed x n := by
    cases n <;> rfl
  refine ⟨h.wf.setView hk, h.mem, ?_, ?_, ?_, ?_, ?_⟩
  · intro p n hn
    rw [hvalue]
    exact h.seq p n hn
  · intro n hn
    rw [hvalue]
    exact h.tail n hn
  · rw [hvalue]
    exact ⟨h.head.1.trans ((hlater.view none).2 _), h.head.2⟩
  · intro k p hp
    obtain ⟨hc, hcov⟩ := h.held k p hp
    exact ⟨hc.trans ((hlater.view k).2 _), hcov.mono (hlater.view k)⟩
  · intro p hp
    rw [hpassed]
    exact h.free p hp

theorem touched (hg : cfg.Admitted) (hf : cfg.Fits) (h : Shows cfg s u hand)
    (ht : s.Touched t (cfg.slotAt p) s') (hp : hand t = some p)
    (hmine : ∀ k q, hand k = some q → q % cfg.N = p % cfg.N → k = t)
    (hm : MemSim cfg s'.mem u') (htail : u'.tail = u.tail) (hhead : u'.head = u.head)
    (hseq : u'.seq = u.seq) : Shows cfg s' u' hand := by
  have hlater := ht.later
  have hcount (x : Word UInt64) : s'.count x = s.count x := by simp only [RelAcq.count, ht.messages]
  refine ⟨ht.wf h.wf, hm, ?_, ?_, ?_, ?_, ?_⟩
  · intro q n hn
    rw [hcount] at hn
    rw [hlater.value _ _ _ hn, hcount, hseq]
    exact h.seq q n hn
  · intro n hn
    rw [hcount] at hn
    rw [hlater.value _ _ _ hn, htail]
    exact h.tail n hn
  · rw [hcount, hlater.value _ _ _ (Nat.le_refl _), hhead]
    exact ⟨h.head.1.trans ((hlater.view none).2 _), h.head.2⟩
  · intro k q hq
    obtain ⟨hc, hcov⟩ := h.held k q hq
    refine ⟨?_, ?_⟩
    · rw [hcount]
      exact hc.trans ((hlater.view k).2 _)
    · by_cases hqp : q % cfg.N = p % cfg.N
      · obtain rfl := hmine k q hq hqp
        rw [(slotAt_eq_iff hg hf).mpr hqp] at hcov ⊢
        exact ht.covers hcov
      · rw [ht.covers_other (mt (slotAt_eq_iff hg hf).mp hqp)]
        exact hcov.mono (hlater.view k)
  · intro q hq
    have hqp : p % cfg.N ≠ q % cfg.N := hq t p hp
    rw [ht.covers_other (mt (slotAt_eq_iff hg hf).mp hqp.symm), hcount,
      hlater.passed _ _ (Nat.le_refl _)]
    exact h.free q hq

/-- A message of a word that is no slot's. -/
theorem header (h : Shows cfg s u hand) {m : Memory} {x : Word UInt64}
    {msg : Message (Option ι) (Word UInt64) UInt64} (hx : ∀ k, x ≠ .seq k)
    (hwf : (s.wrote m t x msg).Wf) (hm : MemSim cfg m u') (hseq : u'.seq = u.seq)
    (htail : ∀ n ≤ (s.wrote m t x msg).count .tail, ∃ v ≤ u'.tail,
      (s.wrote m t x msg).value (segOps cfg).loadTail .tail n = some (UInt64.ofNat v))
    (hhead : (s.wrote m t x msg).count .head ≤ ((s.wrote m t x msg).view none).2 .head ∧
      (s.wrote m t x msg).value (segOps cfg).loadHead .head ((s.wrote m t x msg).count .head) =
        some (UInt64.ofNat u'.head)) :
    Shows cfg (s.wrote m t x msg) u' hand := by
  have hlater := RelAcq.wrote_later (t := t) (x := x) h.wf m msg
  have hcount (k : UInt64) : (s.wrote m t x msg).count (.seq k) = s.count (.seq k) :=
    RelAcq.count_wrote_of_ne (Ne.symm (hx k))
  refine ⟨hwf, hm, ?_, htail, hhead, ?_, ?_⟩
  · intro p n hn
    rw [hcount] at hn ⊢
    rw [hlater.value _ _ _ hn, hseq]
    exact h.seq p n hn
  · intro k p hp
    obtain ⟨hc, hcov⟩ := h.held k p hp
    rw [hcount]
    exact ⟨hc.trans ((hlater.view k).2 _), hcov.mono (hlater.view k)⟩
  · intro p hp
    rw [hcount, hlater.passed _ _ (Nat.le_refl _)]
    exact h.free p hp

theorem storeTail (h : Shows cfg s u hand) {v : Nat} {m : Memory}
    (hm : MemSim cfg m { u with tail := v }) (hv : u.tail ≤ v) :
    Shows cfg (s.wrote m t .tail ⟨UInt64.ofNat v, s.passed .tail (s.count .tail)⟩)
      { u with tail := v } hand := by
  have hlater := RelAcq.wrote_later (t := t) (x := .tail) h.wf m
    ⟨UInt64.ofNat v, s.passed .tail (s.count .tail)⟩
  refine h.header (by simp) (h.wf.wrote fun y => (h.wf.passed _ _ y).trans RelAcq.count_le_wrote) hm
    rfl ?_ ?_
  · intro n hn
    rw [RelAcq.count_wrote_self] at hn
    by_cases hlast : n = s.count .tail + 1
    · subst hlast
      exact ⟨v, Nat.le_refl _, RelAcq.value_wrote_last⟩
    · have hn : n ≤ s.count .tail := by omega
      obtain ⟨w, hw, hval⟩ := h.tail n hn
      rw [hlater.value _ _ _ hn]
      exact ⟨w, hw.trans hv, hval⟩
  · rw [RelAcq.count_wrote_of_ne (by simp), hlater.value _ _ _ (Nat.le_refl _)]
    exact ⟨h.head.1.trans ((hlater.view none).2 _), h.head.2⟩

theorem storeHead (h : Shows cfg s u hand) {v : Nat} {m : Memory}
    (hm : MemSim cfg m { u with head := v }) :
    Shows cfg (s.wrote m none .head ⟨UInt64.ofNat v, (s.view none).since .head (s.count .head + 1)⟩)
      { u with head := v } hand := by
  have hlater := RelAcq.wrote_later (t := none) (x := .head) h.wf m
    ⟨UInt64.ofNat v, (s.view none).since .head (s.count .head + 1)⟩
  refine h.header (by simp) (h.wf.wrote fun y => RelAcq.since_le_count h.wf _ _ y) hm rfl ?_ ?_
  · intro n hn
    rw [RelAcq.count_wrote_of_ne (by simp)] at hn
    rw [hlater.value _ _ _ hn]
    exact h.tail n hn
  · rw [RelAcq.count_wrote_self]
    exact ⟨by simp [RelAcq.wrote, View.since], RelAcq.value_wrote_last⟩

/-- A free slot comes into the hand of a thread that knows all about it. -/
theorem take (h : Shows cfg s u hand) (ht : hand t = none)
    (hc : s.count (.seq (cfg.slotAt p)) ≤ (s.view t).2 (.seq (cfg.slotAt p)))
    (hcov : s.Covers (s.view t) (cfg.slotAt p)) :
    Shows cfg s u (Function.update hand t (some p)) := by
  refine ⟨h.wf, h.mem, h.seq, h.tail, h.head, ?_, ?_⟩
  · intro k q hq
    by_cases hk : k = t
    · subst hk
      rw [Function.update_self] at hq
      cases hq
      exact ⟨hc, hcov⟩
    · rw [Function.update_of_ne hk] at hq
      exact h.held k q hq
  · intro q hq
    refine h.free q fun k r hr => hq k r ?_
    have hk : k ≠ t := by
      rintro rfl
      rw [ht] at hr
      cases hr
    rwa [Function.update_of_ne hk]

theorem release (hg : cfg.Admitted) (hf : cfg.Fits) (h : Shows cfg s u hand) {v : Nat}
    {m : Memory} (hm : MemSim cfg m { u with seq := Function.update u.seq (p % cfg.N) v })
    (hp : hand t = some p) (hmine : ∀ k q, hand k = some q → q % cfg.N = p % cfg.N → k = t)
    (hv : u.seq (p % cfg.N) < v) :
    Shows cfg (s.wrote m t (.seq (cfg.slotAt p)) ⟨UInt64.ofNat v, (s.view t).since
        (.seq (cfg.slotAt p)) (s.count (.seq (cfg.slotAt p)) + 1)⟩)
      { u with seq := Function.update u.seq (p % cfg.N) v } (Function.update hand t none) := by
  have hlater := RelAcq.wrote_later (t := t) (x := .seq (cfg.slotAt p)) h.wf m ⟨UInt64.ofNat v,
    (s.view t).since (.seq (cfg.slotAt p)) (s.count (.seq (cfg.slotAt p)) + 1)⟩
  have hcount {x : Word UInt64} (hx : x ≠ .seq (cfg.slotAt p)) : (s.wrote m t (.seq (cfg.slotAt p))
      ⟨UInt64.ofNat v, (s.view t).since (.seq (cfg.slotAt p))
        (s.count (.seq (cfg.slotAt p)) + 1)⟩).count x = s.count x :=
    RelAcq.count_wrote_of_ne hx
  have hother {q : Nat} (hq : q % cfg.N ≠ p % cfg.N) :
      Word.seq (cfg.slotAt q) ≠ .seq (cfg.slotAt p) := by
    intro hx
    exact hq ((slotAt_eq_iff hg hf).mp (Word.seq.inj hx))
  refine ⟨h.wf.wrote fun y => RelAcq.since_le_count h.wf _ _ y, hm, ?_, ?_, ?_, ?_, ?_⟩
  · intro q n hn
    by_cases hq : q % cfg.N = p % cfg.N
    · have hslot := (slotAt_eq_iff hg hf).mpr hq
      have hold := h.seq q n
      rw [hslot] at hn hold ⊢
      rw [RelAcq.count_wrote_self] at hn ⊢
      rw [hq] at hold ⊢
      simp only [Function.update_self]
      by_cases hlast : n = s.count (.seq (cfg.slotAt p)) + 1
      · subst hlast
        exact ⟨v, RelAcq.value_wrote_last, Nat.le_refl _, iff_of_true rfl rfl⟩
      · have hn : n ≤ s.count (.seq (cfg.slotAt p)) := by omega
        obtain ⟨w, hval, hw, _⟩ := hold hn
        rw [hlater.value _ _ _ hn]
        exact ⟨w, hval, by omega, iff_of_false (by omega) hlast⟩
    · rw [hcount (hother hq)] at hn ⊢
      rw [hlater.value _ _ _ hn]
      simp only [Function.update_of_ne hq]
      exact h.seq q n hn
  · intro n hn
    rw [hcount (by simp)] at hn
    rw [hlater.value _ _ _ hn]
    exact h.tail n hn
  · rw [hcount (by simp), hlater.value _ _ _ (Nat.le_refl _)]
    exact ⟨h.head.1.trans ((hlater.view none).2 _), h.head.2⟩
  · intro k q hq
    have hk : k ≠ t := by
      rintro rfl
      rw [Function.update_self] at hq
      cases hq
    rw [Function.update_of_ne hk] at hq
    obtain ⟨hc, hcov⟩ := h.held k q hq
    rw [hcount (hother fun hqp => hk (hmine k q hq hqp))]
    exact ⟨hc.trans ((hlater.view k).2 _), hcov.mono (hlater.view k)⟩
  · intro q hq
    by_cases hqp : q % cfg.N = p % cfg.N
    · rw [(slotAt_eq_iff hg hf).mpr hqp, RelAcq.count_wrote_self, RelAcq.passed_wrote_last]
      exact (h.held t p hp).2
    · rw [hcount (hother hqp), hlater.passed _ _ (Nat.le_refl _)]
      refine h.free q fun k r hr => ?_
      by_cases hk : k = t
      · subst hk
        rw [hp] at hr
        cases hr
        exact fun heq => hqp heq.symm
      · exact hq k r (by rwa [Function.update_of_ne hk])

end Shows

end ShmMpsc
