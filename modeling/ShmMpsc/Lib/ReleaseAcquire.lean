import Mathlib.Logic.Function.Basic
import Mathlib.Order.Lattice

/-!
# A memory with release and acquire

Every word keeps its messages in the order in which they were written. A thread may read
any message that is not older than what it knows; an acquire takes over what the writer knew
when it released. Cells are plain bytes: two accesses to a cell, one of them a write, that
are not ordered by what the threads know are a data race, and there the machine stops. It
also stops at a store whose place among the messages of its word is open.

A word that is compare-exchanged is not stored to, so a successful exchange has read the
latest message.
-/

namespace ShmMpsc

set_option autoImplicit false

/-- What a thread knows: how many accesses to cells of every thread came before, and for every
word the oldest message it may still read. -/
abbrev View (τ X : Type) := (τ → Nat) × (X → Nat)

namespace View

variable {τ X : Type}

/-- One more access of `t`. -/
def tick [DecidableEq τ] (v : View τ X) (t : τ) : View τ X :=
  (Function.update v.1 t (v.1 t + 1), v.2)

/-- From now on message `n` of `x` or a later one. -/
def since [DecidableEq X] (v : View τ X) (x : X) (n : Nat) : View τ X :=
  (v.1, Function.update v.2 x n)

theorem le_tick [DecidableEq τ] (v : View τ X) (t : τ) : v ≤ v.tick t := by
  refine ⟨fun k => ?_, le_refl v.2⟩
  by_cases hk : k = t
  · subst hk
    simp [tick]
  · simp [tick, hk]

theorem le_since [DecidableEq X] {v : View τ X} {x : X} {n : Nat} (h : v.2 x ≤ n) :
    v ≤ v.since x n := by
  refine ⟨le_refl v.1, fun y => ?_⟩
  by_cases hy : y = x
  · subst hy
    simpa [since] using h
  · simp [since, hy]

end View

/-- How an access orders others. -/
inductive MemOrder where
  | relaxed
  | acquire
  | release
  deriving DecidableEq

structure Message (τ X V : Type) where
  val : V
  /-- What an acquire of the message takes over. -/
  view : View τ X

structure RelAcq (τ X V D M : Type) where
  /-- Every word and cell as last written. -/
  mem : M
  /-- Every word as it was at first. -/
  first : M
  messages : X → List (Message τ X V)
  view : τ → View τ X
  writes : D → List (τ × Nat)
  reads : D → List (τ × Nat)

namespace RelAcq

variable {τ X V D M α : Type}

/-- All that was written before is known to everyone. -/
def start (m : M) : RelAcq τ X V D M where
  mem := m
  first := m
  messages := fun _ => []
  view := fun _ => (fun _ => 0, fun _ => 0)
  writes := fun _ => []
  reads := fun _ => []

def count (s : RelAcq τ X V D M) (x : X) : Nat := (s.messages x).length

/-- Message `n` of `x`; number 0 is what was there at first. -/
def value (get : M → Option V) (s : RelAcq τ X V D M) (x : X) : Nat → Option V
  | 0 => get s.first
  | n + 1 => (s.messages x)[n]?.map Message.val

/-- What message `n` of `x` passes on. -/
def passed (s : RelAcq τ X V D M) (x : X) : Nat → View τ X
  | 0 => (fun _ => 0, fun _ => 0)
  | n + 1 => ((s.messages x)[n]?.map Message.view).getD (fun _ => 0, fun _ => 0)

def load (get : M → Option V) (t : τ) (x : X) (s : RelAcq τ X V D M) : Option V :=
  s.value get x ((s.view t).2 x)

/-- Every access of `s` to the cell is known to `v`. -/
def Covers (s : RelAcq τ X V D M) (v : View τ X) (d : D) : Prop :=
  ∀ e ∈ s.writes d ++ s.reads d, e.2 ≤ v.1 e.1

section Steps

variable [DecidableEq τ]

def setView (s : RelAcq τ X V D M) (t : τ) (v : View τ X) : RelAcq τ X V D M :=
  { s with view := Function.update s.view t v }

/-- After a load of `x` by thread `t`. -/
def loaded (o : MemOrder) (t : τ) (x : X) (s : RelAcq τ X V D M) : RelAcq τ X V D M :=
  if o = .acquire then s.setView t (s.view t ⊔ s.passed x ((s.view t).2 x)) else s

section Words

variable [DecidableEq X]

/-- One more message of `x` becomes the oldest that thread `t` may read. -/
def see (t : τ) (x : X) (s : RelAcq τ X V D M) : Option (RelAcq τ X V D M) :=
  if (s.view t).2 x < s.count x then
    some (s.setView t ((s.view t).since x ((s.view t).2 x + 1)))
  else none

/-- Thread `t` has made the latest message of `x`. -/
def wrote (s : RelAcq τ X V D M) (m : M) (t : τ) (x : X) (msg : Message τ X V) :
    RelAcq τ X V D M :=
  { s with
    mem := m
    messages := Function.update s.messages x (s.messages x ++ [msg])
    view := Function.update s.view t ((s.view t).since x (s.count x + 1)) }

def store (put : M → Option M) (o : MemOrder) (v : V) (t : τ) (x : X) (s : RelAcq τ X V D M) :
    Option (RelAcq τ X V D M) :=
  if s.count x ≤ (s.view t).2 x then
    (put s.mem).map fun m => s.wrote m t x
      ⟨v, if o = .release then (s.view t).since x (s.count x + 1) else (fun _ => 0, fun _ => 0)⟩
  else none

/-- A relaxed compare-exchange passes on what the message it replaces passes on. -/
def cas (exchange : M → Option (M × Bool)) (new : V) (t : τ) (x : X) (s : RelAcq τ X V D M) :
    Option (RelAcq τ X V D M × Bool) :=
  (exchange s.mem).map fun r =>
    if r.2 then (s.wrote r.1 t x ⟨new, s.passed x (s.count x)⟩, true)
    else ({ s with mem := r.1 }, false)

end Words

section Cells

variable [DecidableEq D]

/-- A plain read is a race with a write that does not come before it. -/
def plainRead (get : M → Option α) (t : τ) (d : D) (s : RelAcq τ X V D M) : Option α :=
  if ∀ e ∈ s.writes d, e.2 ≤ (s.view t).1 e.1 then get s.mem else none

/-- After a plain read. -/
def noteRead (t : τ) (d : D) (s : RelAcq τ X V D M) : RelAcq τ X V D M :=
  { s with
    reads := Function.update s.reads d ((t, (s.view t).1 t + 1) :: s.reads d)
    view := Function.update s.view t ((s.view t).tick t) }

def noteWrite (m : M) (t : τ) (d : D) (s : RelAcq τ X V D M) : RelAcq τ X V D M :=
  { s with
    mem := m
    writes := Function.update s.writes d ((t, (s.view t).1 t + 1) :: s.writes d)
    view := Function.update s.view t ((s.view t).tick t) }

/-- A plain write is a race with any access that does not come before it. -/
def plainWrite (put : M → Option M) (t : τ) (d : D) (s : RelAcq τ X V D M) :
    Option (RelAcq τ X V D M) :=
  if ∀ e ∈ s.writes d ++ s.reads d, e.2 ≤ (s.view t).1 e.1 then
    (put s.mem).map fun m => s.noteWrite m t d
  else none

end Cells

end Steps

/-! ### What the threads know -/

/-- `v` knows of no message that is not there. -/
def Known (s : RelAcq τ X V D M) (v : View τ X) : Prop := ∀ x, v.2 x ≤ s.count x

structure Wf (s : RelAcq τ X V D M) : Prop where
  view : ∀ t, s.Known (s.view t)
  passed : ∀ x n, s.Known (s.passed x n)

theorem start_wf (m : M) : (start m : RelAcq τ X V D M).Wf where
  view := fun _ _ => Nat.le_refl 0
  passed := fun x n y => by cases n <;> exact Nat.le_refl 0

variable {s : RelAcq τ X V D M} {v w : View τ X} {d : D} {t : τ} {x : X}

theorem Covers.mono (h : s.Covers v d) (hv : v ≤ w) : s.Covers w d :=
  fun e he => (h e he).trans (hv.1 e.1)

theorem start_covers (m : M) (v : View τ X) (d : D) : (start m : RelAcq τ X V D M).Covers v d := by
  intro e he
  cases he

theorem Known.sup (hv : s.Known v) (hw : s.Known w) : s.Known (v ⊔ w) :=
  fun x => sup_le (hv x) (hw x)

variable [DecidableEq τ]

/-- A thread that gets to know what is there. -/
theorem Wf.setView (h : s.Wf) (hv : s.Known v) : (s.setView t v).Wf where
  view := by
    intro k
    by_cases hk : k = t
    · subst hk
      have hview : (s.setView k v).view k = v := Function.update_self ..
      rw [hview]
      exact hv
    · have hview : (s.setView t v).view k = s.view k := Function.update_of_ne hk ..
      rw [hview]
      exact h.view k
  passed := h.passed

/-- A load takes over what the message passes on, or nothing. -/
theorem loaded_eq (h : s.Wf) (o : MemOrder) (t : τ) (x : X) :
    ∃ v, s.view t ≤ v ∧ s.Known v ∧ s.loaded o t x = s.setView t v ∧
      (o = .acquire → s.passed x ((s.view t).2 x) ≤ v) := by
  by_cases ho : o = .acquire
  · subst ho
    exact ⟨_, le_sup_left, (h.view t).sup (h.passed x _), if_pos rfl, fun _ => le_sup_right⟩
  · refine ⟨s.view t, le_refl _, h.view t, ?_, fun h => absurd h ho⟩
    rw [loaded, if_neg ho, RelAcq.setView, Function.update_eq_self]

section Words

variable [DecidableEq X] {m : M} {msg : Message τ X V} {y : X} {n : Nat} {get : M → Option V}

@[simp] theorem count_wrote_self : (s.wrote m t x msg).count x = s.count x + 1 := by
  simp [wrote, count]

theorem count_wrote_of_ne (hy : y ≠ x) : (s.wrote m t x msg).count y = s.count y := by
  simp [wrote, count, hy]

theorem count_le_wrote : s.count y ≤ (s.wrote m t x msg).count y := by
  by_cases hy : y = x
  · subst hy
    rw [count_wrote_self]
    exact Nat.le_succ _
  · rw [count_wrote_of_ne hy]

theorem messages_wrote (hn : y = x → n < s.count x) :
    ((s.wrote m t x msg).messages y)[n]? = (s.messages y)[n]? := by
  by_cases hy : y = x
  · subst hy
    have hlt : n < (s.messages y).length := hn rfl
    simp [wrote, List.getElem?_append_left hlt]
  · simp [wrote, hy]

theorem value_wrote (hn : y = x → n ≤ s.count x) :
    (s.wrote m t x msg).value get y n = s.value get y n := by
  cases n with
  | zero => rfl
  | succ n =>
    simp only [value]
    rw [messages_wrote fun hy => hn hy]

theorem passed_wrote (hn : y = x → n ≤ s.count x) :
    (s.wrote m t x msg).passed y n = s.passed y n := by
  cases n with
  | zero => rfl
  | succ n =>
    simp only [passed]
    rw [messages_wrote fun hy => hn hy]

@[simp] theorem value_wrote_last :
    (s.wrote m t x msg).value get x (s.count x + 1) = some msg.val := by
  simp [value, wrote, count]

@[simp] theorem passed_wrote_last : (s.wrote m t x msg).passed x (s.count x + 1) = msg.view := by
  simp [passed, wrote, count]

omit [DecidableEq τ] [DecidableEq X] in
theorem passed_of_lt (hn : s.count x < n) : s.passed x n = (fun _ => 0, fun _ => 0) := by
  cases n with
  | zero => rfl
  | succ n =>
    have hlen : (s.messages x).length ≤ n := Nat.le_of_lt_succ hn
    simp [passed, List.getElem?_eq_none hlen]

/-- A message that passes on no more than there is with it. -/
theorem Wf.wrote (h : s.Wf) (hmsg : ∀ y, msg.view.2 y ≤ (s.wrote m t x msg).count y) :
    (s.wrote m t x msg).Wf where
  view := by
    intro k y
    by_cases hk : k = t
    · subst hk
      by_cases hy : y = x
      · subst hy
        simp [RelAcq.wrote, View.since, count]
      · have hle := h.view k y
        simpa [RelAcq.wrote, View.since, count, hy] using hle
    · have hle := h.view k y
      have hview : (s.wrote m t x msg).view k = s.view k := by simp [RelAcq.wrote, hk]
      rw [hview]
      exact hle.trans count_le_wrote
  passed := by
    intro y n
    by_cases hn : y = x → n ≤ s.count x
    · rw [passed_wrote hn]
      exact fun z => (h.passed y n z).trans count_le_wrote
    · obtain ⟨rfl, hlt⟩ := Classical.not_imp.mp hn
      by_cases hlast : n = s.count y + 1
      · subst hlast
        rw [passed_wrote_last]
        exact hmsg
      · rw [passed_of_lt (by rw [count_wrote_self]; omega)]
        exact fun _ => Nat.zero_le _

/-- What the writer knows goes with a released message. -/
theorem store_release (put : M → Option M) (v : V) (h : s.count x ≤ (s.view t).2 x) :
    s.store put .release v t x = (put s.mem).map fun m =>
      s.wrote m t x ⟨v, (s.view t).since x (s.count x + 1)⟩ :=
  if_pos h

theorem cas_won {exchange : M → Option (M × Bool)} {new : V} (h : exchange s.mem = some (m, true)) :
    s.cas exchange new t x = some (s.wrote m t x ⟨new, s.passed x (s.count x)⟩, true) := by
  rw [cas, h]
  rfl

theorem cas_lost {exchange : M → Option (M × Bool)} {new : V}
    (h : exchange s.mem = some (s.mem, false)) : s.cas exchange new t x = some (s, false) := by
  rw [cas, h]
  rfl

theorem since_le_count (h : s.Wf) (m : M) (msg : Message τ X V) (y : X) :
    ((s.view t).since x (s.count x + 1)).2 y ≤ (s.wrote m t x msg).count y := by
  by_cases hy : y = x
  · subst hy
    simp [View.since]
  · rw [count_wrote_of_ne hy]
    simpa [View.since, hy] using h.view t y

end Words

/-- `s'` is `s` after an access of thread `t` to the cell `d`. -/
structure Touched (s : RelAcq τ X V D M) (t : τ) (d : D) (s' : RelAcq τ X V D M) : Prop where
  first : s'.first = s.first
  messages : s'.messages = s.messages
  view : s'.view = Function.update s.view t ((s.view t).tick t)
  here : ∀ e ∈ s'.writes d ++ s'.reads d, e = (t, (s.view t).1 t + 1) ∨ e ∈ s.writes d ++ s.reads d
  other : ∀ d', d' ≠ d → s'.writes d' = s.writes d' ∧ s'.reads d' = s.reads d'

section Cells

variable [DecidableEq D] {s' : RelAcq τ X V D M}

theorem noteRead_touched (s : RelAcq τ X V D M) (t : τ) (d : D) :
    s.Touched t d (s.noteRead t d) where
  first := rfl
  messages := rfl
  view := rfl
  here := by
    intro e he
    simp only [noteRead, Function.update_self, List.mem_append, List.mem_cons] at he
    rcases he with he | rfl | he
    · exact .inr (List.mem_append_left _ he)
    · exact .inl rfl
    · exact .inr (List.mem_append_right _ he)
  other := fun d' hd => ⟨rfl, by simp [noteRead, hd]⟩

theorem noteWrite_touched (s : RelAcq τ X V D M) (m : M) (t : τ) (d : D) :
    s.Touched t d (s.noteWrite m t d) where
  first := rfl
  messages := rfl
  view := rfl
  here := by
    intro e he
    simp only [noteWrite, Function.update_self, List.mem_append, List.mem_cons] at he
    rcases he with (rfl | he) | he
    · exact .inl rfl
    · exact .inr (List.mem_append_left _ he)
    · exact .inr (List.mem_append_right _ he)
  other := fun d' hd => ⟨by simp [noteWrite, hd], rfl⟩

omit [DecidableEq τ] [DecidableEq D] in
theorem plainRead_eq {get : M → Option α} (h : s.Covers (s.view t) d) :
    s.plainRead get t d = get s.mem :=
  if_pos fun e he => h e (List.mem_append_left _ he)

theorem plainWrite_eq {put : M → Option M} (h : s.Covers (s.view t) d) :
    s.plainWrite put t d = (put s.mem).map fun m => s.noteWrite m t d :=
  if_pos h

end Cells

namespace Touched

variable {s' : RelAcq τ X V D M}

theorem le_view (h : s.Touched t d s') (k : τ) : s.view k ≤ s'.view k := by
  rw [h.view]
  by_cases hk : k = t
  · subst hk
    rw [Function.update_self]
    exact View.le_tick _ _
  · rw [Function.update_of_ne hk]

theorem wf (h : s.Touched t d s') (hs : s.Wf) : s'.Wf where
  view := by
    intro k x
    have hseen : (s'.view k).2 = (s.view k).2 := by
      rw [h.view]
      by_cases hk : k = t
      · subst hk
        rw [Function.update_self]
        rfl
      · rw [Function.update_of_ne hk]
    rw [hseen, count, h.messages]
    exact hs.view k x
  passed := by
    intro x n y
    have hpassed : s'.passed x n = s.passed x n := by
      cases n with
      | zero => rfl
      | succ n => simp only [passed, h.messages]
    rw [hpassed, count, h.messages]
    exact hs.passed x n y

/-- Who knew all accesses to the cell knows its own new one, too. -/
theorem covers (h : s.Touched t d s') (hc : s.Covers (s.view t) d) :
    s'.Covers (s'.view t) d := by
  intro e he
  rcases h.here e he with rfl | he
  · rw [h.view, Function.update_self]
    simp [View.tick]
  · exact (hc e he).trans ((h.le_view t).1 e.1)

theorem covers_other (h : s.Touched t d s') {d' : D} (hd : d' ≠ d) :
    s'.Covers v d' ↔ s.Covers v d' := by
  obtain ⟨hw, hr⟩ := h.other d' hd
  rw [Covers, Covers, hw, hr]

end Touched

/-- A cell written before a flag is set, read after the flag is seen: a race if the flag does not
release. -/
example : ([MemOrder.relaxed, .release].map fun o =>
    ((start (0, 0) : RelAcq Bool Unit Nat Unit (Nat × Nat)).plainWrite
      (fun m => some (m.1, 7)) true ()).bind fun s =>
    (s.store (fun m => some (1, m.2)) o 1 true ()).bind fun s => (s.see false ()).bind fun s =>
      (s.loaded .acquire false ()).plainRead (fun m => some m.2) false ()) = [none, some 7] := by
  decide

/-- `s'` is after `s`: nobody knows less, and every message is still there. -/
structure Later (s s' : RelAcq τ X V D M) : Prop where
  view : ∀ t, s.view t ≤ s'.view t
  value : ∀ get x n, n ≤ s.count x → s'.value get x n = s.value get x n
  passed : ∀ x n, n ≤ s.count x → s'.passed x n = s.passed x n

omit [DecidableEq τ] in
theorem Later.refl (s : RelAcq τ X V D M) : s.Later s :=
  ⟨fun _ => le_refl _, fun _ _ _ _ => rfl, fun _ _ _ => rfl⟩

omit [DecidableEq τ] in
theorem mem_later (s : RelAcq τ X V D M) (m : M) : s.Later { s with mem := m } where
  view := fun _ => le_refl _
  value := fun _ _ n _ => by cases n <;> rfl
  passed := fun _ n _ => by cases n <;> rfl

theorem setView_later (hv : s.view t ≤ v) : s.Later (s.setView t v) where
  view := by
    intro k
    by_cases hk : k = t
    · subst hk
      simpa [setView] using hv
    · simp [setView, hk]
  value := fun _ _ n _ => by cases n <;> rfl
  passed := fun _ n _ => by cases n <;> rfl

theorem Touched.later {s' : RelAcq τ X V D M} (h : s.Touched t d s') : s.Later s' where
  view := h.le_view
  value := fun get x n _ => by
    cases n with
    | zero => simp only [value, h.first]
    | succ n => simp only [value, h.messages]
  passed := fun x n _ => by
    cases n with
    | zero => rfl
    | succ n => simp only [passed, h.messages]

theorem wrote_later [DecidableEq X] (h : s.Wf) (m : M) (msg : Message τ X V) :
    s.Later (s.wrote m t x msg) where
  view := by
    intro k
    by_cases hk : k = t
    · subst hk
      have hle := h.view k x
      have hview : (s.wrote m k x msg).view k = (s.view k).since x (s.count x + 1) := by
        simp [wrote]
      rw [hview]
      exact View.le_since (by omega)
    · simp [wrote, hk]
  value := fun _ _ _ hn => value_wrote fun hy => hy ▸ hn
  passed := fun _ _ hn => passed_wrote fun hy => hy ▸ hn

end RelAcq

end ShmMpsc
