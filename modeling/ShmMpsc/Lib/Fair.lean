import Mathlib.Order.OrderIsoNat
import Mathlib.Order.WellFounded
import Mathlib.Data.Fintype.Order
import ShmMpsc.Lib.Machine

/-!
# Infinite runs and fairness

A trace never ends, and the machine may rest in it while somebody else moves. What has to
happen is proved by a rank that a fair party lowers and nobody raises, and by quantities of
the log that cannot grow for ever.
-/

namespace ShmMpsc

set_option autoImplicit false

universe u v w

namespace Machine

variable {σ : Type u} {α : Type v} {ε : Type w}

/-- One instant: an allowed step, or rest. -/
inductive Next (m : Machine σ α ε) (G : Guard σ α ε) (s : σ) (log : List ε) :
    Option α → σ → List ε → Prop where
  | rest : Next m G s log none s log
  | step {a s' ev} : G s log a → m.step s a = some (s', ev) → Next m G s log (some a) s' (log ++ ev)

theorem Run.next {m : Machine σ α ε} {G : Guard σ α ε} {s s' s'' : σ} {log log' log'' : List ε}
    {as : List α} {a : Option α} (h : Run m G s log as s' log')
    (hn : Next m G s' log' a s'' log'') :
    ∃ as', Run m G s log as' s'' log'' := by
  cases hn with
  | rest => exact ⟨as, h⟩
  | step hg hs => exact ⟨_, h.snoc hg hs⟩

/-- What is there at every instant, and the action that leads to the next. -/
structure Trace (m : Machine σ α ε) (G : Guard σ α ε) where
  state : Nat → σ
  log : Nat → List ε
  act : Nat → Option α
  next : ∀ n, Next m G (state n) (log n) (act n) (state (n + 1)) (log (n + 1))

namespace Trace

variable {m : Machine σ α ε} {G : Guard σ α ε} (t : Trace m G)

theorem run {i j : Nat} (h : i ≤ j) :
    ∃ as, Run m G (t.state i) (t.log i) as (t.state j) (t.log j) := by
  induction j, h using Nat.le_induction with
  | base => exact ⟨[], .nil⟩
  | succ j _ ih =>
    obtain ⟨as, hr⟩ := ih
    exact hr.next (t.next j)

theorem log_prefix {i j : Nat} (h : i ≤ j) : t.log i <+: t.log j := by
  obtain ⟨as, hr⟩ := t.run h
  exact hr.log_prefix

theorem step_cases (n : Nat) :
    (t.act n = none ∧ t.state (n + 1) = t.state n ∧ t.log (n + 1) = t.log n) ∨
      ∃ a ev, t.act n = some a ∧ G (t.state n) (t.log n) a ∧
        m.step (t.state n) a = some (t.state (n + 1), ev) ∧ t.log (n + 1) = t.log n ++ ev := by
  have hnext := t.next n
  generalize t.act n = a, t.state (n + 1) = s', t.log (n + 1) = log' at hnext
  cases hnext with
  | rest => exact .inl ⟨rfl, rfl, rfl⟩
  | step hg hs => exact .inr ⟨_, _, rfl, hg, hs, rfl⟩

/-- What no step ends does not end. -/
theorem stable {I Q : σ → List ε → Prop} {n : Nat} (hI : ∀ k, n ≤ k → I (t.state k) (t.log k))
    (hstep : ∀ s log a s' ev, I s log → I s' (log ++ ev) → Q s log → G s log a →
      m.step s a = some (s', ev) → Q s' (log ++ ev))
    {i j : Nat} (hn : n ≤ i) (hij : i ≤ j) (hQ : Q (t.state i) (t.log i)) :
    Q (t.state j) (t.log j) := by
  induction j, hij using Nat.le_induction with
  | base => exact hQ
  | succ j hij ih =>
    have hI' := hI (j + 1) (by omega)
    rcases t.step_cases j with ⟨_, hs, hl⟩ | ⟨a, ev, _, hg, hs, hl⟩
    · rwa [hs, hl]
    · rw [hl] at hI' ⊢
      exact hstep _ _ _ _ _ (hI j (by omega)) hI' ih hg hs

/-- An action of the party is taken at instant `n`. -/
def Takes (A : α → Prop) (n : Nat) : Prop := ∃ a, t.act n = some a ∧ A a

/-- No action of the party is possible at instant `n`. -/
def Blocked (A : α → Prop) (n : Nat) : Prop :=
  ∀ a, A a → G (t.state n) (t.log n) a → m.step (t.state n) a = none

/-- Weak fairness: a party moves again and again, unless it is blocked again and again. -/
def Fair (A : α → Prop) : Prop := ∀ n, ∃ k, n ≤ k ∧ (t.Takes A k ∨ t.Blocked A k)

variable {t} {A : α → Prop} {n : Nat}

theorem not_blocked {a : α} (hA : A a) (hg : G (t.state n) (t.log n) a)
    (hsome : (m.step (t.state n) a).isSome) : ¬ t.Blocked A n := by
  intro hblocked
  rw [hblocked a hA hg] at hsome
  cases hsome

/-- Until the goal is reached the party can move, nobody raises the rank and the party's own
steps lower it. -/
theorem eventually (hfair : t.Fair A) {P Q : Nat → Prop} (rank : Nat → Nat) (hP : P n)
    (hstep : ∀ k, n ≤ k → P k → ¬ Q k → ¬ t.Blocked A k ∧ (Q (k + 1) ∨
      P (k + 1) ∧ rank (k + 1) ≤ rank k ∧ (t.Takes A k → rank (k + 1) < rank k))) :
    ∃ k, n ≤ k ∧ Q k := by
  by_contra hnever
  have hno : ∀ k, n ≤ k → ¬ Q k := fun k hk hg => hnever ⟨k, hk, hg⟩
  have hnext : ∀ k, n ≤ k → P k → P (k + 1) ∧ rank (k + 1) ≤ rank k ∧
      (t.Takes A k → rank (k + 1) < rank k) := fun k hk hp =>
    (hstep k hk hp (hno k hk)).2.resolve_left (hno (k + 1) (by omega))
  have hPall : ∀ k, n ≤ k → P k := by
    intro k hk
    induction k, hk using Nat.le_induction with
    | base => exact hP
    | succ k hk ih => exact (hnext k hk ih).1
  have hdown : ∀ i j, n ≤ i → i ≤ j → rank j ≤ rank i := by
    intro i j hi hij
    induction j, hij using Nat.le_induction with
    | base => exact Nat.le_refl _
    | succ j hij ih => exact ((hnext j (by omega) (hPall j (by omega))).2.1).trans ih
  -- no rank is low enough to stay at
  have hlow : ∀ r i, n ≤ i → rank i ≠ r := by
    intro r
    induction r using Nat.strong_induction_on with
    | _ r ih =>
      intro i hi hr
      obtain ⟨k, hik, hk⟩ := hfair i
      have hn : n ≤ k := hi.trans hik
      rcases hk with htakes | hblocked
      · have hlt := (hnext k hn (hPall k hn)).2.2 htakes
        have hle := hdown i k hi hik
        exact ih (rank (k + 1)) (by omega) (k + 1) (by omega) rfl
      · exact (hstep k hn (hPall k hn) (hno k hn)).1 hblocked
  exact hlow (rank n) n (Nat.le_refl n) rfl

/-- A party that can move and is left alone until it does so moves. -/
theorem taken (hfair : t.Fair A) {P : Nat → Prop} (hP : P n)
    (hstep : ∀ k, n ≤ k → P k → ¬ t.Blocked A k ∧ (¬ t.Takes A k → P (k + 1))) :
    ∃ k, n ≤ k ∧ P k ∧ t.Takes A k := by
  refine eventually hfair (Q := fun k => P k ∧ t.Takes A k) (fun _ => 0) hP ?_
  intro k hk hPk hno
  have hidle : ¬ t.Takes A k := fun h => hno ⟨hPk, h⟩
  obtain ⟨hopen, hkeep⟩ := hstep k hk hPk
  exact ⟨hopen, .inr ⟨hkeep hidle, Nat.le_refl _, fun h => absurd h hidle⟩⟩

/-- The rank as a function of what is there: own steps lower it, the steps of others do not
raise it. -/
theorem leads_to (hfair : t.Fair A) {I Q : σ → List ε → Prop} (rank : σ → List ε → Nat)
    (hI : ∀ k, n ≤ k → I (t.state k) (t.log k))
    (hopen : ∀ s log, I s log → ¬ Q s log → ∃ a, A a ∧ G s log a ∧ (m.step s a).isSome)
    (hothers : ∀ s log a s' ev, I s log → I s' (log ++ ev) → ¬ Q s log → ¬ A a → G s log a →
      m.step s a = some (s', ev) → Q s' (log ++ ev) ∨ rank s' (log ++ ev) ≤ rank s log)
    (hown : ∀ s log a s' ev, I s log → I s' (log ++ ev) → ¬ Q s log → A a → G s log a →
      m.step s a = some (s', ev) → Q s' (log ++ ev) ∨ rank s' (log ++ ev) < rank s log) :
    ∃ k, n ≤ k ∧ Q (t.state k) (t.log k) := by
  refine eventually hfair (P := fun _ => True) (fun k => rank (t.state k) (t.log k)) trivial ?_
  intro k hk _ hno
  have hIk := hI k hk
  have hIk' := hI (k + 1) (by omega)
  obtain ⟨b, hb, hgb, hsome⟩ := hopen _ _ hIk hno
  refine ⟨not_blocked hb hgb hsome, ?_⟩
  rcases t.step_cases k with ⟨hact, hs, hl⟩ | ⟨a, ev, hact, hg, hs, hl⟩
  · refine .inr ⟨trivial, by rw [hs, hl], fun htakes => ?_⟩
    obtain ⟨a, ha, _⟩ := htakes
    rw [hact] at ha
    cases ha
  · rw [hl] at hIk' ⊢
    by_cases hA : A a
    · rcases hown _ _ _ _ _ hIk hIk' hno hA hg hs with h | h
      · exact .inl h
      · exact .inr ⟨trivial, Nat.le_of_lt h, fun _ => h⟩
    · rcases hothers _ _ _ _ _ hIk hIk' hno hA hg hs with h | h
      · exact .inl h
      · refine .inr ⟨trivial, h, fun htakes => ?_⟩
        obtain ⟨a', ha', hA'⟩ := htakes
        rw [hact] at ha'
        cases ha'
        exact absurd hA' hA

/-- What grows with the log and stays within a bound stops growing. -/
theorem settles {f : List ε → Nat} (hf : ∀ l l', l <+: l' → f l ≤ f l') {b : Nat}
    (hb : ∀ n, f (t.log n) ≤ b) : ∃ n, ∀ k, n ≤ k → f (t.log k) = f (t.log n) := by
  have hmono : Monotone fun n => (⟨f (t.log n), Nat.lt_succ_of_le (hb n)⟩ : Fin (b + 1)) :=
    fun i j hij => hf _ _ (t.log_prefix hij)
  obtain ⟨n, hn⟩ := WellFoundedGT.monotone_chain_condition ⟨_, hmono⟩
  exact ⟨n, fun k hk => (Fin.mk.inj_iff.mp (hn k hk)).symm⟩

/-- What has come true of everybody and stays true is true of all at one time. -/
theorem eventually_all {κ : Type} [Finite κ] {P : κ → Nat → Prop} (n : Nat)
    (hstay : ∀ c i j, i ≤ j → P c i → P c j) (h : ∀ c, ∃ k, n ≤ k ∧ P c k) :
    ∃ k, n ≤ k ∧ ∀ c, P c k := by
  choose at_ hle hat using h
  obtain ⟨b, hb⟩ := Finite.bddAbove_range at_
  refine ⟨max n b, Nat.le_max_left n b, fun c => ?_⟩
  exact hstay c _ _ ((hb ⟨c, rfl⟩).trans (Nat.le_max_right n b)) (hat c)

/-- What every party of a finite family comes to and keeps holds of all of them for good. -/
theorem all_stay {κ : Type} [Finite κ] {I : σ → List ε → Prop} {Q : κ → σ → List ε → Prop}
    (hI : ∀ k, n ≤ k → I (t.state k) (t.log k))
    (hstay : ∀ c s log a s' ev, I s log → I s' (log ++ ev) → Q c s log → G s log a →
      m.step s a = some (s', ev) → Q c s' (log ++ ev))
    (h : ∀ c, ∃ k, n ≤ k ∧ Q c (t.state k) (t.log k)) :
    ∃ k, n ≤ k ∧ ∀ k', k ≤ k' → ∀ c, Q c (t.state k') (t.log k') := by
  obtain ⟨k, hk, hall⟩ := eventually_all (P := fun c k => n ≤ k ∧ Q c (t.state k) (t.log k)) n
    (fun c i j hij hQ => ⟨hQ.1.trans hij, t.stable hI (hstay c) hQ.1 hij hQ.2⟩)
    fun c => (h c).imp fun k hk => ⟨hk.1, hk⟩
  exact ⟨k, hk, fun k' hk' c => t.stable hI (hstay c) hk hk' (hall c).2⟩

end Trace

/-! ### Following a schedule -/

section Schedule

variable (m : Machine σ α ε) {G : Guard σ α ε} (c : σ × List ε) (sched : Nat → α)

/-- The machine does what the schedule says where that is possible, and rests where not. -/
def follow : Nat → σ × List ε
  | 0 => c
  | n + 1 =>
    let d := follow n
    match m.step d.1 (sched n) with
    | none => d
    | some r => (r.1, d.2 ++ r.2)

def followed (n : Nat) : Option α :=
  if (m.step (m.follow c sched n).1 (sched n)).isSome then some (sched n) else none

theorem follow_next (hG : ∀ n s log, G s log (sched n)) (n : Nat) :
    Next m G (m.follow c sched n).1 (m.follow c sched n).2 (m.followed c sched n)
      (m.follow c sched (n + 1)).1 (m.follow c sched (n + 1)).2 := by
  cases h : m.step (m.follow c sched n).1 (sched n) with
  | none =>
    simp only [followed, follow, h, Option.isSome_none, Bool.false_eq_true, if_false]
    exact .rest
  | some r =>
    simp only [followed, follow, h, Option.isSome_some, if_true]
    exact .step (hG n _ _) h

/-- The schedule asks for nothing that is not allowed. -/
def Trace.ofSchedule (hG : ∀ n s log, G s log (sched n)) : Trace m G where
  state n := (m.follow c sched n).1
  log n := (m.follow c sched n).2
  act := m.followed c sched
  next := m.follow_next c sched hG

variable {m c sched}

/-- A schedule that comes back to a party is fair to it, where the action it asks for is
possible whenever some action of the party is. -/
theorem Trace.fair_ofSchedule (hG : ∀ n s log, G s log (sched n)) {A : α → Prop}
    (hback : ∀ n, ∃ k, n ≤ k ∧ A (sched k))
    (hsame : ∀ n a, A (sched n) → A a → m.step (m.follow c sched n).1 (sched n) = none →
      m.step (m.follow c sched n).1 a = none) : (Trace.ofSchedule m c sched hG).Fair A := by
  intro n
  obtain ⟨k, hk, hA⟩ := hback n
  refine ⟨k, hk, ?_⟩
  cases h : m.step (m.follow c sched k).1 (sched k) with
  | none => exact .inr fun a ha _ => hsame k a hA ha h
  | some r =>
    refine .inl ⟨sched k, ?_, hA⟩
    simp [Trace.ofSchedule, followed, h]

end Schedule

end Machine

end ShmMpsc
