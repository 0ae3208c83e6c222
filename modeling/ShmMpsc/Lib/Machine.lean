import Mathlib.Logic.Basic
import Mathlib.Data.List.Basic

/-!
# Machines with partial steps, their runs and their logs

A machine answers an action with `none` (not possible here) or with the next
state and the events the step shows. A run is a schedule of actions, all of them
possible and all allowed by a guard that may look at the log so far. Safety
properties go through `Run.invariant`, refinements through `Run.simulate`.
-/

namespace ShmMpsc

set_option autoImplicit false

universe u v w

structure Machine (σ : Type u) (α : Type v) (ε : Type w) where
  step : σ → α → Option (σ × List ε)

namespace Machine

variable {σ : Type u} {α : Type v} {ε : Type w}

/-- What a schedule is asked to respect, given the state, the log and the action. -/
abbrev Guard (σ : Type u) (α : Type v) (ε : Type w) := σ → List ε → α → Prop

def free : Guard σ α ε := fun _ _ _ => True

/-- `Run m G s log as s' log'`: the schedule `as` leads from `s` with log `log` to `s'`. -/
inductive Run (m : Machine σ α ε) (G : Guard σ α ε) (s : σ) (log : List ε) :
    List α → σ → List ε → Prop where
  | nil : Run m G s log [] s log
  | snoc {as s' log' a s'' ev} : Run m G s log as s' log' → G s' log' a →
      m.step s' a = some (s'', ev) → Run m G s log (as ++ [a]) s'' (log' ++ ev)

variable {m : Machine σ α ε} {G H : Guard σ α ε} {s s' s'' : σ} {log log' log'' : List ε}
  {as bs : List α}

namespace Run

theorem trans (h : Run m G s log as s' log') (h' : Run m G s' log' bs s'' log'') :
    Run m G s log (as ++ bs) s'' log'' := by
  induction h' with
  | nil => simpa using h
  | snoc _ hg hs ih => simpa using ih.snoc hg hs

theorem single {a : α} {ev : List ε} (hg : G s log a) (hs : m.step s a = some (s', ev)) :
    Run m G s log [a] s' (log ++ ev) := by
  have h0 : Run m G s log [] s log := .nil
  simpa using h0.snoc hg hs

theorem mono (hGH : ∀ s log a, G s log a → H s log a) (h : Run m G s log as s' log') :
    Run m H s log as s' log' := by
  induction h with
  | nil => exact .nil
  | snoc _ hg hs ih => exact ih.snoc (hGH _ _ _ hg) hs

theorem log_prefix (h : Run m G s log as s' log') : log <+: log' := by
  induction h with
  | nil => exact List.prefix_rfl
  | snoc _ _ _ ih => exact ih.trans (List.prefix_append _ _)

theorem of_forall (h : Run m G s log as s' log') (has : ∀ a ∈ as, ∀ s log, H s log a) :
    Run m H s log as s' log' := by
  induction h with
  | nil => exact .nil
  | snoc _ _ hs ih =>
    exact (ih fun a ha => has a (List.mem_append_left _ ha)).snoc
      (has _ (List.mem_append_right _ (List.mem_singleton_self _)) _ _) hs

theorem invariant {I : σ → List ε → Prop} (h0 : I s log)
    (hstep : ∀ s log a s' ev, I s log → G s log a → m.step s a = some (s', ev) → I s' (log ++ ev))
    (h : Run m G s log as s' log') : I s' log' := by
  induction h with
  | nil => exact h0
  | snoc _ hg hs ih => exact hstep _ _ _ _ _ ih hg hs

/-- An invariant of the state and of what the run adds to the log. -/
theorem added {I : σ → List ε → Prop} (h0 : I s [])
    (hstep : ∀ s log a s' ev, I s log → m.step s a = some (s', ev) → I s' (log ++ ev))
    {mid : List ε} (h : Run m G s log as s' (log ++ mid)) : I s' mid := by
  have hall : ∃ mid', log ++ mid = log ++ mid' ∧ I s' mid' := by
    refine h.invariant (I := fun s' log' => ∃ mid', log' = log ++ mid' ∧ I s' mid')
      ⟨[], (List.append_nil log).symm, h0⟩ ?_
    rintro s' _ a s'' ev ⟨mid', rfl, hI⟩ _ hs
    exact ⟨mid' ++ ev, List.append_assoc .., hstep _ _ _ _ _ hI hs⟩
  obtain ⟨mid', heq, hI⟩ := hall
  rwa [List.append_cancel_left heq]

/-- A guard that follows from an invariant need not be asked for. -/
theorem strengthen {I : σ → List ε → Prop} (h0 : I s log)
    (hstep : ∀ s log a s' ev, I s log → G s log a → m.step s a = some (s', ev) → I s' (log ++ ev))
    (hGH : ∀ s log a, I s log → G s log a → H s log a) (h : Run m G s log as s' log') :
    Run m H s log as s' log' := by
  induction h with
  | nil => exact .nil
  | snoc hr hg hs ih => exact ih.snoc (hGH _ _ _ (hr.invariant h0 hstep) hg) hs

/-- A bound on a quantity of the log that never shrinks holds all along a run that ends
within it. -/
theorem bounded {f : List ε → Nat} (hf : ∀ l l', l <+: l' → f l ≤ f l') {b : Nat}
    (h : Run m G s log as s' log') (hb : f log' < b) :
    Run m (fun s l a => G s l a ∧ f l < b) s log as s' log' := by
  induction h with
  | nil => exact .nil
  | @snoc _ _ l _ _ ev _ hg hs ih =>
    have hl : f l < b := Nat.lt_of_le_of_lt (hf _ _ (List.prefix_append _ _)) hb
    exact (ih hl).snoc ⟨hg, hl⟩ hs

end Run

/-- Where some step is possible until the end, and runs are no longer than `b`, some run comes
to the end. -/
theorem exists_run_until {F : σ → Prop} {b : Nat}
    (hstep : ∀ as s' log', Run m G s log as s' log' → ¬ F s' →
      ∃ a s'' ev, G s' log' a ∧ m.step s' a = some (s'', ev))
    (hb : ∀ as s' log', Run m G s log as s' log' → as.length ≤ b) :
    ∃ as s' log', Run m G s log as s' log' ∧ F s' := by
  by_contra hno
  have hlong : ∀ n, ∃ as s' log', Run m G s log as s' log' ∧ as.length = n := by
    intro n
    induction n with
    | zero => exact ⟨[], s, log, .nil, rfl⟩
    | succ n ih =>
      obtain ⟨as, s', log', hr, hn⟩ := ih
      obtain ⟨a, s'', ev, hg, hs⟩ := hstep as s' log' hr fun hF => hno ⟨as, s', log', hr, hF⟩
      exact ⟨as ++ [a], s'', log' ++ ev, hr.snoc hg hs, by simp [hn]⟩
  obtain ⟨as, s', log', hr, hn⟩ := hlong (b + 1)
  have hle := hb as s' log' hr
  omega

/-- Running a schedule, for concrete inputs. -/
def exec (m : Machine σ α ε) : σ × List ε → List α → Option (σ × List ε)
  | c, [] => some c
  | c, a :: as => (m.step c.1 a).bind fun r => m.exec (r.1, c.2 ++ r.2) as

theorem run_of_exec {c c' : σ × List ε} (h : m.exec c as = some c') :
    Run m free c.1 c.2 as c'.1 c'.2 := by
  induction as generalizing c with
  | nil => cases h; exact .nil
  | cons a as ih =>
    obtain ⟨r, hr, h⟩ := Option.bind_eq_some_iff.mp h
    have h1 : Run m free c.1 c.2 [a] r.1 (c.2 ++ r.2) := .single trivial hr
    exact h1.trans (ih h)

/-- Running a schedule that has to respect a decidable guard. -/
def execWith (m : Machine σ α ε) (g : σ → List ε → α → Bool) :
    σ × List ε → List α → Option (σ × List ε)
  | c, [] => some c
  | c, a :: as =>
    if g c.1 c.2 a then (m.step c.1 a).bind fun r => m.execWith g (r.1, c.2 ++ r.2) as else none

theorem run_of_execWith {g : σ → List ε → α → Bool} (hg : ∀ s log a, g s log a = true → G s log a)
    {c c' : σ × List ε} (h : m.execWith g c as = some c') : Run m G c.1 c.2 as c'.1 c'.2 := by
  induction as generalizing c with
  | nil => cases h; exact .nil
  | cons a as ih =>
    simp only [execWith] at h
    split at h
    · rename_i hga
      obtain ⟨r, hr, h⟩ := Option.bind_eq_some_iff.mp h
      have h1 : Run m G c.1 c.2 [a] r.1 (c.2 ++ r.2) := .single (hg _ _ _ hga) hr
      exact h1.trans (ih h)
    · cases h

section Simulation

universe u' v' w'
variable {τ : Type u'} {β : Type v'} {δ : Type w'} {m' : Machine τ β δ} {G' : Guard τ β δ}
  {R : σ → List ε → τ → List δ → Prop} {t : τ} {tlog : List δ}

/-- Forward simulation: every allowed step is matched by a run of the other machine. -/
theorem Run.simulate (h0 : R s log t tlog)
    (hstep : ∀ s log t tlog a s' ev, R s log t tlog → G s log a → m.step s a = some (s', ev) →
      ∃ bs t' tlog', Run m' G' t tlog bs t' tlog' ∧ R s' (log ++ ev) t' tlog')
    (h : Run m G s log as s' log') :
    ∃ bs t' tlog', Run m' G' t tlog bs t' tlog' ∧ R s' log' t' tlog' := by
  induction h with
  | nil => exact ⟨[], t, tlog, .nil, h0⟩
  | snoc _ hg hs ih =>
    obtain ⟨bs, t', tlog', hr, hR⟩ := ih
    obtain ⟨cs, t'', tlog'', hr', hR'⟩ := hstep _ _ _ _ _ _ _ hR hg hs
    exact ⟨bs ++ cs, t'', tlog'', hr.trans hr', hR'⟩

/-- Lock-step forward simulation: the other machine runs the translated schedule. -/
theorem Run.lockstep (f : α → β) (h0 : R s log t tlog)
    (hstep : ∀ s log t tlog a s' ev, R s log t tlog → G s log a → m.step s a = some (s', ev) →
      ∃ t' ev', G' t tlog (f a) ∧ m'.step t (f a) = some (t', ev') ∧
        R s' (log ++ ev) t' (tlog ++ ev'))
    (h : Run m G s log as s' log') :
    ∃ t' tlog', Run m' G' t tlog (as.map f) t' tlog' ∧ R s' log' t' tlog' := by
  induction h with
  | nil => exact ⟨t, tlog, .nil, h0⟩
  | snoc _ hg hs ih =>
    obtain ⟨t', tlog', hr, hR⟩ := ih
    obtain ⟨t'', ev', hg', hs', hR'⟩ := hstep _ _ _ _ _ _ _ hR hg hs
    exact ⟨t'', tlog' ++ ev', by simpa using hr.snoc hg' hs', hR'⟩

end Simulation

end Machine

end ShmMpsc
