import Mathlib.Logic.Function.Basic

/-!
# A memory behind store buffers

The stores of every thread wait in a FIFO of its own. A load reads the memory as the
thread's own stores leave it, a read-modify-write empties the FIFO and acts on the
memory, and the oldest store of a FIFO reaches the memory at any time.
-/

namespace ShmMpsc

set_option autoImplicit false

universe u v w x

structure Buffered (τ : Type u) (β : Type v) (M : Type w) where
  mem : M
  buf : τ → List β

namespace Buffered

variable {τ : Type u} {β : Type v} {M : Type w} {α : Type x}

/-- No store waits. -/
def flushed (m : M) : Buffered τ β M := { mem := m, buf := fun _ => [] }

/-- The stores of a FIFO, made one after the other. -/
def drain (apply : β → M → Option M) : List β → M → Option M
  | [], m => some m
  | b :: bs, m => (apply b m).bind (drain apply bs)

/-- The memory as thread `t` sees it. -/
def view (apply : β → M → Option M) (t : τ) (s : Buffered τ β M) : Option M :=
  drain apply (s.buf t) s.mem

def load (apply : β → M → Option M) (t : τ) (f : M → Option α) (s : Buffered τ β M) : Option α :=
  (s.view apply t).bind f

theorem view_of_nil {apply : β → M → Option M} {s : Buffered τ β M} {t : τ} (h : s.buf t = []) :
    s.view apply t = some s.mem := by
  simp [view, h, drain]

theorem load_of_view {apply : β → M → Option M} {s : Buffered τ β M} {t : τ} {m : M}
    (h : s.view apply t = some m) (f : M → Option α) : s.load apply t f = f m := by
  rw [load, h, Option.bind_some]

theorem load_flushed {apply : β → M → Option M} {t : τ} {f : M → Option α} {m : M} :
    load apply t f (flushed m) = f m := by
  simp [load, view, flushed, drain]

variable [DecidableEq τ]

def store (apply : β → M → Option M) (t : τ) (b : β) (s : Buffered τ β M) :
    Option (Buffered τ β M) :=
  ((s.view apply t).bind (apply b)).map fun _ =>
    { s with buf := Function.update s.buf t (s.buf t ++ [b]) }

def rmw (apply : β → M → Option M) (t : τ) (f : M → Option (M × α)) (s : Buffered τ β M) :
    Option (Buffered τ β M × α) :=
  ((s.view apply t).bind f).map fun r =>
    ({ mem := r.1, buf := Function.update s.buf t [] }, r.2)

/-- The oldest store of thread `t` reaches the memory. -/
def commit (apply : β → M → Option M) (t : τ) (s : Buffered τ β M) : Option (Buffered τ β M) :=
  match s.buf t with
  | [] => none
  | b :: bs => (apply b s.mem).map fun m => { mem := m, buf := Function.update s.buf t bs }

variable {apply : β → M → Option M} {s s' : Buffered τ β M} {t : τ} {m m' : M} {b : β}
  {bs : List β}

/-- What no store of a FIFO changes is the same once they are all made. -/
theorem drain_keeps {f : M → α} (hbs : ∀ b ∈ bs, ∀ m m', apply b m = some m' → f m' = f m)
    (h : drain apply bs m = some m') : f m' = f m := by
  induction bs generalizing m with
  | nil => cases h; rfl
  | cons b bs ih =>
    obtain ⟨m1, h1, h2⟩ := Option.bind_eq_some_iff.mp h
    rw [ih (fun b hb => hbs b (List.mem_cons_of_mem _ hb)) h2, hbs b List.mem_cons_self _ _ h1]

/-- What every store of a FIFO changes by a rule of its own changes by these rules in turn. -/
theorem drain_foldl {f : M → α} {g : α → β → α}
    (hg : ∀ b ∈ bs, ∀ m m', apply b m = some m' → f m' = g (f m) b)
    (h : drain apply bs m = some m') : f m' = bs.foldl g (f m) := by
  induction bs generalizing m with
  | nil => cases h; rfl
  | cons b bs ih =>
    obtain ⟨m1, h1, h2⟩ := Option.bind_eq_some_iff.mp h
    rw [ih (fun b hb => hg b (List.mem_cons_of_mem _ hb)) h2, hg b List.mem_cons_self m m1 h1,
      List.foldl_cons]

theorem store_of_view (h : s.view apply t = some m) (b : β) : s.store apply t b =
    (apply b m).map fun _ => { s with buf := Function.update s.buf t (s.buf t ++ [b]) } := by
  rw [store, h, Option.bind_some]

theorem rmw_of_view (h : s.view apply t = some m) (f : M → Option (M × α)) : s.rmw apply t f =
    (f m).map fun r => ({ mem := r.1, buf := Function.update s.buf t [] }, r.2) := by
  rw [rmw, h, Option.bind_some]

theorem store_eq_some (h : s.store apply t b = some s') :
    s' = { s with buf := Function.update s.buf t (s.buf t ++ [b]) } := by
  obtain ⟨_, _, h⟩ := Option.map_eq_some_iff.mp h
  exact h.symm

theorem rmw_eq_some {f : M → Option (M × α)} {a : α} (h : s.rmw apply t f = some (s', a)) :
    ∃ m m', s.view apply t = some m ∧ f m = some (m', a) ∧
      s' = { mem := m', buf := Function.update s.buf t [] } := by
  obtain ⟨⟨m', a'⟩, hf, h⟩ := Option.map_eq_some_iff.mp h
  obtain ⟨m, hv, hf⟩ := Option.bind_eq_some_iff.mp hf
  cases h
  exact ⟨m, m', hv, hf, rfl⟩

theorem commit_eq_some (h : s.commit apply t = some s') :
    ∃ b bs m, s.buf t = b :: bs ∧ apply b s.mem = some m ∧
      s' = { mem := m, buf := Function.update s.buf t bs } := by
  unfold commit at h
  split at h
  · cases h
  · rename_i b bs hb
    obtain ⟨m, hm, h⟩ := Option.map_eq_some_iff.mp h
    exact ⟨b, bs, m, hb, hm, h.symm⟩

/-! ### What one thread has to itself -/

section Owner

variable {cell : M → α} {upd : α → β → α} {a : α} {t' : τ}

/-- Every store changes the cell by the rule `upd`. -/
def Changes (apply : β → M → Option M) (cell : M → α) (upd : α → β → α) : Prop :=
  ∀ b m m', apply b m = some m' → cell m' = upd (cell m) b

/-- No thread but `t` has a store to the cell waiting; with its own made the cell is `a`. -/
structure Owns (cell : M → α) (upd : α → β → α) (t : τ) (a : α) (s : Buffered τ β M) : Prop where
  alone : ∀ t', t' ≠ t → ∀ b ∈ s.buf t', ∀ v, upd v b = v
  made : (s.buf t).foldl upd (cell s.mem) = a

theorem foldl_untouched (h : ∀ b ∈ bs, ∀ v, upd v b = v) : bs.foldl upd a = a := by
  induction bs with
  | nil => rfl
  | cons b bs ih =>
    rw [List.foldl_cons, h b List.mem_cons_self, ih fun b hb => h b (List.mem_cons_of_mem _ hb)]

omit [DecidableEq τ] in
theorem Changes.view (hc : Changes apply cell upd) (h : s.view apply t = some m) :
    cell m = (s.buf t).foldl upd (cell s.mem) :=
  drain_foldl (fun b _ m m' => hc b m m') h

omit [DecidableEq τ] in
/-- The owner sees the cell as it will be. -/
theorem Owns.view (hc : Changes apply cell upd) (ho : Owns cell upd t a s)
    (h : s.view apply t = some m) : cell m = a :=
  (hc.view h).trans ho.made

/-- A cell without stores waiting belongs to whoever takes it. -/
theorem Owns.pass (ho : Owns cell upd t a s) (ht : ∀ b ∈ s.buf t, ∀ v, upd v b = v) :
    Owns cell upd t' a s := by
  have hall : ∀ k, ∀ b ∈ s.buf k, ∀ v, upd v b = v := by
    intro k
    by_cases hk : k = t
    · rw [hk]
      exact ht
    · exact ho.alone k hk
  refine ⟨fun k _ => hall k, ?_⟩
  rw [foldl_untouched (hall t'), ← ho.made, foldl_untouched ht]

omit [DecidableEq τ] in
theorem Owns.flushed (m : M) : Owns cell upd t (cell m) (flushed m) := by
  refine ⟨fun k _ b hb => ?_, rfl⟩
  cases hb

omit [DecidableEq τ] in
theorem Owns.mem_of_flushed (ho : Owns cell upd t a s) (h : s.buf t = []) : cell s.mem = a := by
  rw [← ho.made, h]
  rfl

/-- The owner's store. -/
theorem Owns.store (ho : Owns cell upd t a s) (b : β) :
    Owns cell upd t (upd a b) { s with buf := Function.update s.buf t (s.buf t ++ [b]) } := by
  refine ⟨fun k hk => ?_, ?_⟩
  · simpa [hk] using ho.alone k hk
  · simp [ho.made]

/-- A store to something else. -/
theorem Owns.store_other (ho : Owns cell upd t a s) (hb : ∀ v, upd v b = v) :
    Owns cell upd t a { s with buf := Function.update s.buf t' (s.buf t' ++ [b]) } := by
  by_cases ht : t' = t
  · subst ht
    have hs := ho.store b
    rwa [hb] at hs
  · refine ⟨fun k hk => ?_, ?_⟩
    · by_cases hkt : k = t'
      · subst hkt
        intro e he
        simp only [Function.update_self, List.mem_append, List.mem_singleton] at he
        rcases he with he | rfl
        · exact ho.alone k hk e he
        · exact hb
      · simpa [hkt] using ho.alone k hk
    · simpa [Ne.symm ht] using ho.made

/-- The way of a store to the memory. -/
theorem Owns.commit (hc : Changes apply cell upd) (ho : Owns cell upd t a s)
    (hb : s.buf t' = b :: bs) (hm : apply b s.mem = some m) :
    Owns cell upd t a { mem := m, buf := Function.update s.buf t' bs } := by
  have hcell := hc b _ _ hm
  by_cases ht : t' = t
  · subst ht
    refine ⟨fun k hk => ?_, ?_⟩
    · simpa [hk] using ho.alone k hk
    · simpa [hcell, hb] using ho.made
  · have hkeep : cell m = cell s.mem := by
      rw [hcell]
      exact ho.alone t' ht b (by simp [hb]) _
    refine ⟨fun k hk => ?_, ?_⟩
    · by_cases hkt : k = t'
      · subst hkt
        intro e he
        have he : e ∈ bs := by simpa using he
        exact ho.alone k hk e (hb ▸ List.mem_cons_of_mem b he)
      · simpa [hkt] using ho.alone k hk
    · simpa [Ne.symm ht, hkeep] using ho.made

end Owner

/-! ### Stores that reach the memory at once -/

theorem store_flushed (h : apply b m = some m') :
    ∃ s, store apply t b (flushed m) = some s ∧ commit apply t s = some (flushed m') := by
  refine ⟨{ mem := m, buf := Function.update (fun _ => []) t [b] }, ?_, ?_⟩
  · simp [store, view, flushed, drain, h]
  · simp [commit, flushed, h]

theorem rmw_flushed {f : M → Option (M × α)} {a : α} (h : f m = some (m', a)) :
    rmw apply t f (flushed m) = some (flushed m', a) := by
  simp [rmw, view, flushed, drain, h]

end Buffered

end ShmMpsc
