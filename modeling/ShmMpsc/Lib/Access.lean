import ShmMpsc.Lib.Wire

/-!
# Code that reads a buffer

What it does is known by the places it reads and by its result, which it does not have when it
panics. `Exactly n P a` says when it stays within the first `n` bytes, namely when `P`, and that
it answers `a` then; it composes along `bind`.
-/

namespace ShmMpsc

set_option autoImplicit false

/-- A read is of so many bytes from a place on. -/
structure Access (α : Type) where
  reads : List (Nat × Nat)
  result : Option α

namespace Access

variable {α β : Type}

instance : Monad Access where
  pure a := ⟨[], some a⟩
  bind p q :=
    match p.result with
    | none => ⟨p.reads, none⟩
    | some a => ⟨p.reads ++ (q a).reads, (q a).result⟩

def fault : Access α := ⟨[], none⟩

/-- It returns, and has read nothing but the first `n` bytes. -/
def Safe (p : Access α) (n : Nat) : Prop := p.result.isSome ∧ ∀ r ∈ p.reads, r.1 + r.2 ≤ n

instance (p : Access α) (n : Nat) : Decidable (p.Safe n) := inferInstanceAs (Decidable (_ ∧ _))

structure Exactly (p : Access α) (n : Nat) (P : Prop) (a : α) : Prop where
  safe_iff : p.Safe n ↔ P
  result_of : P → p.result = some a

variable {p : Access α} {q : α → Access β} {n : Nat} {P Q : Prop} {a : α} {b : β}

theorem safe_bind_iff : (p >>= q).Safe n ↔ p.Safe n ∧ ∀ a, p.result = some a → (q a).Safe n := by
  obtain ⟨reads, result⟩ := p
  cases result with
  | none => simp [bind, Safe]
  | some a =>
    simp only [bind, Safe, List.mem_append, or_imp, forall_and, Option.isSome_some, true_and,
      Option.some.injEq, forall_eq']
    constructor
    · rintro ⟨hresult, hp, hq⟩
      exact ⟨hp, hresult, hq⟩
    · rintro ⟨hp, hresult, hq⟩
      exact ⟨hresult, hp, hq⟩

theorem result_bind : (p >>= q).result = p.result.bind fun a => (q a).result := by
  obtain ⟨reads, result⟩ := p
  cases result <;> rfl

theorem result_pure (a : α) : (pure a : Access α).result = some a := rfl

theorem exactly_pure (n : Nat) (a : α) : (pure a : Access α).Exactly n True a where
  safe_iff := by simp [pure, Safe]
  result_of := fun _ => rfl

theorem exactly_fault (n : Nat) (a : α) : (fault : Access α).Exactly n False a where
  safe_iff := by simp [fault, Safe]
  result_of := False.elim

namespace Exactly

theorem congr (h : p.Exactly n P a) (hP : P ↔ Q) : p.Exactly n Q a where
  safe_iff := h.safe_iff.trans hP
  result_of := fun hQ => h.result_of (hP.mpr hQ)

/-- What follows matters only after a safe beginning. -/
theorem bind (hp : p.Exactly n P a) (hq : P → (q a).Exactly n Q b) :
    (p >>= q).Exactly n (P ∧ Q) b where
  safe_iff := by
    rw [safe_bind_iff, hp.safe_iff]
    apply and_congr_right
    intro hP
    simp only [hp.result_of hP, Option.some.injEq, forall_eq', (hq hP).safe_iff]
  result_of := by
    rintro ⟨hP, hQ⟩
    rw [result_bind, hp.result_of hP, Option.bind_some, (hq hP).result_of hQ]

theorem map (hp : p.Exactly n P a) (f : α → β) : (f <$> p).Exactly n P (f a) :=
  (hp.bind fun _ => exactly_pure n (f a)).congr (and_iff_left trivial)

end Exactly

/-! ### Reads of a buffer -/

variable {buf : List UInt8}

/-- The little-endian number in `n` bytes; what is missing of them is zero. -/
def wordAt (buf : List UInt8) (loc n : Nat) : Nat := ofLE ((buf.drop loc).take n)

/-- `&buf[loc..loc + n]`. -/
def slice (buf : List UInt8) (loc n : Nat) : Access (List UInt8) :=
  if loc + n ≤ buf.length then ⟨[(loc, n)], some ((buf.drop loc).take n)⟩ else fault

theorem exactly_slice (buf : List UInt8) (loc n : Nat) :
    (slice buf loc n).Exactly buf.length (loc + n ≤ buf.length) ((buf.drop loc).take n) := by
  unfold slice
  split
  · rename_i h
    exact ⟨by simp [Safe, h], fun _ => rfl⟩
  · rename_i h
    exact (exactly_fault _ _).congr (by simp [h])

/-- A number of `n` bytes copied out of `&buf[loc..]`, however long that is. -/
def scalar (buf : List UInt8) (n loc : Nat) : Access Nat :=
  if loc ≤ buf.length then ⟨[(loc, n)], some (wordAt buf loc n)⟩ else fault

theorem exactly_scalar (buf : List UInt8) (n loc : Nat) :
    (scalar buf n loc).Exactly buf.length (loc + n ≤ buf.length) (wordAt buf loc n) := by
  unfold scalar
  split
  · exact ⟨by simp [Safe], fun _ => rfl⟩
  · exact (exactly_fault _ _).congr (by simp; omega)

end Access

end ShmMpsc
