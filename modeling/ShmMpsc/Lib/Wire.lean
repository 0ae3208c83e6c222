import ShmMpsc.Lib.Memory
import ShmMpsc.Lib.Utf8

/-!
# Readers of byte strings

A reader takes a value off the front of the bytes. `Reads p bytes a` says that whatever follows
`bytes`, `p` takes these and no more, and answers `a`. It composes along `bind`, so that the
reader of a format is checked against its writer piece by piece.
-/

namespace ShmMpsc

set_option autoImplicit false

abbrev Reader (α : Type) : Type := StateT (List UInt8) Option α

namespace Reader

variable {α β : Type}

def byte : Reader UInt8
  | [] => none
  | b :: bs => some (b, bs)

def take (n : Nat) : Reader (List UInt8) := fun bs =>
  if n ≤ bs.length then some (bs.take n, bs.drop n) else none

/-- What a partial function makes of the value. -/
def lift (a : Option α) : Reader α := fun bs => a.map fun a => (a, bs)

def Reads (p : Reader α) (bytes : List UInt8) (a : α) : Prop :=
  ∀ rest, p (bytes ++ rest) = some (a, rest)

variable {p : Reader α} {q : α → Reader β} {bytes bytes' : List UInt8} {a : α} {b : β}

theorem reads_pure (a : α) : Reads (pure a) [] a := fun _ => rfl

theorem Reads.bind (hp : Reads p bytes a) (hq : Reads (q a) bytes' b) :
    Reads (p >>= q) (bytes ++ bytes') b := by
  intro rest
  have hstep : (p >>= q) (bytes ++ bytes' ++ rest) =
      (p (bytes ++ bytes' ++ rest)).bind fun r => q r.1 r.2 := rfl
  rw [hstep, List.append_assoc, hp]
  exact hq rest

theorem Reads.map (hp : Reads p bytes a) (f : α → β) : Reads (f <$> p) bytes (f a) := by
  intro rest
  have hstep : (f <$> p) (bytes ++ rest) = (p (bytes ++ rest)).map fun r => (f r.1, r.2) := by
    simp only [Functor.map, StateT.map]
    cases p (bytes ++ rest) <;> rfl
  rw [hstep, hp]
  rfl

theorem reads_lift {o : Option α} (h : o = some a) : Reads (lift o) [] a := by
  intro rest
  rw [h]
  rfl

theorem Reads.bind_nil (hp : Reads p bytes a) (hq : Reads (q a) [] b) :
    Reads (p >>= q) bytes b := by
  simpa using hp.bind hq

theorem reads_byte_bind {q : UInt8 → Reader β} {c : UInt8} (hq : Reads (q c) bytes b) :
    Reads (byte >>= q) (c :: bytes) b := hq

theorem reads_take (bytes : List UInt8) : Reads (take bytes.length) bytes bytes := by
  intro rest
  simp [take]

theorem Reads.all (hp : Reads p bytes a) : p bytes = some (a, []) := by
  simpa using hp []

theorem length_le_flatMap {w : α → List UInt8} {xs : List α} {x : α} (hx : x ∈ xs) :
    (w x).length ≤ (xs.flatMap w).length := by
  rw [List.flatMap_def]
  exact (List.sublist_flatten_of_mem (List.mem_map_of_mem hx)).length_le

/-- Values up to the end, of at most so many bytes. -/
def many (p : Reader α) : Nat → List UInt8 → Option (List α)
  | _, [] => some []
  | 0, _ :: _ => none
  | k + 1, b :: bs => (p (b :: bs)).bind fun r => (many p k r.2).map (r.1 :: ·)

/-- What is written value by value, none of them in no bytes, is read value by value. -/
theorem many_flatMap {w : α → List UInt8} {xs : List α} (h : ∀ x ∈ xs, Reads p (w x) x)
    (hne : ∀ x ∈ xs, w x ≠ []) {k : Nat} (hk : (xs.flatMap w).length ≤ k) :
    many p k (xs.flatMap w) = some xs := by
  induction xs generalizing k with
  | nil => simp [many]
  | cons x xs ih =>
    have hx := hne x (List.mem_cons_self ..)
    rw [List.flatMap_cons] at hk ⊢
    obtain ⟨b, bs, hb⟩ := List.exists_cons_of_ne_nil hx
    have hread := h x (List.mem_cons_self ..) (xs.flatMap w)
    have hlen : (w x).length = bs.length + 1 := by rw [hb, List.length_cons]
    rw [List.length_append, hlen] at hk
    cases k with
    | zero => omega
    | succ k =>
      rw [hb, List.cons_append] at hread ⊢
      rw [many, hread, Option.bind_some,
        ih (fun y hy => h y (List.mem_cons_of_mem x hy))
          (fun y hy => hne y (List.mem_cons_of_mem x hy))
          (by omega)]
      rfl

/-- So many values. -/
def times (p : Reader α) : Nat → Reader (List α)
  | 0 => pure []
  | k + 1 => p >>= fun x => times p k >>= fun xs => pure (x :: xs)

theorem reads_times {γ : Type} {w : γ → List UInt8} {f : γ → α} {xs : List γ}
    (h : ∀ x ∈ xs, Reads p (w x) (f x)) :
    Reads (times p xs.length) (xs.flatMap w) (xs.map f) := by
  induction xs with
  | nil => exact reads_pure []
  | cons x xs ih =>
    rw [List.flatMap_cons, List.length_cons, times]
    refine (h x (List.mem_cons_self ..)).bind ?_
    exact (ih fun y hy => h y (List.mem_cons_of_mem x hy)).bind_nil (reads_pure _)

/-! ### Fixed-width words -/

/-- Big-endian. -/
def toBE (k n : Nat) : List UInt8 := (toLE k n).reverse

def wordBE (k : Nat) : Reader Nat := (fun bs => ofLE bs.reverse) <$> take k

theorem reads_wordBE {k n : Nat} (h : n < 256 ^ k) : Reads (wordBE k) (toBE k n) n := by
  have hn : ofLE (toBE k n).reverse = n := by
    rw [toBE, List.reverse_reverse, ofLE_toLE, Nat.mod_eq_of_lt h]
  have htake := (reads_take (toBE k n)).map fun bs => ofLE bs.reverse
  rw [hn, toBE, List.length_reverse, toLE_length] at htake
  exact htake

/-! ### Variable-length numbers

Seven bits a byte, lowest first; the high bit of a byte says that another one follows. -/

/-- In at most `k` bytes. -/
def toVarint : Nat → Nat → List UInt8
  | 0, _ => []
  | k + 1, n =>
    if n < 128 then [UInt8.ofNat n] else UInt8.ofNat (n % 128 + 128) :: toVarint k (n / 128)

def varint : Nat → Reader Nat
  | 0 => lift none
  | k + 1 => byte >>= fun b =>
    if b.toNat < 128 then pure b.toNat
    else varint k >>= fun m => pure (b.toNat - 128 + 128 * m)

theorem toVarint_ne_nil (k n : Nat) : toVarint (k + 1) n ≠ [] := by
  rw [toVarint]
  split <;> simp

theorem reads_varint {k n : Nat} (h : n < 128 ^ k) (hk : 0 < k) :
    Reads (varint k) (toVarint k n) n := by
  induction k generalizing n with
  | zero => omega
  | succ k ih =>
    rw [toVarint, varint]
    split
    · rename_i hsmall
      have hb : (UInt8.ofNat n).toNat = n := by
        rw [UInt8.toNat_ofNat']
        omega
      refine reads_byte_bind ?_
      rw [hb, if_pos hsmall]
      exact reads_pure n
    · rename_i hbig
      have hb : (UInt8.ofNat (n % 128 + 128)).toNat = n % 128 + 128 := by
        rw [UInt8.toNat_ofNat']
        omega
      have hrest : n / 128 < 128 ^ k := by
        rw [Nat.pow_succ] at h
        omega
      have hpos : 0 < k := by
        rcases Nat.eq_zero_or_pos k with rfl | hk
        · simp at h
          omega
        · exact hk
      refine reads_byte_bind ?_
      rw [hb, if_neg (by omega)]
      refine (ih hrest hpos).bind_nil ?_
      have hsum : n % 128 + 128 - 128 + 128 * (n / 128) = n := by omega
      rw [hsum]
      exact reads_pure n

/-- Signed numbers, the small ones of either sign first. -/
def zigzag (n : Int) : Nat := if 0 ≤ n then 2 * n.toNat else 2 * (-n).toNat - 1

def unzigzag (m : Nat) : Int := if m % 2 = 0 then (m / 2 : Nat) else -((m + 1) / 2 : Nat)

theorem unzigzag_zigzag (n : Int) : unzigzag (zigzag n) = n := by
  unfold zigzag unzigzag
  split
  · rw [if_pos (by omega)]
    omega
  · rw [if_neg (by omega)]
    omega

theorem zigzag_lt {n : Int} {k : Nat} (hlo : -(2 ^ k : Nat) ≤ n) (hhi : n < (2 ^ k : Nat)) :
    zigzag n < 2 * 2 ^ k := by
  unfold zigzag
  split <;> omega

end Reader

/-! ### Bytes by their position -/

/-- `n` bytes from `a` on. -/
def slice (bytes : List UInt8) (a n : Nat) : Option (List UInt8) :=
  if a + n ≤ bytes.length then some ((bytes.drop a).take n) else none

theorem slice_eq_some_iff {bytes bs : List UInt8} {a n : Nat} :
    slice bytes a n = some bs ↔ a + n ≤ bytes.length ∧ (bytes.drop a).take n = bs := by
  unfold slice
  split <;> simp [*]

theorem slice_left {bytes : List UInt8} {n : Nat} (h : bytes.length = n) (rest : List UInt8) :
    slice (bytes ++ rest) 0 n = some bytes := by
  subst h
  simp [slice]

theorem slice_right {front : List UInt8} {a k n : Nat} (h : front.length = k) (hk : k ≤ a)
    (rest : List UInt8) : slice (front ++ rest) a n = slice rest (a - k) n := by
  subst h
  have hlen : a + n ≤ front.length + rest.length ↔ a - front.length + n ≤ rest.length := by omega
  simp only [slice, List.length_append, hlen, List.drop_append, List.drop_eq_nil_of_le hk,
    List.nil_append]

theorem ofLE_toLE_of_lt {k n : Nat} (h : n < 256 ^ k) : ofLE (toLE k n) = n := by
  rw [ofLE_toLE, Nat.mod_eq_of_lt h]

end ShmMpsc
