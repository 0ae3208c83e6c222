import Mathlib.Data.List.Basic
import Mathlib.Algebra.Order.Group.Nat

/-!
# Byte memory with bounds

A mapping of `size` bytes, at most `isize::MAX` of them. Reading or writing outside
it answers `none`. Words are little-endian. Two facts carry everything above: a range reads back
what was written to it, and a write leaves disjoint ranges alone.
-/

namespace ShmMpsc

set_option autoImplicit false

/-! ### Little-endian words -/

def toLE : Nat → Nat → List UInt8
  | 0, _ => []
  | k + 1, n => UInt8.ofNat n :: toLE k (n / 256)

def ofLE : List UInt8 → Nat
  | [] => 0
  | b :: bs => b.toNat + 256 * ofLE bs

@[simp] theorem toLE_length (k n : Nat) : (toLE k n).length = k := by
  induction k generalizing n with
  | zero => rfl
  | succ k ih => simp [toLE, ih]

theorem ofLE_toLE (k n : Nat) : ofLE (toLE k n) = n % 256 ^ k := by
  induction k generalizing n with
  | zero => simp [toLE, ofLE, Nat.mod_one]
  | succ k ih =>
    have hb : (UInt8.ofNat n).toNat = n % 256 := by simp
    rw [toLE, ofLE, ih, hb, Nat.pow_succ, Nat.mul_comm (256 ^ k), Nat.mod_mul]

theorem ofLE_lt (bs : List UInt8) : ofLE bs < 256 ^ bs.length := by
  induction bs with
  | nil => simp [ofLE]
  | cons b bs ih =>
    have hb := b.toNat_lt
    rw [ofLE, List.length_cons, Nat.pow_succ]
    omega

/-! ### Memory -/

structure Memory where
  size : Nat
  byte : Nat → UInt8
  size_lt : size < 2 ^ 63

namespace Memory

def read (m : Memory) (a n : Nat) : Option (List UInt8) :=
  if a + n ≤ m.size then some ((List.range n).map fun i => m.byte (a + i)) else none

def put (m : Memory) (a : Nat) (bs : List UInt8) : Memory :=
  { m with byte := fun x => if a ≤ x then bs[x - a]?.getD (m.byte x) else m.byte x }

def write (m : Memory) (a : Nat) (bs : List UInt8) : Option Memory :=
  if a + bs.length ≤ m.size then some (m.put a bs) else none

def load64 (m : Memory) (a : Nat) : Option UInt64 :=
  (m.read a 8).map fun bs => UInt64.ofNat (ofLE bs)

def store64 (m : Memory) (a : Nat) (v : UInt64) : Option Memory := m.write a (toLE 8 v.toNat)

def load32 (m : Memory) (a : Nat) : Option UInt32 :=
  (m.read a 4).map fun bs => UInt32.ofNat (ofLE bs)

def store32 (m : Memory) (a : Nat) (v : UInt32) : Option Memory := m.write a (toLE 4 v.toNat)

variable {m m' : Memory} {a b n : Nat} {bs : List UInt8}

@[simp] theorem put_size (m : Memory) (a : Nat) (bs : List UInt8) : (m.put a bs).size = m.size :=
  rfl

theorem put_byte_of_lt (m : Memory) {i : Nat} (h : i < bs.length) :
    (m.put a bs).byte (a + i) = bs.get ⟨i, h⟩ := by
  simp [put, h]

theorem put_byte_of_disjoint (m : Memory) {x : Nat} (h : x < a ∨ a + bs.length ≤ x) :
    (m.put a bs).byte x = m.byte x := by
  unfold put
  dsimp only
  split
  · have hx : bs.length ≤ x - a := by omega
    simp [hx]
  · rfl

theorem write_eq_some : m.write a bs = some m' ↔ a + bs.length ≤ m.size ∧ m' = m.put a bs := by
  by_cases hb : a + bs.length ≤ m.size
  · simp [write, hb, eq_comm]
  · simp [write, hb]

theorem write_size (h : m.write a bs = some m') : m'.size = m.size := by
  rw [(write_eq_some.mp h).2, put_size]

theorem read_write_same (h : m.write a bs = some m') : m'.read a bs.length = some bs := by
  obtain ⟨hb, rfl⟩ := write_eq_some.mp h
  rw [read, put_size, if_pos hb]
  congr 1
  apply List.ext_get (by simp)
  intro i h1 h2
  simpa using m.put_byte_of_lt (a := a) h2

theorem read_write_disjoint (h : m.write a bs = some m') (hd : b + n ≤ a ∨ a + bs.length ≤ b) :
    m'.read b n = m.read b n := by
  obtain ⟨_, rfl⟩ := write_eq_some.mp h
  unfold read
  rw [put_size]
  congr 2
  apply List.map_congr_left
  intro i hi
  have hi' := List.mem_range.mp hi
  exact m.put_byte_of_disjoint (by omega)

/-! ### Words: what is stored is loaded, elsewhere nothing moves -/

section Words

variable {v : UInt64} {w : UInt32}

theorem load64_store64 (h : m.store64 a v = some m') : m'.load64 a = some v := by
  have hr := read_write_same h
  have hv : v.toNat < 256 ^ 8 := v.toNat_lt
  rw [toLE_length] at hr
  rw [load64, hr, Option.map_some, ofLE_toLE, Nat.mod_eq_of_lt hv, UInt64.ofNat_toNat]

theorem load32_store32 (h : m.store32 a w = some m') : m'.load32 a = some w := by
  have hr := read_write_same h
  have hw : w.toNat < 256 ^ 4 := w.toNat_lt
  rw [toLE_length] at hr
  rw [load32, hr, Option.map_some, ofLE_toLE, Nat.mod_eq_of_lt hw, UInt32.ofNat_toNat]

theorem load64_write (h : m.write a bs = some m') (hd : b + 8 ≤ a ∨ a + bs.length ≤ b) :
    m'.load64 b = m.load64 b := by
  rw [load64, read_write_disjoint h hd, load64]

theorem load32_write (h : m.write a bs = some m') (hd : b + 4 ≤ a ∨ a + bs.length ≤ b) :
    m'.load32 b = m.load32 b := by
  rw [load32, read_write_disjoint h hd, load32]

theorem load64_store64_of_disjoint (h : m.store64 a v = some m') (hd : b + 8 ≤ a ∨ a + 8 ≤ b) :
    m'.load64 b = m.load64 b := load64_write h (by simpa using hd)

theorem load32_store64_of_disjoint (h : m.store64 a v = some m') (hd : b + 4 ≤ a ∨ a + 8 ≤ b) :
    m'.load32 b = m.load32 b := load32_write h (by simpa using hd)

theorem load64_store32_of_disjoint (h : m.store32 a w = some m') (hd : b + 8 ≤ a ∨ a + 4 ≤ b) :
    m'.load64 b = m.load64 b := load64_write h (by simpa using hd)

theorem write_isSome (hb : a + bs.length ≤ m.size) : (m.write a bs).isSome := by
  simp [write, hb]

theorem store64_isSome (hb : a + 8 ≤ m.size) : (m.store64 a v).isSome :=
  write_isSome (by simpa using hb)

theorem store32_isSome (hb : a + 4 ≤ m.size) : (m.store32 a w).isSome :=
  write_isSome (by simpa using hb)

theorem store64_bound (h : m.store64 a v = some m') : a + 8 ≤ m.size := by
  simpa using (write_eq_some.mp h).1

theorem store64_size (h : m.store64 a v = some m') : m'.size = m.size := write_size h

theorem byte_write (h : m.write a bs = some m') {x : Nat} (hd : x < a ∨ a + bs.length ≤ x) :
    m'.byte x = m.byte x := by
  rw [(write_eq_some.mp h).2]
  exact m.put_byte_of_disjoint hd

theorem read_isSome (hb : a + n ≤ m.size) : (m.read a n).isSome := by simp [read, hb]

theorem load64_isSome (hb : a + 8 ≤ m.size) : (m.load64 a).isSome := by simp [load64, read, hb]

theorem load32_isSome (hb : a + 4 ≤ m.size) : (m.load32 a).isSome := by simp [load32, read, hb]

end Words

/-! ### A word for every index of a list -/

/-- `val i` goes to `addr i`, in the order of the list. -/
def storeAll (addr : Nat → Nat) (val : Nat → UInt64) : List Nat → Memory → Option Memory
  | [], m => some m
  | i :: is, m => (m.store64 (addr i) (val i)).bind (storeAll addr val is)

section StoreAll

variable {addr : Nat → Nat} {val : Nat → UInt64} {is : List Nat}

theorem storeAll_size (h : storeAll addr val is m = some m') : m'.size = m.size := by
  induction is generalizing m with
  | nil => cases h; rfl
  | cons i is ih =>
    obtain ⟨m1, h1, h⟩ := Option.bind_eq_some_iff.mp h
    rw [ih h, store64_size h1]

theorem storeAll_bound (h : storeAll addr val is m = some m') {i : Nat} (hi : i ∈ is) :
    addr i + 8 ≤ m.size := by
  induction is generalizing m with
  | nil => simp at hi
  | cons j is ih =>
    obtain ⟨m1, h1, h⟩ := Option.bind_eq_some_iff.mp h
    rcases List.mem_cons.mp hi with rfl | hi
    · exact store64_bound h1
    · exact store64_size h1 ▸ ih h hi

theorem storeAll_load64_of_disjoint (h : storeAll addr val is m = some m')
    (hd : ∀ i ∈ is, b + 8 ≤ addr i ∨ addr i + 8 ≤ b) : m'.load64 b = m.load64 b := by
  induction is generalizing m with
  | nil => cases h; rfl
  | cons i is ih =>
    obtain ⟨m1, h1, h⟩ := Option.bind_eq_some_iff.mp h
    rw [ih h fun j hj => hd j (List.mem_cons_of_mem i hj),
      load64_store64_of_disjoint h1 (hd i List.mem_cons_self)]

theorem storeAll_load64 (h : storeAll addr val is m = some m')
    (hd : is.Pairwise fun i j => addr i + 8 ≤ addr j ∨ addr j + 8 ≤ addr i)
    {i : Nat} (hi : i ∈ is) : m'.load64 (addr i) = some (val i) := by
  induction is generalizing m with
  | nil => simp at hi
  | cons j is ih =>
    obtain ⟨m1, h1, h2⟩ := Option.bind_eq_some_iff.mp h
    obtain ⟨hj, hd'⟩ := List.pairwise_cons.mp hd
    rcases List.mem_cons.mp hi with rfl | hi
    · rw [storeAll_load64_of_disjoint h2 hj, load64_store64 h1]
    · exact ih h2 hd' hi

theorem storeAll_isSome (hb : ∀ i ∈ is, addr i + 8 ≤ m.size) :
    (storeAll addr val is m).isSome := by
  induction is generalizing m with
  | nil => rfl
  | cons i is ih =>
    obtain ⟨m1, h1⟩ := Option.isSome_iff_exists.mp
      (store64_isSome (v := val i) (hb i List.mem_cons_self))
    rw [storeAll, h1]
    exact ih fun j hj => store64_size h1 ▸ hb j (List.mem_cons_of_mem i hj)

end StoreAll

end Memory

end ShmMpsc
