import Mathlib.Algebra.Order.Group.Int
import Mathlib.Algebra.Order.Group.Nat

/-!
# Unbounded counters seen through 64 bits

`UInt64.ofNat` forgets multiples of 2^64. Counters that are close to each other are still
told apart, and the sign of their wrapped `i64` difference is the sign of the true one.
-/

namespace ShmMpsc

set_option autoImplicit false

variable {a b : Nat}

theorem ofNat_inj_of_near (h1 : a < b + 2 ^ 64) (h2 : b < a + 2 ^ 64) :
    UInt64.ofNat a = UInt64.ofNat b ↔ a = b := by
  constructor
  · intro h
    have h := congrArg UInt64.toNat h
    rw [UInt64.toNat_ofNat', UInt64.toNat_ofNat'] at h
    have ha := Nat.div_add_mod a (2 ^ 64)
    have hb := Nat.div_add_mod b (2 ^ 64)
    omega
  · exact congrArg UInt64.ofNat

/-- `a as i64 - b as i64`, wrapping, is the true difference when that fits an `i64`. -/
theorem toInt64_sub (h1 : (b : Int) - a ≤ 2 ^ 63) (h2 : (a : Int) - b < 2 ^ 63) :
    ((UInt64.ofNat a).toInt64 - (UInt64.ofNat b).toInt64).toInt = (a : Int) - b := by
  rw [UInt64.toInt64_ofNat', UInt64.toInt64_ofNat', Int64.toInt_sub, Int64.toInt_ofNat',
    Int64.toInt_ofNat']
  have hsize : Int64.size = 2 ^ 64 := rfl
  rw [hsize, Int.bmod_sub_bmod, Int.sub_bmod_bmod]
  rw [Int.bmod_eq_of_le] <;> omega

end ShmMpsc
