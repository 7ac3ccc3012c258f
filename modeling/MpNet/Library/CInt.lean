import Mathlib.Algebra.Order.Ring.Int

/-!
# Conversions between the integer types of C

A C value is an integer in the range of its type. Arithmetic on mixed operands
is done on the mathematical integers and converted where C converts.
-/

set_option autoImplicit false

namespace MpNet.Library

/-- Conversion to `uint32_t`. -/
def u32 (value : Int) : Int := value % 4294967296

/-- Conversion to a 64-bit `size_t`. -/
def u64 (value : Int) : Int := value % 18446744073709551616

/-- Conversion to a 32-bit `int`. -/
def i32 (value : Int) : Int := Int.bmod value 4294967296

theorem u32_of_range {value : Int} (nonneg : 0 ≤ value) (small : value < 4294967296) :
    u32 value = value := Int.emod_eq_of_lt nonneg small

theorem u64_of_range {value : Int} (nonneg : 0 ≤ value) (small : value < 18446744073709551616) :
    u64 value = value := Int.emod_eq_of_lt nonneg small

theorem i32_of_range {value : Int} (low : -2147483648 ≤ value) (high : value < 2147483648) :
    i32 value = value := by
  unfold i32
  rw [Int.bmod_eq_of_le] <;> omega

end MpNet.Library
