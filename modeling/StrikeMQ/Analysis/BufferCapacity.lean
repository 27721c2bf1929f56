import StrikeMQ.Lib.Bits
import StrikeMQ.Model.CircularBuffer

/-!
# The capacity of a circular buffer

`next_power_of_2` sets all bits below the highest one of the number before its argument. Six rounds
double the run of set bits from one bit to sixty-four, and no number of the source has more. One
added to the result is the least power of two that is not below the argument, and what the buffer
masks with is that power less one.
-/

set_option autoImplicit false

namespace StrikeMQ.Analysis.BufferCapacity

open StrikeMQ.Lib StrikeMQ.Model

/-- INTERNAL: **the six rounds set every bit below the highest one.** -/
theorem nextPowerOf2_eq {v : ℕ} (hpos : 1 ≤ v) (hle : v ≤ 2 ^ 63) :
    FixedCircularBuffer.nextPowerOf2 v = 2 ^ (v - 1).size := by
  have hsize : (v - 1).size ≤ 63 := Nat.size_le.mpr (by omega)
  have hones := (topSet_size (v - 1)).smear.smear.smear.smear.smear.smear.eq_two_pow_sub_one
    (by omega)
  have hpower : 2 ^ (v - 1).size ≤ 2 ^ 63 := Nat.pow_le_pow_right (by norm_num) hsize
  have hpowerPos : 0 < 2 ^ (v - 1).size := Nat.two_pow_pos _
  unfold FixedCircularBuffer.nextPowerOf2
  rw [if_neg (by omega)]
  dsimp only
  rw [hones]
  unfold toUInt64
  omega

/-- PROPERTY: **`next_power_of_2` is the least power of two that is not below its argument.** A
buffer constructed with such a size has that capacity and finds the cell of a position by its mask.
SOURCE: utils/circular_buffer.h:21-35, 160-166 -/
theorem next_power_of_2_least (v : ℕ) (hpos : 1 ≤ v) (hle : v ≤ 2 ^ 63) :
    (∃ k, FixedCircularBuffer.nextPowerOf2 v = 2 ^ k ∧ v ≤ 2 ^ k ∧ ∀ j, v ≤ 2 ^ j → k ≤ j) ∧
      (FixedCircularBuffer.new v).capacity = FixedCircularBuffer.nextPowerOf2 v ∧
      ∀ position, position &&& (FixedCircularBuffer.new v).mask =
        position % (FixedCircularBuffer.new v).capacity := by
  have hpower := nextPowerOf2_eq hpos hle
  refine ⟨?_, rfl, ?_⟩
  · refine ⟨(v - 1).size, hpower, ?_, ?_⟩
    · have hlt := Nat.lt_size_self (v - 1)
      omega
    · intro j hj
      exact Nat.size_le.mpr (by omega)
  · intro position
    show position &&& (FixedCircularBuffer.nextPowerOf2 v - 1) =
      position % FixedCircularBuffer.nextPowerOf2 v
    rw [hpower, Nat.and_two_pow_sub_one_eq_mod]

theorem next_power_of_2_least_largest :
    (∃ k, FixedCircularBuffer.nextPowerOf2 (2 ^ 63) = 2 ^ k ∧ 2 ^ 63 ≤ 2 ^ k ∧
      ∀ j, 2 ^ 63 ≤ 2 ^ j → k ≤ j) ∧
    (FixedCircularBuffer.new (2 ^ 63)).capacity = FixedCircularBuffer.nextPowerOf2 (2 ^ 63) ∧
    ∀ position, position &&& (FixedCircularBuffer.new (2 ^ 63)).mask =
      position % (FixedCircularBuffer.new (2 ^ 63)).capacity :=
  next_power_of_2_least (2 ^ 63) (by norm_num) le_rfl

end StrikeMQ.Analysis.BufferCapacity
