import Mathlib.Data.Nat.Size
import Mathlib.Tactic

/-!
# Bits set and bits moved

A number is smeared when it is combined with itself shifted to the right: the run of set bits below
its highest one becomes twice as long. A byte is picked out of a word by a mask and stands for a
multiple of a power of two; bytes at different places of a word are put together by `|||` as by
`+`.
-/

set_option autoImplicit false

namespace StrikeMQ.Lib

/-! ## Smearing -/

/-- No bit from `n` on is set, and the `m` bits below `n` are. -/
structure TopSet (n m v : ℕ) : Prop where
  lt : v < 2 ^ n
  bits : ∀ i, i < n → n ≤ i + m → v.testBit i = true

theorem testBit_of_bounds {v i : ℕ} (hlo : 2 ^ i ≤ v) (hhi : v < 2 ^ (i + 1)) :
    v.testBit i = true := by
  have hone : v / 2 ^ i = 1 := by
    rw [pow_succ] at hhi
    exact Nat.div_eq_of_lt_le (by omega) (by omega)
  rw [Nat.testBit_eq_decide_div_mod_eq, hone]
  rfl

/-- The highest set bit of a number. -/
theorem topSet_size (v : ℕ) : TopSet v.size 1 v where
  lt := Nat.lt_size_self v
  bits := by
    intro i hi hge
    have hsize : i + 1 = v.size := by omega
    exact testBit_of_bounds (Nat.lt_size.mp hi) (hsize ▸ Nat.lt_size_self v)

theorem TopSet.smear {n m v : ℕ} (h : TopSet n m v) : TopSet n (2 * m) (v ||| v >>> m) where
  lt := Nat.or_lt_two_pow h.lt (lt_of_le_of_lt (Nat.shiftRight_le v m) h.lt)
  bits := by
    intro i hi hge
    rw [Nat.testBit_or, Nat.testBit_shiftRight]
    by_cases hrun : n ≤ i + m
    · rw [h.bits i hi hrun, Bool.true_or]
    · rw [h.bits (m + i) (by omega) (by omega), Bool.or_true]

/-- A run of set bits that reaches down to the lowest one. -/
theorem TopSet.eq_two_pow_sub_one {n m v : ℕ} (h : TopSet n m v) (hle : n ≤ m) :
    v = 2 ^ n - 1 := by
  apply Nat.eq_of_testBit_eq
  intro i
  rw [Nat.testBit_two_pow_sub_one]
  by_cases hi : i < n
  · rw [h.bits i hi (by omega), decide_eq_true hi]
  · rw [decide_eq_false hi]
    exact Nat.testBit_lt_two_pow
      (lt_of_lt_of_le h.lt (Nat.pow_le_pow_right (by norm_num) (by omega)))

/-! ## Multiples of a power of two -/

/-- A word with its lowest `k` bits cleared. -/
theorem and_high_bits {x k w : ℕ} (hx : x < 2 ^ w) (hk : k ≤ w) :
    x &&& (2 ^ w - 2 ^ k) = x / 2 ^ k * 2 ^ k := by
  have hmask : 2 ^ w - 2 ^ k = (2 ^ (w - k) - 1) * 2 ^ k := by
    rw [Nat.sub_mul, Nat.one_mul, ← pow_add, Nat.sub_add_cancel hk]
  apply Nat.eq_of_testBit_eq
  intro i
  rw [hmask, Nat.testBit_and, Nat.testBit_mul_two_pow, Nat.testBit_mul_two_pow,
    Nat.testBit_two_pow_sub_one, Nat.testBit_div_two_pow]
  by_cases hi : k ≤ i
  · rw [Nat.sub_add_cancel hi, decide_eq_true hi, Bool.true_and, Bool.true_and]
    by_cases hw : i < w
    · rw [decide_eq_true (by omega), Bool.and_true]
    · rw [Nat.testBit_lt_two_pow (lt_of_lt_of_le hx (Nat.pow_le_pow_right (by norm_num)
        (by omega))), Bool.false_and]
  · rw [decide_eq_false hi, Bool.false_and, Bool.false_and, Bool.and_false]

/-! ## Bytes of a word -/

/-- A mask of eight bits picks a byte, where it stands. -/
theorem and_byte (x k : ℕ) : x &&& 255 * 2 ^ k = x / 2 ^ k % 256 * 2 ^ k := by
  apply Nat.eq_of_testBit_eq
  intro i
  have hbyte : (255 : ℕ) = 2 ^ 8 - 1 := by norm_num
  have hcut : (256 : ℕ) = 2 ^ 8 := by norm_num
  rw [Nat.testBit_and, Nat.testBit_mul_two_pow, Nat.testBit_mul_two_pow, hbyte,
    Nat.testBit_two_pow_sub_one, hcut, Nat.testBit_mod_two_pow, Nat.testBit_div_two_pow]
  by_cases hi : k ≤ i
  · rw [Nat.sub_add_cancel hi, decide_eq_true hi, Bool.true_and, Bool.true_and, Bool.and_comm]
  · rw [decide_eq_false hi, Bool.false_and, Bool.false_and, Bool.and_false]

/-- A byte picked after a shift to lower places. -/
theorem shiftRight_and_byte (v s k : ℕ) :
    v >>> s &&& 255 * 2 ^ k = v / 2 ^ (s + k) % 256 * 2 ^ k := by
  rw [and_byte, Nat.shiftRight_eq_div_pow, Nat.div_div_eq_div_mul, ← pow_add]

/-- A byte picked after a shift to higher places, in a word of `w` bits that it does not leave. -/
theorem shiftLeft_and_byte (v s k w : ℕ) (hs : s ≤ k) (hk : k + 8 ≤ w) :
    v <<< s % 2 ^ w &&& 255 * 2 ^ k = v / 2 ^ (k - s) % 256 * 2 ^ k := by
  have hword : 2 ^ w = 2 ^ k * 2 ^ (w - k) := by rw [← pow_add, Nat.add_sub_cancel' (by omega)]
  have hdvd : 256 ∣ 2 ^ (w - k) := by
    rw [show 256 = 2 ^ 8 by norm_num]
    exact Nat.pow_dvd_pow 2 (by omega)
  have hplace : 2 ^ k = 2 ^ (k - s) * 2 ^ s := by rw [← pow_add, Nat.sub_add_cancel hs]
  rw [and_byte, hword, Nat.mod_mul_right_div_self, Nat.mod_mod_of_dvd _ hdvd, Nat.shiftLeft_eq,
    hplace, Nat.mul_div_mul_right _ _ (Nat.two_pow_pos s)]

/-- The highest byte of a word, shifted there from the lowest place. -/
theorem shiftLeft_top_byte (v s : ℕ) : v <<< s % 2 ^ (s + 8) = v % 256 * 2 ^ s := by
  have hcut : (256 : ℕ) = 2 ^ 8 := by norm_num
  rw [Nat.shiftLeft_eq, pow_add, Nat.mul_comm (2 ^ s), Nat.mul_mod_mul_right, hcut]

theorem or_eq_add {a k : ℕ} (h : a < 2 ^ k) (b : ℕ) : a ||| b * 2 ^ k = a + b * 2 ^ k := by
  rw [Nat.or_comm, Nat.mul_comm, ← Nat.two_pow_add_eq_or_of_lt h, Nat.add_comm]

end StrikeMQ.Lib
