import StrikeMQ.Lib.Bytes

/-!
# Decimal numerals

A numeral is a string of digits, with a dash in front of it for a negative number. It is not
empty, the dash does not occur among its digits, and it determines its number. Read digit by
digit it gives the number back, and only the numeral of zero starts with a zero.
-/

set_option autoImplicit false

namespace StrikeMQ.Lib

/-- The digits of a natural number. -/
def digitBytes (n : ℕ) : Bytes :=
  (Nat.toDigits 10 n).map fun c => UInt8.ofNat c.toNat

theorem decimal_of_nonneg {v : ℤ} (h : 0 ≤ v) : decimal v = digitBytes v.natAbs := by
  unfold decimal
  rw [if_neg (by omega), List.nil_append]
  rfl

theorem decimal_of_neg {v : ℤ} (h : v < 0) : decimal v = 0x2d :: digitBytes v.natAbs := by
  unfold decimal
  rw [if_pos h]
  rfl

theorem digitBytes_ne_nil (n : ℕ) : digitBytes n ≠ [] := by
  unfold digitBytes
  rw [Ne, List.map_eq_nil_iff]
  exact Nat.toDigits_ne_nil

theorem toNat_digit_range {c : Char} (h : c.isDigit = true) : 48 ≤ c.toNat ∧ c.toNat ≤ 57 := by
  simpa [Char.isDigit, UInt32.le_iff_toNat_le] using h

theorem toNat_ofNat_digit {c : Char} (h : c.isDigit = true) :
    (UInt8.ofNat c.toNat).toNat = c.toNat := by
  have hrange := toNat_digit_range h
  rw [UInt8.toNat_ofNat']
  omega

theorem isDigit_of_mem_digits {n : ℕ} {c : Char} (h : c ∈ Nat.toDigits 10 n) :
    c.isDigit = true :=
  Nat.isDigit_of_mem_toDigits (by norm_num) (by norm_num) h

/-- A digit is one of `0` to `9`. -/
theorem digit_range {n : ℕ} {b : UInt8} (hb : b ∈ digitBytes n) : 48 ≤ b.toNat ∧ b.toNat ≤ 57 := by
  obtain ⟨c, hc, rfl⟩ := List.mem_map.mp hb
  rw [toNat_ofNat_digit (isDigit_of_mem_digits hc)]
  exact toNat_digit_range (isDigit_of_mem_digits hc)

theorem dash_notMem_digitBytes (n : ℕ) : (0x2d : UInt8) ∉ digitBytes n := by
  intro hb
  have hlow := (digit_range hb).1
  exact absurd hlow (by decide)

theorem digitBytes_of_lt {n : ℕ} (h : n < 10) : digitBytes n = [UInt8.ofNat (48 + n)] := by
  have hchar : ∀ d < 10, UInt8.ofNat (Nat.digitChar d).toNat = UInt8.ofNat (48 + d) := by decide
  rw [digitBytes, Nat.toDigits_of_lt_base h, List.map_singleton, hchar n h]

theorem digitBytes_of_le {n : ℕ} (h : 10 ≤ n) :
    digitBytes n = digitBytes (n / 10) ++ [UInt8.ofNat (48 + n % 10)] := by
  rw [← digitBytes_of_lt (Nat.mod_lt n (by norm_num)), digitBytes, digitBytes, digitBytes,
    Nat.toDigits_of_base_le (by norm_num) h, List.map_append,
    Nat.toDigits_of_lt_base (Nat.mod_lt n (by norm_num))]

/-- The number that a string of digits is read as. -/
def digitsValue (bs : Bytes) : ℕ :=
  bs.foldl (fun n b => 10 * n + (b.toNat - 48)) 0

theorem digitsValue_digitBytes (n : ℕ) : digitsValue (digitBytes n) = n := by
  induction n using Nat.strongRecOn with
  | ind n ih =>
    by_cases h : n < 10
    · rw [digitBytes_of_lt h, digitsValue, List.foldl_cons, List.foldl_nil, UInt8.toNat_ofNat']
      omega
    · have hprev : digitsValue (digitBytes (n / 10)) = n / 10 := ih _ (by omega)
      unfold digitsValue at hprev ⊢
      rw [digitBytes_of_le (by omega), List.foldl_append, hprev, List.foldl_cons, List.foldl_nil,
        UInt8.toNat_ofNat']
      omega

/-- Only zero has a numeral that starts with a zero. -/
theorem head_digitBytes_ne {n : ℕ} (h : n ≠ 0) : (digitBytes n).head? ≠ some 0x30 := by
  induction n using Nat.strongRecOn with
  | ind n ih =>
    by_cases hlt : n < 10
    · have hdigit : ∀ d < 10, d ≠ 0 → UInt8.ofNat (48 + d) ≠ 0x30 := by decide
      rw [digitBytes_of_lt hlt, List.head?_cons]
      exact fun heq => hdigit n hlt h (Option.some.inj heq)
    · rw [digitBytes_of_le (by omega), List.head?_append_of_ne_nil _ (digitBytes_ne_nil _)]
      exact ih (n / 10) (by omega) (by omega)

/-- The digits determine the number. -/
theorem digitBytes_injective : Function.Injective digitBytes :=
  Function.LeftInverse.injective digitsValue_digitBytes

/-- A numeral determines its number. -/
theorem decimal_injective : Function.Injective decimal := by
  intro v w h
  rcases lt_or_ge v 0 with hv | hv <;> rcases lt_or_ge w 0 with hw | hw
  · rw [decimal_of_neg hv, decimal_of_neg hw, List.cons.injEq] at h
    have habs := digitBytes_injective h.2
    omega
  · rw [decimal_of_neg hv, decimal_of_nonneg hw] at h
    exact absurd (h ▸ List.mem_cons_self) (dash_notMem_digitBytes _)
  · rw [decimal_of_nonneg hv, decimal_of_neg hw] at h
    exact absurd (h ▸ List.mem_cons_self) (dash_notMem_digitBytes _)
  · rw [decimal_of_nonneg hv, decimal_of_nonneg hw] at h
    have habs := digitBytes_injective h
    omega

end StrikeMQ.Lib
