import StrikeMQ.Lib.Bits
import StrikeMQ.Lib.Bytes

/-!
# Words in the memory of a little-endian machine

The bytes of a word stand in memory with the lowest one first. A word whose bytes are stored so
after they were reversed is a big-endian one.
-/

set_option autoImplicit false

namespace StrikeMQ.Lib

/-- The low `8w` bits of `v`, least significant byte first. -/
def leBytes (w v : ℕ) : Bytes :=
  (beBytes w v).reverse

/-- The value of a little-endian byte string. -/
def leNat (bs : Bytes) : ℕ :=
  beNat bs.reverse

@[simp]
theorem length_leBytes (w v : ℕ) : (leBytes w v).length = w := by
  rw [leBytes, List.length_reverse, length_beBytes]

theorem leNat_lt (bs : Bytes) : leNat bs < 256 ^ bs.length := by
  have hlt := beNat_lt bs.reverse
  rwa [List.length_reverse] at hlt

theorem leBytes_leNat (bs : Bytes) : leBytes bs.length (leNat bs) = bs := by
  have hback := beBytes_beNat bs.reverse
  rw [List.length_reverse] at hback
  rw [leBytes, leNat, hback, List.reverse_reverse]

theorem leNat_leBytes {w v : ℕ} (h : v < 256 ^ w) : leNat (leBytes w v) = v := by
  rw [leNat, leBytes, List.reverse_reverse, beNat_beBytes, Nat.mod_eq_of_lt h]

/-- The lowest byte of a number comes last in its big-endian layout, and counts most when that is
read the other way round. -/
theorem leNat_beBytes_succ (w v : ℕ) :
    leNat (beBytes (w + 1) v) = leNat (beBytes w (v / 256)) ||| v % 256 * 2 ^ (8 * w) := by
  have hpow : (256 : ℕ) ^ w = 2 ^ (8 * w) := by rw [pow_mul]; norm_num
  have hlt : leNat (beBytes w (v / 256)) < 2 ^ (8 * w) := by
    have hlt := leNat_lt (beBytes w (v / 256))
    rwa [length_beBytes, hpow] at hlt
  have hbyte : beNat [UInt8.ofNat (v % 256)] = v % 256 := by
    rw [← List.nil_append [UInt8.ofNat (v % 256)], beNat_append_singleton, UInt8.toNat_ofNat']
    simp [beNat]
  rw [or_eq_add hlt, beBytes, leNat, List.reverse_append, List.reverse_singleton, beNat_append,
    List.length_reverse, length_beBytes, hbyte, hpow, Nat.add_comm]
  rfl

theorem leNat_beBytes_one (v : ℕ) : leNat (beBytes 1 v) = v % 256 := by
  have hnil : leNat (beBytes 0 (v / 256)) = 0 := rfl
  rw [leNat_beBytes_succ, hnil, Nat.zero_or, Nat.mul_zero, pow_zero, Nat.mul_one]

/-! ## Swapping the bytes of a word -/

section Swap

variable {n : ℕ} {swap : ℕ → ℕ} (hswap : ∀ v, v < 256 ^ n → swap v = leNat (beBytes n v))

include hswap

theorem leBytes_swap {v : ℕ} (h : v < 256 ^ n) : leBytes n (swap v) = beBytes n v := by
  have hback := leBytes_leNat (beBytes n v)
  rwa [length_beBytes, ← hswap v h] at hback

theorem swap_leNat {bs : Bytes} (h : bs.length = n) : swap (leNat bs) = beNat bs := by
  subst h
  have hrev : beBytes bs.length (leNat bs) = bs.reverse := by
    rw [← List.reverse_reverse (beBytes _ _)]
    exact congrArg List.reverse (leBytes_leNat bs)
  rw [hswap _ (leNat_lt bs), hrev, leNat, List.reverse_reverse]

end Swap

end StrikeMQ.Lib
