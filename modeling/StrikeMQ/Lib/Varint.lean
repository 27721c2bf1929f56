import StrikeMQ.Lib.MemReader
import StrikeMQ.Lib.WireFormat

/-!
# Variable-length integers

A natural number in groups of seven bits, low group first, every byte but the last with its
high bit set; a signed one through the zigzag order 0, -1, 1, -2, …, so that small absolute
values are short. A width bounds the number of bytes: five are enough for a 32-bit word and ten
for a 64-bit word.
-/

set_option autoImplicit false

namespace StrikeMQ.Lib

/-- The groups of `n`, at most `w` of them. -/
def uvarint : ℕ → ℕ → Bytes
  | 0, _ => []
  | w + 1, n =>
    if n < 128 then [UInt8.ofNat n] else UInt8.ofNat (n % 128 + 128) :: uvarint w (n / 128)

def zigzag (v : ℤ) : ℕ :=
  if 0 ≤ v then (2 * v).toNat else (-2 * v - 1).toNat

/-- A 32-bit integer. -/
def varint (v : ℤ) : Bytes :=
  uvarint 5 (zigzag v)

/-- A 64-bit integer. -/
def varlong (v : ℤ) : Bytes :=
  uvarint 10 (zigzag v)

/-- A byte string behind the varint of its length, -1 for the missing one. -/
def varBytes : Option Bytes → Bytes
  | none => varint (-1)
  | some s => varint s.length ++ s

/-- An array behind the varint of its length. -/
def varArray {α : Type} (layout : α → Bytes) (xs : List α) : Bytes :=
  varint xs.length ++ xs.flatMap layout

/-- The high bit of a byte is clear. -/
def lastGroup (b : UInt8) : Bool :=
  b &&& 0x80 = 0

theorem lastGroup_ofNat {n : ℕ} (h : n < 256) : lastGroup (UInt8.ofNat n) = decide (n < 128) := by
  have hall : ∀ i : Fin 256, lastGroup (UInt8.ofNat i.val) = decide (i.val < 128) := by
    decide +kernel
  exact hall ⟨n, h⟩

theorem uvarint_ne_nil (w n : ℕ) : uvarint (w + 1) n ≠ [] := by
  rw [uvarint]
  split <;> exact List.cons_ne_nil _ _

theorem length_uvarint_le (w n : ℕ) : (uvarint w n).length ≤ w := by
  induction w generalizing n with
  | zero => exact le_rfl
  | succ w ih =>
    rw [uvarint]
    split
    · rw [List.length_singleton]
      omega
    · rw [List.length_cons]
      exact Nat.succ_le_succ (ih (n / 128))

theorem varint_ne_nil (v : ℤ) : varint v ≠ [] :=
  uvarint_ne_nil 4 (zigzag v)

theorem varBytes_ne_nil (s : Option Bytes) : varBytes s ≠ [] := by
  cases s with
  | none => exact varint_ne_nil (-1)
  | some s => exact List.append_ne_nil_of_left_ne_nil (varint_ne_nil s.length) s

/-- Behind a group that is not the last one there is room for the rest of the number. -/
theorem more_groups {w n : ℕ} (h : n < 128 ^ (w + 1)) (hge : ¬n < 128) :
    0 < w ∧ n / 128 < 128 ^ w := by
  constructor
  · rcases Nat.eq_zero_or_pos w with rfl | hpos
    · rw [Nat.pow_one] at h
      omega
    · exact hpos
  · exact Nat.div_lt_of_lt_mul (by rw [← pow_succ']; exact h)

theorem endsWith_uvarint {w n : ℕ} (hw : 0 < w) (h : n < 128 ^ w) :
    EndsWith lastGroup (uvarint w n) := by
  induction w generalizing n with
  | zero => omega
  | succ w ih =>
    rw [uvarint]
    split
    · next hlt => exact EndsWith.last (by rw [lastGroup_ofNat (by omega), decide_eq_true hlt])
    · next hge =>
      obtain ⟨hpos, hdiv⟩ := more_groups h hge
      exact EndsWith.cons (by rw [lastGroup_ofNat (by omega), decide_eq_false (by omega)])
        (ih hpos hdiv)

theorem zigzag_lt_of_fits {w : ℕ} {v : ℤ} (h : Fits w v) : zigzag v < 256 ^ w := by
  obtain ⟨hlo, hhi⟩ := h
  unfold zigzag
  split <;> omega

theorem endsWith_varint {v : ℤ} (h : Fits 4 v) : EndsWith lastGroup (varint v) :=
  endsWith_uvarint (by norm_num) (lt_trans (zigzag_lt_of_fits h) (by norm_num))

theorem endsWith_varlong {v : ℤ} (h : Fits 8 v) : EndsWith lastGroup (varlong v) :=
  endsWith_uvarint (by norm_num) (lt_trans (zigzag_lt_of_fits h) (by norm_num))

/-- A number that needs fewer groups is laid out the same with room for more. -/
theorem uvarint_of_lt {w w' n : ℕ} (hw : 0 < w) (hle : w ≤ w') (h : n < 128 ^ w) :
    uvarint w' n = uvarint w n := by
  induction w generalizing w' n with
  | zero => omega
  | succ w ih =>
    obtain ⟨w', rfl⟩ : ∃ k, w' = k + 1 := ⟨w' - 1, by omega⟩
    rw [uvarint, uvarint]
    split
    · rfl
    · next hge =>
      obtain ⟨hpos, hdiv⟩ := more_groups h hge
      rw [ih hpos (by omega) hdiv]

theorem varlong_eq_varint {v : ℤ} (h : Fits 4 v) : varlong v = varint v :=
  uvarint_of_lt (by norm_num) (by norm_num) (lt_trans (zigzag_lt_of_fits h) (by norm_num))

/-! ## Back from the bytes -/

/-- The groups put back in their places, each cut to a word of `w` bytes. -/
def ofGroups (w : ℕ) : ℕ → Bytes → ℕ
  | _, [] => 0
  | shift, b :: bs => ((b.toNat &&& 0x7F) <<< shift) % 256 ^ w ||| ofGroups w (shift + 7) bs

/-- The integer at a place of the zigzag order, cut to a signed word of `w` bytes. -/
def ofZigzag (w n : ℕ) : ℤ :=
  Int.bmod ((n >>> 1) ^^^ (-((n &&& 1 : ℕ) : ℤ) % (256 ^ w : ℕ)).toNat : ℕ) (256 ^ w)

theorem low_group (n : ℕ) (h : n < 256) : (UInt8.ofNat n).toNat &&& 0x7F = n % 128 := by
  have hmask : (0x7F : ℕ) = 2 ^ 7 - 1 := rfl
  rw [UInt8.toNat_ofNat', Nat.mod_eq_of_lt h, hmask, Nat.and_two_pow_sub_one_eq_mod]

/-- The groups of a number give it back, as long as it fits the word. -/
theorem ofGroups_uvarint {w k n shift : ℕ} (hk : 0 < k) (hn : n < 128 ^ k)
    (hfit : n * 2 ^ shift < 256 ^ w) : ofGroups w shift (uvarint k n) = n * 2 ^ shift := by
  induction k generalizing n shift with
  | zero => omega
  | succ k ih =>
    rw [uvarint]
    split
    · next hlt =>
      rw [ofGroups, ofGroups, low_group n (by omega), Nat.mod_eq_of_lt hlt, Nat.or_zero,
        Nat.shiftLeft_eq, Nat.mod_eq_of_lt hfit]
    · next hge =>
      obtain ⟨hpos, hdiv⟩ := more_groups hn hge
      have hsplit : n % 128 * 2 ^ shift + n / 128 * 2 ^ (shift + 7) = n * 2 ^ shift := by
        rw [pow_add, show (2 : ℕ) ^ 7 = 128 by norm_num]
        calc n % 128 * 2 ^ shift + n / 128 * (2 ^ shift * 128)
            = (n % 128 + 128 * (n / 128)) * 2 ^ shift := by ring
          _ = n * 2 ^ shift := by rw [Nat.mod_add_div]
      have hlow : n % 128 * 2 ^ shift < 256 ^ w := by omega
      have hrest : ofGroups w (shift + 7) (uvarint k (n / 128)) = n / 128 * 2 ^ (shift + 7) :=
        ih hpos hdiv (by omega)
      rw [ofGroups, low_group _ (by omega), hrest, Nat.add_mod_right, Nat.mod_mod,
        Nat.shiftLeft_eq, Nat.mod_eq_of_lt hlow, ← hsplit, Nat.or_comm]
      have hdisjoint : n % 128 * 2 ^ shift < 2 ^ (shift + 7) := by
        rw [pow_add, Nat.mul_comm]
        exact Nat.mul_lt_mul_of_pos_left (Nat.mod_lt n (by norm_num)) (Nat.two_pow_pos shift)
      rw [Nat.mul_comm (n / 128), ← Nat.two_pow_add_eq_or_of_lt hdisjoint, Nat.add_comm]

/-- Flipping the low bits of a number that has no others. -/
theorem xor_two_pow_sub_one {k n : ℕ} (h : k < 2 ^ n) : k ^^^ (2 ^ n - 1) = 2 ^ n - (k + 1) := by
  apply Nat.eq_of_testBit_eq
  intro i
  rw [Nat.testBit_xor, Nat.testBit_two_pow_sub_one, Nat.testBit_two_pow_sub_succ h]
  by_cases hi : i < n
  · simp [hi]
  · have hbit : k.testBit i = false :=
      Nat.testBit_lt_two_pow (lt_of_lt_of_le h (Nat.pow_le_pow_right (by norm_num) (by omega)))
    simp [hi, hbit]

theorem ofZigzag_zigzag {w : ℕ} {v : ℤ} (h : Fits w v) : ofZigzag w (zigzag v) = v := by
  have hlt := zigzag_lt_of_fits h
  obtain ⟨hlo, hhi⟩ := h
  unfold ofZigzag
  unfold zigzag at hlt ⊢
  rw [Nat.shiftRight_one, Nat.and_one_is_mod]
  by_cases hv : 0 ≤ v
  · have hhalf : (2 * v).toNat / 2 = v.toNat := by omega
    have heven : (2 * v).toNat % 2 = 0 := by omega
    rw [if_pos hv, hhalf, heven, Nat.cast_zero, neg_zero, Int.zero_emod, Int.toNat_zero,
      Nat.xor_zero, Int.toNat_of_nonneg hv]
    exact Int.bmod_eq_of_le_mul_two hlo hhi
  · rw [if_neg hv] at hlt ⊢
    have hhalf : (-2 * v - 1).toNat / 2 = (-v - 1).toNat := by omega
    have hodd : (-2 * v - 1).toNat % 2 = 1 := by omega
    have hpow : (2 : ℕ) ^ (8 * w) = 256 ^ w := by rw [pow_mul]; norm_num
    have hones : (-((1 : ℕ) : ℤ) % (256 ^ w : ℕ)).toNat = 2 ^ (8 * w) - 1 := by
      have hmod : -((1 : ℕ) : ℤ) % (256 ^ w : ℕ) = (256 ^ w : ℕ) - 1 := by
        rw [← Int.add_emod_right]
        exact Int.emod_eq_of_lt (by omega) (by omega)
      rw [hmod, hpow]
      omega
    have hcast : ((256 ^ w - ((-v - 1).toNat + 1) : ℕ) : ℤ) = v + (256 ^ w : ℕ) := by omega
    rw [hhalf, hodd, hones, xor_two_pow_sub_one (by rw [hpow]; omega), hpow, hcast,
      Int.add_bmod_right]
    exact Int.bmod_eq_of_le_mul_two hlo hhi

/-! ## Parsers -/

namespace Parser

variable {α β : Type}

/-- A number in at most `w` groups. -/
def groups : ℕ → Parser ℕ
  | 0 => failure
  | w + 1 => do
    let b ← take 1
    if beNat b < 128 then return beNat b
    else
      let rest ← groups w
      return beNat b % 128 + 128 * rest

/-- An array behind the groups of one more than its length. -/
def compactArray (p : Parser α) : Parser (List α) := do
  let n ← groups 5
  if n = 0 then failure else times p (n - 1)

/-- A tagged field: its number and its bytes. -/
def tag : Parser (ℕ × Bytes) := do
  let key ← groups 5
  let size ← groups 5
  let data ← take size
  return (key, data)

/-- The tagged fields at the end of a structure. -/
def tags : Parser (List (ℕ × Bytes)) := do
  let n ← groups 5
  times tag n

theorem beNat_singleton_ofNat {n : ℕ} (h : n < 256) : beNat [UInt8.ofNat n] = n := by
  have happend := beNat_append_singleton [] (UInt8.ofNat n)
  rw [List.nil_append, UInt8.toNat_ofNat', Nat.mod_eq_of_lt h] at happend
  rw [happend]
  exact Nat.zero_add n

theorem parses_groups {w n : ℕ} (hw : 0 < w) (h : n < 128 ^ w) :
    Parses (groups w) (uvarint w n) n := by
  induction w generalizing n with
  | zero => omega
  | succ w ih =>
    rw [uvarint, groups]
    split
    · next hlt =>
      rw [← List.append_nil [UInt8.ofNat n]]
      refine (parses_take [UInt8.ofNat n]).bind ?_
      rw [beNat_singleton_ofNat (by omega), if_pos hlt]
      exact Parses.pure n
    · next hge =>
      obtain ⟨hpos, hdiv⟩ := more_groups h hge
      rw [← List.singleton_append]
      refine (parses_take [UInt8.ofNat (n % 128 + 128)]).bind ?_
      rw [beNat_singleton_ofNat (by omega), if_neg (by omega)]
      have hrest := (ih hpos hdiv).bind_pure fun rest => n % 128 + 128 * rest
      rw [Nat.mod_add_div] at hrest
      rwa [Nat.add_mod_right, Nat.mod_mod]

theorem parses_compactArray {p : Parser α} {layout : β → Bytes} {value : β → α} {xs : List β}
    (hlen : xs.length + 1 < 128 ^ 5) (h : ∀ x ∈ xs, Parses p (layout x) (value x)) :
    Parses (compactArray p) (uvarint 5 (xs.length + 1) ++ xs.flatMap layout) (xs.map value) := by
  refine (parses_groups (by norm_num) hlen).bind ?_
  rw [if_neg (by omega), Nat.add_sub_cancel]
  exact parses_times h

theorem parses_tags_nil : Parses tags (uvarint 5 0) [] := by
  rw [← List.append_nil (uvarint 5 0)]
  exact (parses_groups (by norm_num) (by norm_num)).bind (Parses.pure [])

end Parser

end StrikeMQ.Lib
