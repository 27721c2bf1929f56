import Mathlib.Tactic

/-!
# Fixed-width big-endian words in byte strings

A byte string is a `List UInt8`. `beBytes w v` lays the low `8w` bits of `v` out in
`w` bytes, most significant first, and `beNat` reads such a string back. Signed words
are two's complement: a value of `Z` is laid out through its residue modulo `2^(8w)` and
read back through the balanced residue `Int.bmod`, so that reading inverts writing on
the signed range and truncates outside it, as the machine conversions do.
-/

set_option autoImplicit false

namespace StrikeMQ.Lib

/-- A byte string. -/
abbrev Bytes := List UInt8

/-- The low `8w` bits of `v`, most significant byte first. -/
def beBytes : ℕ → ℕ → Bytes
  | 0, _ => []
  | w + 1, v => beBytes w (v / 256) ++ [UInt8.ofNat (v % 256)]

/-- The value of a big-endian byte string. -/
def beNat (bs : Bytes) : ℕ :=
  bs.foldl (fun acc b => acc * 256 + b.toNat) 0

/-- The two's complement layout of `v` in `w` bytes. -/
def beInt (w : ℕ) (v : ℤ) : Bytes :=
  beBytes w (v % (256 ^ w : ℕ)).toNat

/-- The signed value of a big-endian byte string. -/
def intOfBe (bs : Bytes) : ℤ :=
  Int.bmod (beNat bs) (256 ^ bs.length)

/-- Conversion to a signed 32-bit integer. -/
def toInt32 (v : ℤ) : ℤ :=
  Int.bmod v (2 ^ 32)

/-- Conversion to a signed 64-bit integer. -/
def toInt64 (v : ℤ) : ℤ :=
  Int.bmod v (2 ^ 64)

/-- Conversion to an unsigned 32-bit integer. -/
def toUInt32 (v : ℤ) : ℕ :=
  (v % 2 ^ 32).toNat

/-- Conversion to an unsigned 64-bit integer, and what its arithmetic does to a result. -/
def toUInt64 (v : ℤ) : ℕ :=
  (v % 2 ^ 64).toNat

/-- The `n` bytes of `bs` from position `p` on. -/
def slice (bs : Bytes) (p n : ℕ) : Bytes :=
  (bs.drop p).take n

/-- The bytes of an ASCII literal. -/
def ascii (s : String) : Bytes :=
  s.toList.map fun c => UInt8.ofNat c.toNat

/-- The decimal numeral of an integer, as `std::to_string` prints it. -/
def decimal (n : ℤ) : Bytes :=
  (if n < 0 then ascii "-" else []) ++
    (Nat.toDigits 10 n.natAbs).map fun c => UInt8.ofNat c.toNat

/-- A lower-case hexadecimal digit. -/
def hexDigit (d : ℕ) : UInt8 :=
  if d < 10 then UInt8.ofNat (48 + d) else UInt8.ofNat (87 + d)

/-- The low `w` hexadecimal digits of `n`, zero-padded. -/
def hexDigits : ℕ → ℕ → Bytes
  | 0, _ => []
  | w + 1, n => hexDigits w (n / 16) ++ [hexDigit (n % 16)]

@[simp]
theorem length_beBytes (w v : ℕ) : (beBytes w v).length = w := by
  induction w generalizing v with
  | zero => rfl
  | succ w ih => simp [beBytes, ih]

@[simp]
theorem length_beInt (w : ℕ) (v : ℤ) : (beInt w v).length = w := by
  simp [beInt]

theorem beNat_append_singleton (bs : Bytes) (b : UInt8) :
    beNat (bs ++ [b]) = beNat bs * 256 + b.toNat := by
  simp [beNat]

/-- Reading a laid-out word gives its residue. -/
theorem beNat_beBytes (w v : ℕ) : beNat (beBytes w v) = v % 256 ^ w := by
  induction w generalizing v with
  | zero => simp [beBytes, beNat, Nat.mod_one]
  | succ w ih =>
    rw [beBytes, beNat_append_singleton, ih]
    have hb : (UInt8.ofNat (v % 256)).toNat = v % 256 := by
      simp
    rw [hb, pow_succ', Nat.mod_mul]
    ring

theorem beNat_append (xs ys : Bytes) : beNat (xs ++ ys) = beNat xs * 256 ^ ys.length + beNat ys := by
  induction ys using List.reverseRecOn with
  | nil => simp [beNat]
  | append_singleton ys b ih =>
    rw [← List.append_assoc, beNat_append_singleton, ih, beNat_append_singleton,
      List.length_append, List.length_singleton, pow_succ]
    ring

/-- A word is laid out as its upper and its lower bytes. -/
theorem beBytes_add (m n v : ℕ) : beBytes (m + n) v = beBytes m (v / 256 ^ n) ++ beBytes n v := by
  induction n generalizing v with
  | zero => simp [beBytes]
  | succ n ih =>
    rw [← Nat.add_assoc, beBytes, ih, beBytes, Nat.div_div_eq_div_mul, ← pow_succ',
      List.append_assoc]

/-- Signed reading inverts signed writing up to truncation to the word. -/
theorem intOfBe_beInt (w : ℕ) (v : ℤ) : intOfBe (beInt w v) = Int.bmod v (256 ^ w) := by
  unfold intOfBe
  rw [length_beInt, beInt, beNat_beBytes]
  have hpos : (0 : ℤ) < ((256 ^ w : ℕ) : ℤ) := by positivity
  have hnn := Int.emod_nonneg v hpos.ne'
  have hlt := Int.emod_lt_of_pos v hpos
  have hcast : (((v % ((256 ^ w : ℕ) : ℤ)).toNat % 256 ^ w : ℕ) : ℤ) =
      v % ((256 ^ w : ℕ) : ℤ) := by
    rw [Nat.mod_eq_of_lt (by omega), Int.toNat_of_nonneg hnn]
  rw [hcast, Int.emod_bmod]

theorem beNat_lt (bs : Bytes) : beNat bs < 256 ^ bs.length := by
  induction bs using List.reverseRecOn with
  | nil => norm_num [beNat]
  | append_singleton bs b ih =>
    have hb : b.toNat < 256 := b.toNat_lt
    rw [beNat_append_singleton, List.length_append, List.length_singleton, pow_succ]
    omega

theorem beBytes_beNat (bs : Bytes) : beBytes bs.length (beNat bs) = bs := by
  induction bs using List.reverseRecOn with
  | nil => rfl
  | append_singleton bs b ih =>
    have hb : b.toNat < 256 := b.toNat_lt
    have hdiv : (beNat bs * 256 + b.toNat) / 256 = beNat bs := by omega
    have hmod : (beNat bs * 256 + b.toNat) % 256 = b.toNat := by omega
    rw [beNat_append_singleton, List.length_append, List.length_singleton, beBytes, hdiv, hmod, ih,
      UInt8.ofNat_toNat]

/-- Any bytes are the layout of the signed word that is read from them. -/
theorem beInt_intOfBe (bs : Bytes) : beInt bs.length (intOfBe bs) = bs := by
  have hlt : (beNat bs : ℤ) < ((256 ^ bs.length : ℕ) : ℤ) := by exact_mod_cast beNat_lt bs
  rw [beInt, intOfBe, Int.bmod_emod, Int.emod_eq_of_lt (by omega) hlt, Int.toNat_natCast,
    beBytes_beNat]

theorem intOfBe_eq_iff {xs ys : Bytes} (hlen : xs.length = ys.length) :
    intOfBe xs = intOfBe ys ↔ beNat xs = beNat ys := by
  constructor
  · intro h
    rw [← beInt_intOfBe xs, h, hlen, beInt_intOfBe]
  · intro h
    rw [intOfBe, intOfBe, h, hlen]

theorem toInt32_of_fits {v : ℤ} (hlo : -2 ^ 31 ≤ v) (hhi : v < 2 ^ 31) : toInt32 v = v := by
  unfold toInt32
  apply Int.bmod_eq_of_le_mul_two <;> omega

theorem toInt32_fits (v : ℤ) : -2 ^ 31 ≤ toInt32 v ∧ toInt32 v < 2 ^ 31 := by
  simp only [toInt32, Int.bmod_def]
  split <;> omega

theorem toInt32_le_of_nonneg {v : ℤ} (h : 0 ≤ v) : toInt32 v ≤ v := by
  simp only [toInt32, Int.bmod_def]
  split <;> omega

theorem toInt64_of_fits {v : ℤ} (hlo : -2 ^ 63 ≤ v) (hhi : v < 2 ^ 63) : toInt64 v = v := by
  unfold toInt64
  apply Int.bmod_eq_of_le_mul_two <;> omega

theorem toUInt32_lt (v : ℤ) : toUInt32 v < 2 ^ 32 := by
  unfold toUInt32
  omega

theorem toUInt32_of_lt {n : ℕ} (h : n < 2 ^ 32) : toUInt32 n = n := by
  unfold toUInt32
  omega

theorem intOfBe_beInt_four (v : ℤ) : intOfBe (beInt 4 v) = toInt32 v := by
  rw [intOfBe_beInt]
  rfl

theorem intOfBe_beInt_eight (v : ℤ) : intOfBe (beInt 8 v) = toInt64 v := by
  rw [intOfBe_beInt]
  rfl

@[simp]
theorem length_slice (bs : Bytes) (p n : ℕ) :
    (slice bs p n).length = min n (bs.length - p) := by
  simp [slice]

/-- A slice that starts right after `xs` is a slice of what follows. -/
theorem slice_append_right (xs ys : Bytes) (p n : ℕ) (h : xs.length ≤ p) :
    slice (xs ++ ys) p n = slice ys (p - xs.length) n := by
  unfold slice
  rw [List.drop_append, List.drop_eq_nil_of_le h, List.nil_append]

/-- A slice inside `xs` does not see what follows `xs`. -/
theorem slice_append_left (xs ys : Bytes) (p n : ℕ) (h : p + n ≤ xs.length) :
    slice (xs ++ ys) p n = slice xs p n := by
  unfold slice
  rw [List.drop_append_of_le_length (by omega),
    List.take_append_of_le_length (by rw [List.length_drop]; omega)]

/-- The field that stands between `xs` and `zs` is the slice behind `xs`. -/
theorem slice_middle (xs ys zs : Bytes) (p n : ℕ) (hp : xs.length = p) (hn : ys.length = n) :
    slice (xs ++ (ys ++ zs)) p n = ys := by
  rw [slice_append_right _ _ _ _ hp.le, hp, Nat.sub_self, slice_append_left _ _ _ _ (by omega)]
  simp [slice, ← hn]

/-- The whole string is the slice of its own length. -/
theorem slice_self (xs : Bytes) : slice xs 0 xs.length = xs := by
  simp [slice]

end StrikeMQ.Lib
