import Mathlib.Data.List.TakeWhile
import StrikeMQ.Interface.NumberText

/-!
# What the number parsers accept

`std::stoi`, `std::stoll` and `std::stoull` look for the same thing and differ in the range they
check. Each of them returns if and only if its text starts with a number of its range.
-/

set_option autoImplicit false

namespace StrikeMQ.Analysis.NumberReading

open StrikeMQ.Lib StrikeMQ.Model StrikeMQ.Model.HttpServer StrikeMQ.Interface

/-- The text without white space and sign. -/
def unsignedPart (s : Bytes) : Bytes :=
  let t := s.dropWhile isSpace
  if t.head? = some 0x2d ∨ t.head? = some 0x2b then t.tail else t

def digitsOf (s : Bytes) : Bytes :=
  (unsignedPart s).takeWhile isDigit

def signOf (s : Bytes) : Bytes :=
  let t := s.dropWhile isSpace
  if t.head? = some 0x2d ∨ t.head? = some 0x2b then t.take 1 else []

def numberOf (s : Bytes) : ℤ :=
  if (s.dropWhile isSpace).head? = some 0x2d then -decimalValue (digitsOf s)
  else decimalValue (digitsOf s)

/-! ## The number at the start of a text -/

theorem isDigit_iff {c : UInt8} : isDigit c ↔ 48 ≤ c.toNat ∧ c.toNat ≤ 57 := by
  simp only [isDigit, decide_eq_true_eq, UInt8.le_iff_toNat_le]
  rfl

theorem not_isSpace_of_isDigit {c : UInt8} (h : isDigit c) : ¬isSpace c := by
  rw [isDigit_iff] at h
  simp only [isSpace, decide_eq_true_eq, UInt8.le_iff_toNat_le]
  rintro (rfl | ⟨-, hle⟩)
  · exact absurd h (by decide)
  · have hle' : c.toNat ≤ 13 := hle
    omega

theorem ne_sign_of_isDigit {c : UInt8} (h : isDigit c) : c ≠ 0x2d ∧ c ≠ 0x2b := by
  rw [isDigit_iff] at h
  constructor
  · rintro rfl
    exact absurd h (by decide)
  · rintro rfl
    exact absurd h (by decide)

theorem dropWhile_eq_sign_append (s : Bytes) :
    s.dropWhile isSpace = signOf s ++ unsignedPart s := by
  unfold signOf unsignedPart
  generalize s.dropWhile isSpace = t
  by_cases h : t.head? = some 0x2d ∨ t.head? = some 0x2b
  · rw [if_pos h, if_pos h, ← List.drop_one, List.take_append_drop]
  · rw [if_neg h, if_neg h, List.nil_append]

theorem signOf_cases (s : Bytes) : signOf s = [] ∨ signOf s = [0x2b] ∨ signOf s = [0x2d] := by
  unfold signOf
  cases s.dropWhile isSpace with
  | nil => exact .inl rfl
  | cons c t =>
    by_cases hminus : c = 0x2d
    · exact .inr (.inr (by simp [hminus]))
    · by_cases hplus : c = 0x2b
      · exact .inr (.inl (by simp [hplus]))
      · exact .inl (by simp [hminus, hplus])

theorem signOf_eq_iff (s : Bytes) :
    signOf s = [0x2d] ↔ (s.dropWhile isSpace).head? = some 0x2d := by
  unfold signOf
  cases s.dropWhile isSpace with
  | nil => simp
  | cons c t =>
    by_cases hminus : c = 0x2d
    · simp [hminus]
    · by_cases hplus : c = 0x2b
      · simp [hplus]
      · simp [hminus, hplus]

/-- The text behind the white space: a sign and digits, or digits. -/
theorem unsignedPart_append {spaces sign t : Bytes} (hspaces : ∀ c ∈ spaces, isSpace c)
    (hsign : sign = [] ∨ sign = [0x2b] ∨ sign = [0x2d]) (ht : ∀ c ∈ t.head?, isDigit c)
    (hne : t ≠ []) :
    (spaces ++ (sign ++ t)).dropWhile isSpace = sign ++ t ∧
      unsignedPart (spaces ++ (sign ++ t)) = t := by
  obtain ⟨c, t, rfl⟩ := List.exists_cons_of_ne_nil hne
  have hdigit : isDigit c := ht c rfl
  have hdrop : (spaces ++ (sign ++ c :: t)).dropWhile isSpace = sign ++ c :: t := by
    apply dropWhile_append_of_head hspaces
    rcases hsign with rfl | rfl | rfl
    · rintro _ ⟨⟩
      exact not_isSpace_of_isDigit hdigit
    · rintro _ ⟨⟩
      decide
    · rintro _ ⟨⟩
      decide
  refine ⟨hdrop, ?_⟩
  unfold unsignedPart
  rw [hdrop]
  rcases hsign with rfl | rfl | rfl
  · simp [ne_sign_of_isDigit hdigit]
  · rfl
  · rfl

/-- INTERNAL: the parsers find the number that the text starts with, and there is one if they
find a digit. -/
theorem startsWithNumber_iff {s : Bytes} {n : ℤ} :
    StartsWithNumber s n ↔ digitsOf s ≠ [] ∧ n = numberOf s := by
  constructor
  · rintro ⟨spaces, sign, digits, rest, rfl, hspaces, hsign, hne, hdigits, hrest, rfl⟩
    obtain ⟨c, ds, rfl⟩ := List.exists_cons_of_ne_nil hne
    have hdigit : isDigit c := hdigits c List.mem_cons_self
    obtain ⟨hdrop, hunsigned⟩ := unsignedPart_append hspaces hsign
      (show ∀ x ∈ (c :: ds ++ rest).head?, isDigit x by rintro _ ⟨⟩; exact hdigit)
      (List.cons_ne_nil c _)
    have hfound : digitsOf (spaces ++ (sign ++ (c :: ds ++ rest))) = c :: ds := by
      rw [digitsOf, hunsigned]
      exact takeWhile_append_of_head hdigits hrest
    refine ⟨by rw [hfound]; exact hne, ?_⟩
    rw [numberOf, hdrop, hfound]
    rcases hsign with rfl | rfl | rfl
    · simp [ne_sign_of_isDigit hdigit]
    · rfl
    · rfl
  · rintro ⟨hne, rfl⟩
    refine ⟨s.takeWhile isSpace, signOf s, digitsOf s, (unsignedPart s).dropWhile isDigit, ?_,
      fun c hc => List.mem_takeWhile_imp hc, signOf_cases s, hne,
      fun c hc => List.mem_takeWhile_imp hc, fun c hc => head?_dropWhile_of_mem hc, ?_⟩
    · rw [digitsOf, List.takeWhile_append_dropWhile, ← dropWhile_eq_sign_append,
        List.takeWhile_append_dropWhile]
    · simp only [numberOf, signOf_eq_iff]

/-! ## The three parsers -/

theorem isSome_unless_iff {α : Type} {c : Prop} [Decidable c] (v : α) :
    (if c then none else some v).isSome ↔ ¬c := by
  by_cases h : c
  · simp [h]
  · simp [h]

theorem holdsSigned_iff {w : ℕ} {s : Bytes} :
    HoldsSigned w s ↔ digitsOf s ≠ [] ∧ Fits w (numberOf s) := by
  constructor
  · rintro ⟨n, hn, hfits⟩
    obtain ⟨hne, rfl⟩ := startsWithNumber_iff.mp hn
    exact ⟨hne, hfits⟩
  · rintro ⟨hne, hfits⟩
    exact ⟨numberOf s, startsWithNumber_iff.mpr ⟨hne, rfl⟩, hfits⟩

/-- What the signed parsers return with their ranges written out. -/
theorem isSome_signed_iff {w : ℕ} {s : Bytes} {wrapped : ℤ}
    (hwrapped : wrapped = numberOf s ↔ Fits w (numberOf s)) :
    (if digitsOf s = [] ∨ numberOf s ≠ wrapped then none else some (numberOf s)).isSome ↔
      HoldsSigned w s := by
  rw [holdsSigned_iff, ← hwrapped, isSome_unless_iff, not_or, not_not, eq_comm (a := wrapped)]

theorem isSome_stoi_iff (s : Bytes) : (stoi s).isSome ↔ HoldsSigned 4 s :=
  isSome_signed_iff toInt32_eq_self_iff

theorem isSome_stoll_iff (s : Bytes) : (MessagePeek.stoll s).isSome ↔ HoldsSigned 8 s :=
  isSome_signed_iff toInt64_eq_self_iff

def magnitudeOf (s : Bytes) : ℕ :=
  (digitsOf s).foldl (fun n c => 10 * n + (c.toNat - 0x30)) 0

theorem stoull_eq (s : Bytes) :
    stoull s = if digitsOf s = [] ∨ magnitudeOf s ≠ toUInt64 (magnitudeOf s) then none
      else some (if decide ((s.dropWhile isSpace).head? = some 0x2d) then
        toUInt64 (-(magnitudeOf s : ℤ)) else magnitudeOf s) :=
  rfl

theorem decimalValue_append_singleton (digits : Bytes) (c : UInt8) :
    decimalValue (digits ++ [c]) = 10 * decimalValue digits + (c.toNat - 0x30) := by
  rw [decimalValue, List.foldl_append]
  rfl

/-- The same value as a natural number. -/
theorem decimalValue_eq {digits : Bytes} (h : ∀ c ∈ digits, isDigit c) :
    decimalValue digits = (digits.foldl (fun n c => 10 * n + (c.toNat - 0x30)) 0 : ℕ) := by
  induction digits using List.reverseRecOn with
  | nil => rfl
  | append_singleton digits c ih =>
    have hc := isDigit_iff.mp (h c (by simp))
    rw [decimalValue_append_singleton, ih fun d hd => h d (by simp [hd]), List.foldl_append]
    simp only [List.foldl_cons, List.foldl_nil]
    omega

/-- INTERNAL: **`std::stoull` returns if the text starts with digits of an `unsigned long long`**.
-/
theorem isSome_stoull_iff (s : Bytes) : (stoull s).isSome ↔ HoldsUnsigned s := by
  have hvalue := decimalValue_eq fun c (hc : c ∈ digitsOf s) => List.mem_takeWhile_imp hc
  have hunsigned : HoldsUnsigned s ↔ digitsOf s ≠ [] ∧ (numberOf s).natAbs < 2 ^ 64 := by
    constructor
    · rintro ⟨n, hn, hlt⟩
      obtain ⟨hne, rfl⟩ := startsWithNumber_iff.mp hn
      exact ⟨hne, hlt⟩
    · rintro ⟨hne, hlt⟩
      exact ⟨numberOf s, startsWithNumber_iff.mpr ⟨hne, rfl⟩, hlt⟩
  have habs : (numberOf s).natAbs = (decimalValue (digitsOf s)).natAbs := by
    unfold numberOf
    split
    · exact Int.natAbs_neg _
    · rfl
  rw [hunsigned, habs, hvalue, Int.natAbs_natCast, stoull_eq, isSome_unless_iff, not_or, not_not]
  refine and_congr_right' ?_
  unfold toUInt64 magnitudeOf
  omega

end StrikeMQ.Analysis.NumberReading
