import StrikeMQ.Lib.Bytes
import StrikeMQ.Lib.Ring

/-!
# Queues between two counters

A ring of cells with a `head` counter, where the next element goes, and a `tail` counter, where
the oldest one is. The counters are 64 bits wide and only grow; they wrap at `2 ^ 64`, which a
power-of-two capacity divides, so a counter stands for the same cell before and after.
-/

set_option autoImplicit false

namespace StrikeMQ.Lib

variable {α : Type}

/-- The cells from counter `tail` up to counter `head` hold `q`, oldest first. -/
structure RingQueue (d : ℕ → α) (cap head tail : ℕ) (q : List α) : Prop where
  capacity_pow : ∃ k, k < 64 ∧ cap = 2 ^ k
  tail_lt : tail < 2 ^ 64
  head_eq : head = toUInt64 (tail + q.length)
  length_le : q.length ≤ cap
  cells_eq : ringOut d cap tail q.length = q

/-- A ring whose counters agree is empty, wherever they stand. -/
theorem ringQueue_nil {cap t : ℕ} (hcap : ∃ k, k < 64 ∧ cap = 2 ^ k) (ht : t < 2 ^ 64)
    (d : ℕ → α) : RingQueue d cap t t [] where
  capacity_pow := hcap
  tail_lt := ht
  head_eq := by
    show t = toUInt64 ((t : ℤ) + (0 : ℕ))
    unfold toUInt64
    omega
  length_le := Nat.zero_le _
  cells_eq := rfl

namespace RingQueue

variable {d : ℕ → α} {cap head tail : ℕ} {q : List α}

theorem capacity_pos (h : RingQueue d cap head tail q) : 0 < cap := by
  obtain ⟨k, -, hk⟩ := h.capacity_pow
  rw [hk]
  exact Nat.two_pow_pos k

theorem capacity_dvd (h : RingQueue d cap head tail q) : cap ∣ 2 ^ 64 := by
  obtain ⟨k, hlt, hk⟩ := h.capacity_pow
  rw [hk]
  exact pow_dvd_pow 2 (by omega)

theorem capacity_le (h : RingQueue d cap head tail q) : cap ≤ 2 ^ 63 := by
  obtain ⟨k, hlt, hk⟩ := h.capacity_pow
  rw [hk]
  exact Nat.pow_le_pow_right (by norm_num) (by omega)

theorem and_mask (h : RingQueue d cap head tail q) (n : ℕ) : n &&& (cap - 1) = n % cap := by
  obtain ⟨k, -, hk⟩ := h.capacity_pow
  rw [hk, Nat.and_two_pow_sub_one_eq_mod]

/-- A counter that wrapped stands for the same cell. -/
theorem toUInt64_mod (h : RingQueue d cap head tail q) (n : ℕ) : toUInt64 n % cap = n % cap := by
  have hwrap : toUInt64 n = n % 2 ^ 64 := by
    unfold toUInt64
    omega
  rw [hwrap, Nat.mod_mod_of_dvd n h.capacity_dvd]

theorem head_mod (h : RingQueue d cap head tail q) : head % cap = (tail + q.length) % cap := by
  rw [h.head_eq]
  exact h.toUInt64_mod (tail + q.length)

theorem size_eq (h : RingQueue d cap head tail q) :
    toUInt64 ((head : ℤ) - tail) = q.length := by
  have hlen := h.length_le
  have hcap := h.capacity_le
  have htail := h.tail_lt
  rw [h.head_eq]
  unfold toUInt64
  omega

/-- What is put behind the queue and counted extends it. -/
theorem extend (h : RingQueue d cap head tail q) (xs : List α) (hfit : q.length + xs.length ≤ cap) :
    RingQueue (ringIn d cap (tail + q.length) xs) cap (toUInt64 (head + xs.length)) tail
      (q ++ xs) where
  capacity_pow := h.capacity_pow
  tail_lt := h.tail_lt
  head_eq := by
    rw [List.length_append, h.head_eq]
    unfold toUInt64
    omega
  length_le := by
    rw [List.length_append]
    exact hfit
  cells_eq := by
    rw [List.length_append]
    exact (ringOut_ringIn h.capacity_pos hfit).trans (by rw [h.cells_eq])

/-- Moving the tail drops the front of the queue. -/
theorem advance (h : RingQueue d cap head tail q) {n : ℕ} (hn : n ≤ q.length) :
    RingQueue d cap head (toUInt64 (tail + n)) (q.drop n) where
  capacity_pow := h.capacity_pow
  tail_lt := by
    unfold toUInt64
    omega
  head_eq := by
    have htail := h.tail_lt
    rw [List.length_drop, h.head_eq]
    unfold toUInt64
    omega
  length_le := by
    have hlen := h.length_le
    rw [List.length_drop]
    exact le_trans (Nat.sub_le _ _) hlen
  cells_eq := by
    have hcell : toUInt64 (tail + n) % cap = (tail + n) % cap := h.toUInt64_mod (tail + n)
    rw [ringOut_congr hcell, List.length_drop, ← drop_ringOut _ _ _ hn, h.cells_eq]

theorem take_eq (h : RingQueue d cap head tail q) (n : ℕ) :
    q.take n = ringOut d cap tail (min n q.length) := by
  rw [← take_ringOut, h.cells_eq]

end RingQueue

end StrikeMQ.Lib
