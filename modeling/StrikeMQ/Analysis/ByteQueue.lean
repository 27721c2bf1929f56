import StrikeMQ.Lib.RingQueue
import StrikeMQ.Model.CircularBuffer

/-!
# The circular buffer is a bounded byte queue

A buffer holds the queue `q` when its counters are `q.length` apart and the cells between
them are `q`. Each operation is described by what it does to that queue; nothing else about
counters, masks and wrapping is needed outside this file.
-/

set_option autoImplicit false

namespace StrikeMQ.Analysis.ByteQueue

open StrikeMQ.Lib StrikeMQ.Model

/-- The buffer holds the bytes `q`, oldest first. -/
structure HoldsQueue (b : FixedCircularBuffer) (q : Bytes) : Prop where
  capacity_pow : ∃ k, k < 64 ∧ b.capacity = 2 ^ k
  tail_lt : b.tail < 2 ^ 64
  head_eq : b.head = toUInt64 (b.tail + q.length)
  length_le : q.length ≤ b.capacity
  cells_eq : ringOut b.data b.capacity b.tail q.length = q

variable {b : FixedCircularBuffer} {q : Bytes}

namespace HoldsQueue

/-- INTERNAL: the buffer's cells and counters are a queue between two counters. -/
theorem iff_ring : HoldsQueue b q ↔ RingQueue b.data b.capacity b.head b.tail q :=
  ⟨fun h => ⟨h.capacity_pow, h.tail_lt, h.head_eq, h.length_le, h.cells_eq⟩,
    fun h => ⟨h.capacity_pow, h.tail_lt, h.head_eq, h.length_le, h.cells_eq⟩⟩

theorem ring (h : HoldsQueue b q) : RingQueue b.data b.capacity b.head b.tail q :=
  iff_ring.mp h

theorem capacity_pos (h : HoldsQueue b q) : 0 < b.capacity :=
  h.ring.capacity_pos

theorem and_mask (h : HoldsQueue b q) (n : ℕ) : n &&& b.mask = n % b.capacity :=
  h.ring.and_mask n

theorem head_mod (h : HoldsQueue b q) :
    b.head % b.capacity = (b.tail + q.length) % b.capacity :=
  h.ring.head_mod

@[simp]
theorem size_eq (h : HoldsQueue b q) : b.size = q.length :=
  h.ring.size_eq

theorem freeSpace_eq (h : HoldsQueue b q) : b.freeSpace = b.capacity - q.length := by
  have hlen := h.length_le
  have hcap := h.ring.capacity_le
  rw [FixedCircularBuffer.freeSpace, h.size_eq]
  unfold toUInt64
  omega

/-- INTERNAL: bytes put behind the queue and counted extend it. -/
theorem extend (h : HoldsQueue b q) (bs : Bytes) (hfit : q.length + bs.length ≤ b.capacity) :
    HoldsQueue
      { b with
        data := ringIn b.data b.capacity (b.tail + q.length) bs
        head := toUInt64 (b.head + bs.length) } (q ++ bs) :=
  iff_ring.mpr (h.ring.extend bs hfit)

/-- INTERNAL: **`write` takes what there is room for**, and drops the rest of its source. -/
theorem write (h : HoldsQueue b q) (src : Bytes) :
    HoldsQueue (b.write src).1 (q ++ src.take (b.capacity - q.length)) := by
  have hlen := h.length_le
  have hfree := h.freeSpace_eq
  have htaken : (src.take (b.capacity - q.length)).length =
      min src.length (b.capacity - q.length) := by
    rw [List.length_take, min_comm]
  have hpos := (h.and_mask b.head).trans h.head_mod
  by_cases hzero : min src.length (b.capacity - q.length) = 0
  · have hnil : src.take (b.capacity - q.length) = [] := List.length_eq_zero_iff.mp (by omega)
    rw [hnil, List.append_nil]
    simp only [FixedCircularBuffer.write, hfree, hzero, if_true]
    exact h
  · have hext := h.extend (src.take (b.capacity - q.length)) (by omega)
    convert hext using 1
    simp only [FixedCircularBuffer.write, hfree, hzero, if_false, htaken, hpos, ringIn,
      List.take_take]
    -- the second copy of the source is made only where something is left for it
    congr 2
    generalize hfirst : min (min src.length (b.capacity - q.length))
      (b.capacity - (b.tail + q.length) % b.capacity) = first
    have htake : min first (b.capacity - q.length) = first := by omega
    rw [htake]
    split
    · rw [List.drop_take]
      congr 1
      rw [List.take_eq_take_iff, List.length_drop]
      omega
    · rw [List.drop_eq_nil_of_le (by omega), copyIn_nil]

theorem capacity_write (b : FixedCircularBuffer) (src : Bytes) :
    (b.write src).1.capacity = b.capacity := by
  simp only [FixedCircularBuffer.write]
  split <;> rfl

/-- INTERNAL: bytes put at the place that `write_head` offers come behind the queue. -/
theorem offered (h : HoldsQueue b q) {bs : Bytes} (hle : bs.length ≤ b.writeHead.2) :
    q.length + bs.length ≤ b.capacity ∧
      HoldsQueue ({ b with data := copyIn b.data b.writeHead.1 bs }.advanceHead bs.length)
        (q ++ bs) := by
  have hlen := h.length_le
  have hpos := (h.and_mask b.head).trans h.head_mod
  simp only [FixedCircularBuffer.writeHead, h.freeSpace_eq, hpos] at hle ⊢
  have hfit : q.length + bs.length ≤ b.capacity := by omega
  refine ⟨hfit, ?_⟩
  rw [← ringIn_of_fits (by omega)]
  exact h.extend bs hfit

/-- INTERNAL: what a socket puts into the buffer comes behind the queue. -/
theorem fill (h : HoldsQueue b q) {bs : Bytes} {b' : FixedCircularBuffer}
    (hfill : b.fill bs = some b') :
    HoldsQueue b' (q ++ bs) ∧ b'.capacity = b.capacity ∧ 0 < bs.length ∧
      q.length + bs.length ≤ b.capacity := by
  simp only [FixedCircularBuffer.fill] at hfill
  split at hfill
  · next hok =>
    obtain rfl := Option.some.inj hfill
    obtain ⟨hfit, hholds⟩ := h.offered hok.2
    exact ⟨hholds, rfl, hok.1, hfit⟩
  · cases hfill

/-- INTERNAL: the place that is offered is empty only when the buffer is full. -/
theorem writeHead_pos_iff (h : HoldsQueue b q) :
    0 < b.writeHead.2 ↔ q.length < b.capacity := by
  have hmod := Nat.mod_lt (b.tail + q.length) h.capacity_pos
  have hpos := (h.and_mask b.head).trans h.head_mod
  simp only [FixedCircularBuffer.writeHead, h.freeSpace_eq, hpos]
  omega

theorem take_eq (h : HoldsQueue b q) (n : ℕ) :
    q.take n = ringOut b.data b.capacity b.tail (min n q.length) :=
  h.ring.take_eq n

/-- INTERNAL: a buffer that holds a longer queue, but for its head. -/
theorem before_advanceHead (h : HoldsQueue b q) {d : ℕ → UInt8} {n : ℕ} {bs : Bytes}
    (hafter : HoldsQueue ({ b with data := d }.advanceHead n) (q ++ bs)) :
    HoldsQueue { b with data := d } q where
  capacity_pow := h.capacity_pow
  tail_lt := h.tail_lt
  head_eq := h.head_eq
  length_le := h.length_le
  cells_eq := by
    have hcells := hafter.take_eq q.length
    rw [List.take_left, List.length_append, min_eq_left (Nat.le_add_right _ _)] at hcells
    exact hcells.symm

theorem advanceHead_zero (h : HoldsQueue b q) : b.advanceHead 0 = b := by
  have hhead : toUInt64 ((b.head : ℤ) + (0 : ℕ)) = b.head := by
    have heq := h.head_eq
    unfold toUInt64 at heq ⊢
    omega
  rw [FixedCircularBuffer.advanceHead, hhead]

/-- INTERNAL: `peek` copies the front of the queue. -/
theorem peek (h : HoldsQueue b q) (len : ℕ) : b.peek len = q.take len := by
  have hlen := h.length_le
  rw [h.take_eq, ← copyOut_append_copyOut b.data h.capacity_pos (by omega)]
  simp only [FixedCircularBuffer.peek, h.size_eq, h.and_mask]
  split
  · rename_i hzero
    rw [hzero]
    simp [copyOut]
  · congr 1
    split
    · rfl
    · rename_i hle
      rw [Nat.sub_eq_zero_of_le (by omega)]
      simp [copyOut]

theorem advanceTail (h : HoldsQueue b q) {n : ℕ} (hn : n ≤ q.length) :
    HoldsQueue (b.advanceTail n) (q.drop n) :=
  iff_ring.mpr (h.ring.advance hn)

/-- INTERNAL: the bytes that are offered are the front of the queue. -/
theorem copyOut_readHead (h : HoldsQueue b q) {n : ℕ} (hn : n ≤ b.readHead.2) :
    n ≤ q.length ∧ copyOut b.data b.readHead.1 n = q.take n := by
  have hmod := Nat.mod_lt b.tail h.capacity_pos
  simp only [FixedCircularBuffer.readHead, h.size_eq, h.and_mask] at hn ⊢
  refine ⟨by omega, ?_⟩
  rw [copyOut_eq_ringOut _ (by omega), h.take_eq, min_eq_left (by omega)]

/-- INTERNAL: what a socket takes out of the buffer is the front of the queue. -/
theorem drain (h : HoldsQueue b q) {n : ℕ} {bs : Bytes} {b' : FixedCircularBuffer}
    (hdrain : b.drain n = some (bs, b')) :
    bs = q.take n ∧ HoldsQueue b' (q.drop n) ∧ b'.capacity = b.capacity := by
  simp only [FixedCircularBuffer.drain] at hdrain
  split at hdrain
  · rename_i hok
    obtain ⟨rfl, rfl⟩ := Prod.mk.inj (Option.some.inj hdrain)
    obtain ⟨hle, hfront⟩ := h.copyOut_readHead hok.2
    exact ⟨hfront, h.advanceTail hle, rfl⟩
  · exact absurd hdrain (by simp)

/-- INTERNAL: what is written moves nothing of what is offered. -/
theorem readHead_write (h : HoldsQueue b q) (src : Bytes) :
    (b.write src).1.readHead.1 = b.readHead.1 ∧ b.readHead.2 ≤ (b.write src).1.readHead.2 := by
  have hcap := capacity_write b src
  have htail : (b.write src).1.tail = b.tail := by
    simp only [FixedCircularBuffer.write]
    split <;> rfl
  have hsize := (h.write src).size_eq
  rw [List.length_append] at hsize
  simp only [FixedCircularBuffer.readHead, FixedCircularBuffer.mask, hcap, htail, hsize, h.size_eq]
  exact ⟨trivial, by omega⟩

theorem readHead_pos_iff (h : HoldsQueue b q) : 0 < b.readHead.2 ↔ q ≠ [] := by
  have hmod := Nat.mod_lt b.tail h.capacity_pos
  simp only [FixedCircularBuffer.readHead, h.size_eq, h.and_mask]
  rw [← List.length_pos_iff]
  omega

end HoldsQueue

theorem holdsQueue_new {n k : ℕ} (hk : k < 64) (hn : FixedCircularBuffer.nextPowerOf2 n = 2 ^ k) :
    HoldsQueue (FixedCircularBuffer.new n) [] :=
  HoldsQueue.iff_ring.mpr (ringQueue_nil ⟨k, hk, hn⟩ (Nat.two_pow_pos 64) _)

end StrikeMQ.Analysis.ByteQueue
