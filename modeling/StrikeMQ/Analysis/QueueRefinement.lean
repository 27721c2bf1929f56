import StrikeMQ.Interface.BoundedQueue
import StrikeMQ.Analysis.ByteQueue

/-!
# Every run on the circular buffer is a run on the queue

One operation on a buffer that holds a queue is that operation on the queue, and the buffer
holds the queue it leaves; so is a sequence of them. Nothing is assumed about where the
counters start, so they may pass `2 ^ 64` anywhere in a run.
-/

set_option autoImplicit false

namespace StrikeMQ.Analysis.QueueRefinement

open StrikeMQ.Lib StrikeMQ.Model StrikeMQ.Interface StrikeMQ.Analysis.ByteQueue

theorem holdsQueue_empty {k t : ℕ} (hk : k < 64) (ht : t < 2 ^ 64) (data : ℕ → UInt8) :
    HoldsQueue { capacity := 2 ^ k, data := data, head := t, tail := t } [] :=
  HoldsQueue.iff_ring.mpr (ringQueue_nil ⟨k, hk, rfl⟩ ht data)

variable {b : FixedCircularBuffer} {q : Bytes}

/-- INTERNAL: `write` reports what it took. -/
theorem accepted_write (h : HoldsQueue b q) (src : Bytes) :
    (b.write src).2 = min src.length (b.capacity - q.length) := by
  simp only [FixedCircularBuffer.write, h.freeSpace_eq]
  split
  · next hzero => exact hzero.symm
  · rfl

/-- INTERNAL: what `read_head` offers is a piece of the front, and not an empty one. -/
theorem offered_readHead (h : HoldsQueue b q) :
    copyOut b.data b.readHead.1 b.readHead.2 <+: q ∧
      (q ≠ [] → copyOut b.data b.readHead.1 b.readHead.2 ≠ []) := by
  refine ⟨?_, ?_⟩
  · rw [(h.copyOut_readHead le_rfl).2]
    exact List.take_prefix _ _
  · intro hne
    apply List.ne_nil_of_length_pos
    rw [length_copyOut]
    exact h.readHead_pos_iff.mpr hne

theorem holdsQueue_reset (h : HoldsQueue b q) : HoldsQueue b.reset [] :=
  HoldsQueue.iff_ring.mpr (ringQueue_nil h.capacity_pow (Nat.two_pow_pos 64) _)

/-- INTERNAL: **the step lemma**: an operation on the buffer is the same operation on the queue
it holds. -/
theorem queueStep_apply (h : HoldsQueue b q) {op : BufferOp} {answer : BufferAnswer}
    {b' : FixedCircularBuffer} (hop : op.apply b = some (answer, b')) :
    ∃ q', QueueStep b.capacity q op answer q' ∧ HoldsQueue b' q' ∧ b'.capacity = b.capacity := by
  cases op with
  | write src =>
    have hwrite : some (BufferAnswer.accepted (b.write src).2, (b.write src).1) =
        some (answer, b') := hop
    obtain ⟨rfl, rfl⟩ := Prod.mk.inj (Option.some.inj hwrite)
    rw [accepted_write h src]
    exact ⟨_, .write q src, h.write src, HoldsQueue.capacity_write b src⟩
  | fill bs =>
    simp only [BufferOp.apply] at hop
    split at hop
    · next hle =>
      obtain ⟨rfl, rfl⟩ := Prod.mk.inj (Option.some.inj hop)
      obtain ⟨hfit, hholds⟩ := h.offered hle
      exact ⟨_, .fill q bs hfit, hholds, rfl⟩
    · cases hop
  | peek len =>
    obtain ⟨rfl, rfl⟩ := Prod.mk.inj (Option.some.inj hop)
    rw [h.peek len]
    exact ⟨_, .peek q len, h, rfl⟩
  | read len =>
    have hread : some (BufferAnswer.bytes (b.peek len), b.advanceTail (b.peek len).length) =
        some (answer, b') := hop
    rw [h.peek len] at hread
    obtain ⟨rfl, rfl⟩ := Prod.mk.inj (Option.some.inj hread)
    refine ⟨q.drop len, .read q len, ?_, rfl⟩
    · rw [List.length_take]
      have hdrop := h.advanceTail (Nat.min_le_right len q.length)
      rcases Nat.le_total len q.length with hle | hle
      · rwa [min_eq_left hle] at hdrop ⊢
      · rw [min_eq_right hle] at hdrop ⊢
        rwa [List.drop_eq_nil_of_le hle, ← List.drop_length]
  | drain n =>
    simp only [BufferOp.apply] at hop
    split at hop
    · next hle =>
      obtain ⟨rfl, rfl⟩ := Prod.mk.inj (Option.some.inj hop)
      obtain ⟨hfront, hne⟩ := offered_readHead h
      have hlen := hfront.length_le
      rw [length_copyOut] at hlen
      exact ⟨_, .drain q _ n hfront hne (by rw [length_copyOut]; exact hle),
        h.advanceTail (by omega), rfl⟩
    · cases hop
  | reset =>
    obtain ⟨rfl, rfl⟩ := Prod.mk.inj (Option.some.inj hop)
    exact ⟨_, .reset q, holdsQueue_reset h, rfl⟩

/-- INTERNAL: **the run lemma**. -/
theorem queueRun_runOps (h : HoldsQueue b q) {ops : List BufferOp} {answers : List BufferAnswer}
    {b' : FixedCircularBuffer} (hrun : runOps b ops = some (answers, b')) :
    ∃ q', QueueRun b.capacity q ops answers q' ∧ HoldsQueue b' q' ∧ b'.capacity = b.capacity := by
  induction ops generalizing b q answers with
  | nil =>
    obtain ⟨rfl, rfl⟩ := Prod.mk.inj (Option.some.inj hrun)
    exact ⟨q, .nil q, h, rfl⟩
  | cons op ops ih =>
    simp only [runOps, Option.bind_eq_bind, Option.bind_eq_some_iff, Prod.exists] at hrun
    obtain ⟨answer, b₁, hop, rest, b₂, hrest, hout⟩ := hrun
    obtain ⟨rfl, rfl⟩ := Prod.mk.inj (Option.some.inj hout)
    obtain ⟨q₁, hstep, h₁, hcap₁⟩ := queueStep_apply h hop
    obtain ⟨q₂, hqrun, h₂, hcap₂⟩ := ih h₁ hrest
    rw [hcap₁] at hqrun
    exact ⟨q₂, .cons hstep hqrun, h₂, hcap₂.trans hcap₁⟩

/-- PROPERTY: any operations on an empty buffer of a power-of-two capacity, its counters
standing anywhere, are a run of the bounded queue with the same answers; the buffer's size is
the length of that queue, never more than the capacity, and the rest of the capacity is free.
SOURCE: utils/circular_buffer.h:80-157 -/
theorem buffer_refines_bounded_queue {k t : ℕ} (hk : k < 64) (ht : t < 2 ^ 64)
    (data : ℕ → UInt8) (ops : List BufferOp) (answers : List BufferAnswer)
    (b' : FixedCircularBuffer)
    (hrun : runOps { capacity := 2 ^ k, data := data, head := t, tail := t } ops =
      some (answers, b')) :
    ∃ q, QueueRun (2 ^ k) [] ops answers q ∧ b'.size = q.length ∧ q.length ≤ 2 ^ k ∧
      b'.freeSpace = 2 ^ k - q.length := by
  obtain ⟨q, hqrun, hq, hcap⟩ := queueRun_runOps (holdsQueue_empty hk ht data) hrun
  have hlen := hq.length_le
  rw [hcap] at hlen
  refine ⟨q, hqrun, hq.size_eq, hlen, ?_⟩
  rw [hq.freeSpace_eq, hcap]

/-- Operations of every kind on a buffer of four bytes whose counters pass `2 ^ 64`. -/
def wrappingOps : List BufferOp :=
  [.write [1, 2, 3], .peek 2, .drain 2, .fill [4, 5], .read 8, .reset]

theorem buffer_refines_bounded_queue_wrapping :
    ∃ answers b', runOps { capacity := 2 ^ 2, head := 2 ^ 64 - 2, tail := 2 ^ 64 - 2 } wrappingOps =
        some (answers, b') ∧
      ∃ q, QueueRun (2 ^ 2) [] wrappingOps answers q ∧ b'.size = q.length ∧ q.length ≤ 2 ^ 2 ∧
        b'.freeSpace = 2 ^ 2 - q.length := by
  have hsome : (runOps { capacity := 2 ^ 2, head := 2 ^ 64 - 2, tail := 2 ^ 64 - 2 }
      wrappingOps).isSome := by decide +kernel
  obtain ⟨⟨answers, b'⟩, hrun⟩ := Option.isSome_iff_exists.mp hsome
  exact ⟨answers, b', hrun,
    buffer_refines_bounded_queue (by norm_num) (by norm_num) _ _ _ _ hrun⟩

end StrikeMQ.Analysis.QueueRefinement
