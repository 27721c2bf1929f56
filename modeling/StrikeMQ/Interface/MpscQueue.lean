import StrikeMQ.Model.MpscSteps

/-!
# What the ring between many producers and a consumer promises

Items come out in the order in which their indices were claimed, none is lost and none comes
twice; no slot is written while an unread item is in it, and none is read before the item in it
is complete.
-/

set_option autoImplicit false

namespace StrikeMQ.Interface

open StrikeMQ.Lib StrikeMQ.Model

namespace MpscProducer

variable {α : Type}

/-- The index that the producer has claimed and not yet written. -/
def writing : MpscProducer α → Option ℕ
  | .writeSlot _ head => some head
  | _ => none

/-- The index that the producer has claimed and not yet committed. -/
def owned : MpscProducer α → Option ℕ
  | .writeSlot _ head => some head
  | .storeCommitted _ head => some head
  | _ => none

end MpscProducer

namespace MpscState

variable {α : Type} {capacity : ℕ}

/-- The slot of an index. -/
def slot (capacity index : ℕ) : ℕ :=
  index &&& MpscRingBuffer.kMask capacity

/-- The index whose slot the consumer's next access reads. -/
def reads (s : MpscState α capacity) : Option ℕ :=
  match s.consumer with
  | .readSlot tail => some tail
  | _ => none

/-- Some producer has claimed the index, and its push is not finished. -/
def Unfinished (s : MpscState α capacity) (index : ℕ) : Prop :=
  ∃ p, MpscProducer.owned (s.producers p) = some index

/-- The consumer's next access ends its call without an item. -/
def PopFails (moved : α → α) (s : MpscState α capacity) : Prop :=
  ∃ s', s.consume moved = some s' ∧ s'.consumer = .idle none

/-- The item that a call of `try_pop` returns with this step. -/
def popped (s s' : MpscState α capacity) : List α :=
  match s.consumer, s'.consumer with
  | .idle _, _ => []
  | _, .idle result => result.toList
  | _, _ => []

end MpscState

/-- What holds at every moment. An item that was claimed stays in the queue until it is
received: a pop finds none only when all were received, or when the push of the oldest one is
still going on. -/
structure ClaimOrderQueue {α : Type} {capacity : ℕ} (moved : α → α) (s : MpscState α capacity) :
    Prop where
  in_claim_order : s.received <+: s.claimed
  bounded : s.claimed.length ≤ s.received.length + capacity
  received_finished : ∀ index, MpscState.Unfinished s index → s.received.length ≤ index
  overwrites_nothing : ∀ p index, MpscProducer.writing (s.producers p) = some index →
    MpscState.slot capacity index ∉ s.unread
  reads_written : ∀ index, MpscState.reads s = some index →
    MpscState.slot capacity index ∈ s.unread ∧ ¬∃ other, MpscState.Unfinished s other ∧
      MpscState.slot capacity other = MpscState.slot capacity index
  pop_fails : MpscState.PopFails moved s → s.received.length = s.claimed.length ∨
    MpscState.Unfinished s s.received.length

end StrikeMQ.Interface
