import Mathlib.Data.Finset.Insert
import StrikeMQ.Model.RingBuffer

/-!
# The single-producer single-consumer ring, one memory access at a time

`utils/ring_buffer.h`, as two threads run it side by side: every load and store of a shared
counter and every access to a slot is a step of its own, and the steps of the two threads may
come in any order. The cached counters belong to one thread each, so comparing with them takes
no step. A thread is at the access that it does next, with the values it has loaded before.

Beside what the program has, a state keeps its history: the items that were pushed, those that
were received, and the slots that were written and not read since.
-/

set_option autoImplicit false

namespace StrikeMQ.Model

open StrikeMQ.Lib

/-- The producer, in a call of `try_push` or between two calls. -/
inductive SpscProducer (α : Type) where
  | idle (result : Option Bool)
  | loadHead (item : α)
  | loadTail (item : α) (head : ℕ)
  | writeSlot (item : α) (head : ℕ)
  | storeHead (item : α) (head : ℕ)

/-- The consumer, in a call of `try_pop` or `try_pop_batch` or between two calls. -/
inductive SpscConsumer (α : Type) where
  | idle (result : List α)
  | popLoadTail
  | popLoadHead (tail : ℕ)
  | popReadSlot (tail : ℕ)
  | popStoreTail (tail : ℕ) (item : α)
  | batchLoadTail (maxCount : ℕ)
  | batchLoadHead (maxCount tail : ℕ)
  | batchReadSlot (tail count : ℕ) (output : List α)
  | batchStoreTail (tail : ℕ) (output : List α)

structure SpscState (α : Type) (capacity : ℕ) where
  ring : SpscRingBuffer α capacity
  producer : SpscProducer α := .idle none
  consumer : SpscConsumer α := .idle []
  pushed : List α := []
  received : List α := []
  unread : Finset ℕ := ∅

inductive SpscStep (α : Type) where
  | tryPush (item : α)
  | tryPop
  | tryPopBatch (maxCount : ℕ)
  | produce
  | consume

namespace SpscState

variable {α : Type} {capacity : ℕ}

/-- `next - tail_cached_ > Capacity`.
SOURCE: utils/ring_buffer.h:28, 30 -/
def noRoom (capacity head tailCached : ℕ) : Bool :=
  toUInt64 ((toUInt64 (head + 1) : ℤ) - tailCached) > capacity

/-- One access of `try_push`.
SOURCE: utils/ring_buffer.h:25-47 -/
def produce (s : SpscState α capacity) : Option (SpscState α capacity) :=
  match s.producer with
  | .idle _ => none
  | .loadHead item =>
    let head := s.ring.head
    if noRoom capacity head s.ring.tailCached then
      some { s with producer := .loadTail item head }
    else some { s with producer := .writeSlot item head }
  | .loadTail item head =>
    let ring := { s.ring with tailCached := s.ring.tail }
    if noRoom capacity head ring.tailCached then
      some { s with ring := ring, producer := .idle (some false) }
    else some { s with ring := ring, producer := .writeSlot item head }
  | .writeSlot item head =>
    let slot := head &&& SpscRingBuffer.kMask capacity
    some { s with
      ring := { s.ring with storage := Function.update s.ring.storage slot item }
      producer := .storeHead item head
      unread := insert slot s.unread }
  | .storeHead item head =>
    some { s with
      ring := { s.ring with head := toUInt64 (head + 1) }
      producer := .idle (some true)
      pushed := s.pushed ++ [item] }

/-- The slot of a counter that the consumer reads, and the item in it; moving the item out
leaves `moved` of it behind. -/
def takeSlot (moved : α → α) (s : SpscState α capacity) (counter : ℕ) : α × SpscState α capacity :=
  let slot := counter &&& SpscRingBuffer.kMask capacity
  let item := s.ring.storage slot
  (item, { s with
    ring := { s.ring with storage := Function.update s.ring.storage slot (moved item) }
    unread := s.unread.erase slot })

/-- One access of `try_pop` or `try_pop_batch`.
SOURCE: utils/ring_buffer.h:49-69 -/
def consume (moved : α → α) (s : SpscState α capacity) : Option (SpscState α capacity) :=
  match s.consumer with
  | .idle _ => none
  | .popLoadTail =>
    let tail := s.ring.tail
    if s.ring.headCached = tail then some { s with consumer := .popLoadHead tail }
    else some { s with consumer := .popReadSlot tail }
  | .popLoadHead tail =>
    let ring := { s.ring with headCached := s.ring.head }
    if ring.headCached = tail then some { s with ring := ring, consumer := .idle [] }
    else some { s with ring := ring, consumer := .popReadSlot tail }
  | .popReadSlot tail =>
    let (item, s) := s.takeSlot moved tail
    some { s with consumer := .popStoreTail tail item }
  | .popStoreTail tail item =>
    some { s with
      ring := { s.ring with tail := toUInt64 (tail + 1) }
      consumer := .idle [item]
      received := s.received ++ [item] }
  | .batchLoadTail maxCount => some { s with consumer := .batchLoadHead maxCount s.ring.tail }
  | .batchLoadHead maxCount tail =>
    let ring := { s.ring with headCached := s.ring.head }
    let available := toUInt64 ((ring.headCached : ℤ) - tail)
    let count := min available maxCount
    if count > 0 then some { s with ring := ring, consumer := .batchReadSlot tail count [] }
    else some { s with ring := ring, consumer := .idle [] }
  | .batchReadSlot tail count output =>
    let (item, s) := s.takeSlot moved (toUInt64 (tail + output.length))
    let output := output ++ [item]
    if output.length < count then some { s with consumer := .batchReadSlot tail count output }
    else some { s with consumer := .batchStoreTail tail output }
  | .batchStoreTail tail output =>
    some { s with
      ring := { s.ring with tail := toUInt64 (tail + output.length) }
      consumer := .idle output
      received := s.received ++ output }

/-- One step; `none` if the thread that takes it is not at that point. -/
def step (moved : α → α) (s : SpscState α capacity) : SpscStep α → Option (SpscState α capacity)
  | .tryPush item =>
    match s.producer with
    | .idle _ => some { s with producer := .loadHead item }
    | _ => none
  | .tryPop =>
    match s.consumer with
    | .idle _ => some { s with consumer := .popLoadTail }
    | _ => none
  | .tryPopBatch maxCount =>
    match s.consumer with
    | .idle _ => some { s with consumer := .batchLoadTail maxCount }
    | _ => none
  | .produce => s.produce
  | .consume => s.consume moved

/-- The state after the given steps, from a new ring. -/
def run (moved : α → α) (init : α) (steps : List (SpscStep α)) : Option (SpscState α capacity) :=
  steps.foldlM (step moved) { ring := SpscRingBuffer.new init }

end SpscState

end StrikeMQ.Model
