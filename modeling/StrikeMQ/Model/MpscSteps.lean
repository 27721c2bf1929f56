import Mathlib.Data.Finset.Insert
import StrikeMQ.Model.RingBuffer

/-!
# The multi-producer single-consumer ring, one memory access at a time

`utils/ring_buffer.h`, as any number of producers and one consumer run it side by side: every
load, store and compare-exchange of a shared variable and every access to a slot is a step of its
own. A producer claims an index with its compare-exchange, writes the slot, and then sets the
slot's flag; a weak compare-exchange may also fail for no reason.

Beside what the program has, a state keeps its history: the items in the order in which their
indices were claimed, those that were received, and the slots that were written and not read
since.
-/

set_option autoImplicit false

namespace StrikeMQ.Model

open StrikeMQ.Lib

/-- SOURCE: utils/ring_buffer.h:89-124 -/
structure MpscRingBuffer (α : Type) (capacity : ℕ) where
  storage : ℕ → α
  head : ℕ := 0
  tail : ℕ := 0
  committed : ℕ → Bool := fun _ => false

/-- A producer, in a call of `try_push` or between two calls. -/
inductive MpscProducer (α : Type) where
  | idle (result : Option Bool)
  | loadHead (item : α)
  | loadTail (item : α) (head : ℕ)
  | exchange (item : α) (head : ℕ)
  | writeSlot (item : α) (head : ℕ)
  | storeCommitted (item : α) (head : ℕ)

/-- The consumer, in a call of `try_pop` or between two calls. -/
inductive MpscConsumer (α : Type) where
  | idle (result : Option α)
  | loadTail
  | loadHead (tail : ℕ)
  | loadCommitted (tail : ℕ)
  | readSlot (tail : ℕ)
  | clearCommitted (tail : ℕ) (item : α)
  | storeTail (tail : ℕ) (item : α)

structure MpscState (α : Type) (capacity : ℕ) where
  ring : MpscRingBuffer α capacity
  producers : ℕ → MpscProducer α := fun _ => .idle none
  consumer : MpscConsumer α := .idle none
  claimed : List α := []
  received : List α := []
  unread : Finset ℕ := ∅

inductive MpscStep (α : Type) where
  | tryPush (producer : ℕ) (item : α)
  | tryPop
  | produce (producer : ℕ) (spurious : Bool)
  | consume

namespace MpscRingBuffer

/-- SOURCE: utils/ring_buffer.h:119 -/
def kMask (capacity : ℕ) : ℕ :=
  capacity - 1

end MpscRingBuffer

namespace MpscState

variable {α : Type} {capacity : ℕ}

def withProducer (s : MpscState α capacity) (p : ℕ) (at' : MpscProducer α) :
    MpscState α capacity :=
  { s with producers := Function.update s.producers p at' }

/-- One access of `try_push`. A failed compare-exchange loads the head.
SOURCE: utils/ring_buffer.h:95-106 -/
def produce (s : MpscState α capacity) (p : ℕ) (spurious : Bool) :
    Option (MpscState α capacity) :=
  match s.producers p with
  | .idle _ => none
  | .loadHead item => some (s.withProducer p (.loadTail item s.ring.head))
  | .loadTail item head =>
    if toUInt64 ((head : ℤ) - s.ring.tail) ≥ capacity then
      some (s.withProducer p (.idle (some false)))
    else some (s.withProducer p (.exchange item head))
  | .exchange item head =>
    if s.ring.head = head ∧ spurious = false then
      some { s.withProducer p (.writeSlot item head) with
        ring := { s.ring with head := toUInt64 (head + 1) }
        claimed := s.claimed ++ [item] }
    else some (s.withProducer p (.loadTail item s.ring.head))
  | .writeSlot item head =>
    let slot := head &&& MpscRingBuffer.kMask capacity
    some { s.withProducer p (.storeCommitted item head) with
      ring := { s.ring with storage := Function.update s.ring.storage slot item }
      unread := insert slot s.unread }
  | .storeCommitted _ head =>
    let slot := head &&& MpscRingBuffer.kMask capacity
    some { s.withProducer p (.idle (some true)) with
      ring := { s.ring with committed := Function.update s.ring.committed slot true } }

/-- One access of `try_pop`; moving an item out of its slot leaves `moved` of it behind.
SOURCE: utils/ring_buffer.h:108-116 -/
def consume (moved : α → α) (s : MpscState α capacity) : Option (MpscState α capacity) :=
  match s.consumer with
  | .idle _ => none
  | .loadTail => some { s with consumer := .loadHead s.ring.tail }
  | .loadHead tail =>
    if tail ≥ s.ring.head then some { s with consumer := .idle none }
    else some { s with consumer := .loadCommitted tail }
  | .loadCommitted tail =>
    if s.ring.committed (tail &&& MpscRingBuffer.kMask capacity) then
      some { s with consumer := .readSlot tail }
    else some { s with consumer := .idle none }
  | .readSlot tail =>
    let slot := tail &&& MpscRingBuffer.kMask capacity
    let item := s.ring.storage slot
    some { s with
      ring := { s.ring with storage := Function.update s.ring.storage slot (moved item) }
      consumer := .clearCommitted tail item
      unread := s.unread.erase slot }
  | .clearCommitted tail item =>
    let slot := tail &&& MpscRingBuffer.kMask capacity
    some { s with
      ring := { s.ring with committed := Function.update s.ring.committed slot false }
      consumer := .storeTail tail item }
  | .storeTail tail item =>
    some { s with
      ring := { s.ring with tail := toUInt64 (tail + 1) }
      consumer := .idle (some item)
      received := s.received ++ [item] }

/-- One step; `none` if the thread that takes it is not at that point. -/
def step (moved : α → α) (s : MpscState α capacity) : MpscStep α → Option (MpscState α capacity)
  | .tryPush p item =>
    match s.producers p with
    | .idle _ => some (s.withProducer p (.loadHead item))
    | _ => none
  | .tryPop =>
    match s.consumer with
    | .idle _ => some { s with consumer := .loadTail }
    | _ => none
  | .produce p spurious => s.produce p spurious
  | .consume => s.consume moved

/-- The state after the given steps, from a new ring; the slots start out with anything.
SOURCE: utils/ring_buffer.h:93 -/
def run (moved : α → α) (storage : ℕ → α) (steps : List (MpscStep α)) :
    Option (MpscState α capacity) :=
  steps.foldlM (step moved) { ring := { storage := storage } }

end MpscState

end StrikeMQ.Model
