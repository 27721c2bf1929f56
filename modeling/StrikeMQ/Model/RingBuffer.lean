import StrikeMQ.Lib.Bytes

/-!
# The single-producer single-consumer ring

`utils/ring_buffer.h`. The counters are `uint64_t` and wrap. The producer keeps its own copy of
the consumer's counter and reads the real one only when the copy leaves no room; each operation
is one step of the thread that runs it.
-/

set_option autoImplicit false

namespace StrikeMQ.Model

open StrikeMQ.Lib

/-- SOURCE: utils/ring_buffer.h:15-87 -/
structure SpscRingBuffer (α : Type) (capacity : ℕ) where
  storage : ℕ → α
  head : ℕ := 0
  tailCached : ℕ := 0
  tail : ℕ := 0
  headCached : ℕ := 0

namespace SpscRingBuffer

variable {α : Type} {capacity : ℕ}

/-- SOURCE: utils/ring_buffer.h:81 -/
def kMask (capacity : ℕ) : ℕ :=
  capacity - 1

/-- SOURCE: utils/ring_buffer.h:21-23 -/
def new (init : α) : SpscRingBuffer α capacity :=
  { storage := fun _ => init }

/-- SOURCE: utils/ring_buffer.h:25-35 -/
def tryPush (r : SpscRingBuffer α capacity) (item : α) : SpscRingBuffer α capacity × Bool :=
  let next := toUInt64 (r.head + 1)
  let cached :=
    if toUInt64 ((next : ℤ) - r.tailCached) > capacity then r.tail else r.tailCached
  let r := { r with tailCached := cached }
  if toUInt64 ((next : ℤ) - cached) > capacity then (r, false)
  else
    ({ r with
      storage := Function.update r.storage (r.head &&& kMask capacity) item
      head := next }, true)

/-- SOURCE: utils/ring_buffer.h:60-69 -/
def tryPopBatch (r : SpscRingBuffer α capacity) (maxCount : ℕ) :
    List α × SpscRingBuffer α capacity :=
  let r := { r with headCached := r.head }
  let available := toUInt64 ((r.headCached : ℤ) - r.tail)
  let count := min available maxCount
  let output := (List.range count).map fun i =>
    r.storage (toUInt64 (r.tail + i) &&& kMask capacity)
  (output, if count > 0 then { r with tail := toUInt64 (r.tail + count) } else r)

/-- SOURCE: utils/ring_buffer.h:71-73 -/
def sizeApprox (r : SpscRingBuffer α capacity) : ℕ :=
  toUInt64 ((r.head : ℤ) - r.tail)

/-- SOURCE: utils/ring_buffer.h:74 -/
def emptyApprox (r : SpscRingBuffer α capacity) : Bool :=
  r.sizeApprox = 0

end SpscRingBuffer

end StrikeMQ.Model
