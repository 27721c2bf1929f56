import StrikeMQ.Lib.Bytes
import StrikeMQ.Lib.Ring

/-!
# The circular I/O buffer

`utils/circular_buffer.h`. The counters are `size_t` and wrap; the allocated memory is a store
of cells of which the buffer uses the first `capacity`. What a pointer and a length give
access to is a position in the store and a number of cells.
-/

set_option autoImplicit false

namespace StrikeMQ.Model

open StrikeMQ.Lib

/-- SOURCE: utils/circular_buffer.h:17-174 -/
structure FixedCircularBuffer where
  capacity : ℕ
  data : ℕ → UInt8 := fun _ => 0
  head : ℕ := 0
  tail : ℕ := 0

namespace FixedCircularBuffer

/-- SOURCE: utils/circular_buffer.h:160-166 -/
def nextPowerOf2 (v : ℕ) : ℕ :=
  if v = 0 then 1
  else
    let v := v - 1
    let v := v ||| v >>> 1
    let v := v ||| v >>> 2
    let v := v ||| v >>> 4
    let v := v ||| v >>> 8
    let v := v ||| v >>> 16
    let v := v ||| v >>> 32
    toUInt64 (v + 1)

/-- SOURCE: utils/circular_buffer.h:21-35 -/
def new (minCapacity : ℕ) : FixedCircularBuffer :=
  { capacity := nextPowerOf2 minCapacity }

def mask (b : FixedCircularBuffer) : ℕ :=
  b.capacity - 1

/-- SOURCE: utils/circular_buffer.h:150 -/
def size (b : FixedCircularBuffer) : ℕ :=
  toUInt64 ((b.head : ℤ) - b.tail)

/-- SOURCE: utils/circular_buffer.h:151 -/
def freeSpace (b : FixedCircularBuffer) : ℕ :=
  toUInt64 ((b.capacity : ℤ) - b.size)

/-- SOURCE: utils/circular_buffer.h:152 -/
def empty (b : FixedCircularBuffer) : Bool :=
  b.head = b.tail

/-- SOURCE: utils/circular_buffer.h:80-85 -/
def writeHead (b : FixedCircularBuffer) : ℕ × ℕ :=
  let pos := b.head &&& b.mask
  let contig := b.capacity - pos
  (pos, min contig b.freeSpace)

/-- SOURCE: utils/circular_buffer.h:88-90 -/
def advanceHead (b : FixedCircularBuffer) (n : ℕ) : FixedCircularBuffer :=
  { b with head := toUInt64 (b.head + n) }

/-- Takes as much of `src` as there is room for.
SOURCE: utils/circular_buffer.h:93-106 -/
def write (b : FixedCircularBuffer) (src : Bytes) : FixedCircularBuffer × ℕ :=
  let toWrite := min src.length b.freeSpace
  if toWrite = 0 then (b, 0)
  else
    let pos := b.head &&& b.mask
    let first := min toWrite (b.capacity - pos)
    let data := copyIn b.data pos (src.take first)
    let data :=
      if toWrite > first then copyIn data 0 ((src.drop first).take (toWrite - first)) else data
    ({ b with data := data, head := toUInt64 (b.head + toWrite) }, toWrite)

/-- SOURCE: utils/circular_buffer.h:112-117 -/
def readHead (b : FixedCircularBuffer) : ℕ × ℕ :=
  let pos := b.tail &&& b.mask
  let contig := b.capacity - pos
  (pos, min contig b.size)

/-- SOURCE: utils/circular_buffer.h:120-122 -/
def advanceTail (b : FixedCircularBuffer) (n : ℕ) : FixedCircularBuffer :=
  { b with tail := toUInt64 (b.tail + n) }

/-- SOURCE: utils/circular_buffer.h:127-139 -/
def peek (b : FixedCircularBuffer) (len : ℕ) : Bytes :=
  let toCopy := min len b.size
  if toCopy = 0 then []
  else
    let pos := b.tail &&& b.mask
    let first := min toCopy (b.capacity - pos)
    copyOut b.data pos first ++ if toCopy > first then copyOut b.data 0 (toCopy - first) else []

/-- SOURCE: utils/circular_buffer.h:142-146 -/
def read (b : FixedCircularBuffer) (len : ℕ) : Bytes × FixedCircularBuffer :=
  let bs := b.peek len
  (bs, b.advanceTail bs.length)

/-- SOURCE: utils/circular_buffer.h:157 -/
def reset (b : FixedCircularBuffer) : FixedCircularBuffer :=
  { b with head := 0, tail := 0 }

/-- What a socket puts at the place that `write_head` offers, and the `advance_head` after
it; `none` if it would not be at least one byte and at most what was offered. -/
def fill (b : FixedCircularBuffer) (bs : Bytes) : Option FixedCircularBuffer :=
  let (pos, avail) := b.writeHead
  if 0 < bs.length ∧ bs.length ≤ avail then
    some ({ b with data := copyIn b.data pos bs }.advanceHead bs.length)
  else none

/-- What a socket takes of the bytes that `read_head` offers, and the `advance_tail` after it;
`none` if it would not take at least one byte and at most what was offered. -/
def drain (b : FixedCircularBuffer) (n : ℕ) : Option (Bytes × FixedCircularBuffer) :=
  let (pos, avail) := b.readHead
  if 0 < n ∧ n ≤ avail then some (copyOut b.data pos n, b.advanceTail n) else none

end FixedCircularBuffer

end StrikeMQ.Model
