import StrikeMQ.Model.CircularBuffer

/-!
# A bounded byte queue

What the circular buffer is for: a queue of at most `cap` bytes. A client puts bytes behind
it, as many as there is room for, and looks at or takes bytes from its front. Two of the
operations go through a pointer into the buffer: the client is offered a piece of the free
space, or a piece of the front, and then says how much of it was used. How long that piece is
the queue leaves open; it is never empty where there is something to offer.
-/

set_option autoImplicit false

namespace StrikeMQ.Interface

open StrikeMQ.Lib StrikeMQ.Model

/-- What a client can do with a buffer. `fill` is `write_head`, a copy of the bytes to the
place it offered and `advance_head`; `drain` is `read_head` and `advance_tail`. -/
inductive BufferOp where
  | write (src : Bytes)
  | fill (bs : Bytes)
  | peek (len : ℕ)
  | read (len : ℕ)
  | drain (n : ℕ)
  | reset
  deriving DecidableEq, Repr

/-- What the client learns: the number of bytes taken, or bytes. -/
inductive BufferAnswer where
  | accepted (n : ℕ)
  | bytes (bs : Bytes)
  | done
  deriving DecidableEq, Repr

/-- One operation on a queue of at most `cap` bytes. -/
inductive QueueStep (cap : ℕ) : Bytes → BufferOp → BufferAnswer → Bytes → Prop
  | write (q src : Bytes) :
      QueueStep cap q (.write src) (.accepted (min src.length (cap - q.length)))
        (q ++ src.take (cap - q.length))
  | fill (q bs : Bytes) : q.length + bs.length ≤ cap →
      QueueStep cap q (.fill bs) .done (q ++ bs)
  | peek (q : Bytes) (len : ℕ) : QueueStep cap q (.peek len) (.bytes (q.take len)) q
  | read (q : Bytes) (len : ℕ) : QueueStep cap q (.read len) (.bytes (q.take len)) (q.drop len)
  | drain (q offered : Bytes) (n : ℕ) : offered <+: q → (q ≠ [] → offered ≠ []) →
      n ≤ offered.length → QueueStep cap q (.drain n) (.bytes offered) (q.drop n)
  | reset (q : Bytes) : QueueStep cap q .reset .done []

/-- A sequence of operations on a queue, with their answers. -/
inductive QueueRun (cap : ℕ) : Bytes → List BufferOp → List BufferAnswer → Bytes → Prop
  | nil (q : Bytes) : QueueRun cap q [] [] q
  | cons {q q₁ q₂ : Bytes} {op : BufferOp} {ops : List BufferOp} {answer : BufferAnswer}
      {answers : List BufferAnswer} : QueueStep cap q op answer q₁ →
      QueueRun cap q₁ ops answers q₂ → QueueRun cap q (op :: ops) (answer :: answers) q₂

/-- The operation on the circular buffer; none if the client uses more than it was offered. -/
def BufferOp.apply (b : FixedCircularBuffer) :
    BufferOp → Option (BufferAnswer × FixedCircularBuffer)
  | .write src =>
    let (b', n) := b.write src
    some (.accepted n, b')
  | .fill bs =>
    let (pos, avail) := b.writeHead
    if bs.length ≤ avail then
      some (.done, { b with data := copyIn b.data pos bs }.advanceHead bs.length)
    else none
  | .peek len => some (.bytes (b.peek len), b)
  | .read len =>
    let (bs, b') := b.read len
    some (.bytes bs, b')
  | .drain n =>
    let (pos, avail) := b.readHead
    if n ≤ avail then some (.bytes (copyOut b.data pos avail), b.advanceTail n) else none
  | .reset => some (.done, b.reset)

/-- A sequence of operations on the circular buffer, with their answers. -/
def runOps (b : FixedCircularBuffer) :
    List BufferOp → Option (List BufferAnswer × FixedCircularBuffer)
  | [] => some ([], b)
  | op :: ops => do
    let (answer, b₁) ← op.apply b
    let (answers, b₂) ← runOps b₁ ops
    return (answer :: answers, b₂)

end StrikeMQ.Interface
