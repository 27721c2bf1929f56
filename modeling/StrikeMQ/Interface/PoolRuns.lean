import StrikeMQ.Lib.FreeList
import StrikeMQ.Model.MemoryPool

/-!
# Clients of a pool

A pool is constructed and then used: clients allocate blocks, give back blocks that they have, and
write what they want into blocks that they have. `live` is the list of the blocks that are
allocated; the source does not keep it. A step that gives back what is not allocated, or writes
outside an allocated block, is none that a client may take.
-/

set_option autoImplicit false

namespace StrikeMQ.Interface

open StrikeMQ.Lib StrikeMQ.Model

/-- A mapping is not empty, does not start at the null pointer and ends inside the address
space. -/
def MapsMemory (mmap : Bool → ℕ → Option ℕ) : Prop :=
  ∀ huge size base, mmap huge size = some base → 0 < size ∧ 0 < base ∧ base + size < 2 ^ 64

/-- The least multiple of `a` that is not below `n`. -/
def roundUp (n a : ℕ) : ℕ :=
  (n + a - 1) / a * a

inductive PoolOp where
  | allocate
  | deallocate (ptr : ℕ)
  | write (a : ℕ) (bs : Bytes)
  deriving DecidableEq, Repr

structure PoolState where
  mem : Store
  pool : HugePagePool
  live : List ℕ

namespace PoolState

def step (st : PoolState) : PoolOp → Option PoolState
  | .allocate =>
    let (ptr, pool) := st.pool.allocate st.mem
    some { st with pool := pool, live := if ptr = 0 then st.live else ptr :: st.live }
  | .deallocate ptr =>
    if ptr ∈ st.live then
      let (mem, pool) := st.pool.deallocate st.mem ptr
      some { mem := mem, pool := pool, live := st.live.erase ptr }
    else none
  | .write a bs =>
    if ∃ p ∈ st.live, p ≤ a ∧ a + bs.length ≤ p + st.pool.blockSize then
      some { st with mem := copyIn st.mem a bs }
    else none

/-- A pool that was just constructed. -/
def start (mmap : Bool → ℕ → Option ℕ) (m : Store) (blockSize numBlocks : ℕ) :
    Option PoolState :=
  (HugePagePool.new mmap m blockSize numBlocks).map fun s => ⟨s.1, s.2, []⟩

end PoolState

/-- What a pool of `n` blocks is for: the allocated blocks are distinct ones of its blocks, so they
do not overlap and lie inside it; their number is known, and there is no other block exactly if
`allocate` says so; and the free list passes exactly the other blocks, each once. -/
structure PoolCorrect (n : ℕ) (st : PoolState) : Prop where
  distinct : st.live.Nodup
  block : ∀ p ∈ st.live, ∃ i, i < n ∧ p = st.pool.base + i * st.pool.blockSize
  disjoint : ∀ p ∈ st.live, ∀ q ∈ st.live, p ≠ q →
    p + st.pool.blockSize ≤ q ∨ q + st.pool.blockSize ≤ p
  owned : ∀ p ∈ st.live, ∀ a, p ≤ a → a < p + st.pool.blockSize → st.pool.owns a = true
  allocated : st.pool.allocated = st.live.length
  available : st.pool.available = n - st.live.length
  exhausted : (st.pool.allocate st.mem).1 = 0 ↔ st.live.length = n
  freelist : ∃ free, Chain 0 (readPtr st.mem) st.pool.freelist free ∧ free.Nodup ∧
    ∀ a, a ∈ free ↔ (∃ i, i < n ∧ a = st.pool.base + i * st.pool.blockSize) ∧ a ∉ st.live

end StrikeMQ.Interface
