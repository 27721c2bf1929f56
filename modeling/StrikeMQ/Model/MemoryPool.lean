import StrikeMQ.Lib.LittleEndian
import StrikeMQ.Lib.Ring

/-!
# The pool of blocks

`HugePagePool` of `utils/memory_pool.h`. The memory is a store of bytes; a pointer is an address,
and the null pointer is address 0. A free block holds the address of the next free one in its first
eight bytes, lowest byte first. What `mmap` returns is an argument of the constructor, once for a
mapping of huge pages and once for one of ordinary pages; where both attempts fail the constructor
throws.
-/

set_option autoImplicit false

namespace StrikeMQ.Model

open StrikeMQ.Lib

abbrev Store := ℕ → UInt8

/-- `ptr->next`.
SOURCE: utils/memory_pool.h:13 -/
def readPtr (m : Store) (a : ℕ) : ℕ :=
  leNat (copyOut m a 8)

/-- `ptr->next = p`.
SOURCE: utils/memory_pool.h:13 -/
def writePtr (m : Store) (a p : ℕ) : Store :=
  copyIn m a (leBytes 8 p)

/-- SOURCE: utils/memory_pool.h:15-107 -/
structure HugePagePool where
  base : ℕ
  mmapSize : ℕ
  blockSize : ℕ
  numBlocks : ℕ
  totalSize : ℕ
  allocatedCount : ℕ := 0
  usingHugePages : Bool
  freelist : ℕ := 0
  deriving DecidableEq, Repr

namespace HugePagePool

/-- `(n + a - 1) & ~(a - 1)` on `size_t`.
SOURCE: utils/memory_pool.h:98 -/
def alignUp (n a : ℕ) : ℕ :=
  toUInt64 ((n : ℤ) + a - 1) &&& (2 ^ 64 - 1 - (a - 1))

/-- A byte of every page is written.
SOURCE: utils/memory_pool.h:49-50 -/
def touchPages (m : Store) (base size : ℕ) : Store :=
  (List.range ((size + 4095) / 4096)).foldl (fun m i => Function.update m (base + i * 4096) 0) m

/-- One round of the loop that builds the free list.
SOURCE: utils/memory_pool.h:53-57 -/
def pushBlock (base blockSize : ℕ) (s : Store × ℕ) (i : ℕ) : Store × ℕ :=
  let hdr := base + i * blockSize
  (writePtr s.1 hdr s.2, hdr)

/-- SOURCE: utils/memory_pool.h:17-58 -/
def new (mmap : (huge : Bool) → ℕ → Option ℕ) (m : Store) (blockSize numBlocks : ℕ) :
    Option (Store × HugePagePool) :=
  let blockSize := alignUp (max blockSize 8) 64
  let totalSize := toUInt64 (blockSize * numBlocks : ℕ)
  let alignedSize := alignUp totalSize 4096
  let mapped :=
    match mmap true alignedSize with
    | some base => some (base, true)
    | none => (mmap false alignedSize).map (·, false)
  match mapped with
  | none => none
  | some (base, usingHugePages) =>
    let m := touchPages m base alignedSize
    let (m, freelist) := (List.range numBlocks).foldl (pushBlock base blockSize) (m, 0)
    some (m, { base := base, mmapSize := alignedSize, blockSize := blockSize
               numBlocks := numBlocks, totalSize := totalSize
               usingHugePages := usingHugePages, freelist := freelist })

/-- SOURCE: utils/memory_pool.h:67-73 -/
def allocate (pool : HugePagePool) (m : Store) : ℕ × HugePagePool :=
  if pool.freelist = 0 then (0, pool)
  else
    (pool.freelist,
      { pool with
        freelist := readPtr m pool.freelist
        allocatedCount := toUInt64 (pool.allocatedCount + 1) })

/-- SOURCE: utils/memory_pool.h:75-81 -/
def deallocate (pool : HugePagePool) (m : Store) (ptr : ℕ) : Store × HugePagePool :=
  if ptr = 0 then (m, pool)
  else
    (writePtr m ptr pool.freelist,
      { pool with
        freelist := ptr
        allocatedCount := toUInt64 (pool.allocatedCount - 1) })

/-- SOURCE: utils/memory_pool.h:89 -/
def allocated (pool : HugePagePool) : ℕ :=
  pool.allocatedCount

/-- SOURCE: utils/memory_pool.h:90 -/
def available (pool : HugePagePool) : ℕ :=
  toUInt64 ((pool.numBlocks : ℤ) - pool.allocatedCount)

/-- SOURCE: utils/memory_pool.h:92-95 -/
def owns (pool : HugePagePool) (ptr : ℕ) : Bool :=
  decide (pool.base ≤ ptr) && decide (ptr < pool.base + pool.totalSize)

end HugePagePool

end StrikeMQ.Model
