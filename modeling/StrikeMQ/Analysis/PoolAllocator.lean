import StrikeMQ.Interface.PoolRuns
import StrikeMQ.Lib.Runs

/-!
# The pool hands out every block once

The free list lies in the free blocks, so its links are safe as long as nobody writes into a block
that is not allocated: a block of the pool has room for a link, and two blocks do not overlap. Each
step of a client then takes the first free block, gives an allocated one back or leaves the free
list alone, and the invariant of a free list follows for every run from the constructor on.
-/

set_option autoImplicit false

namespace StrikeMQ.Analysis.PoolAllocator

open StrikeMQ.Lib StrikeMQ.Model StrikeMQ.Interface

/-! ## Links -/

theorem readPtr_writePtr_self (m : Store) (a : ℕ) {p : ℕ} (hp : p < 2 ^ 64) :
    readPtr (writePtr m a p) a = p := by
  have hout := copyOut_copyIn_self m a (leBytes 8 p)
  rw [length_leBytes] at hout
  rw [readPtr, writePtr, hout, leNat_leBytes (by omega)]

theorem readPtr_copyIn {m : Store} {a b : ℕ} {bs : Bytes}
    (h : b + 8 ≤ a ∨ a + bs.length ≤ b) : readPtr (copyIn m a bs) b = readPtr m b := by
  rw [readPtr, copyOut_copyIn_of_disjoint h, readPtr]

theorem readPtr_writePtr_of_disjoint {m : Store} {a b p : ℕ} (h : b + 8 ≤ a ∨ a + 8 ≤ b) :
    readPtr (writePtr m a p) b = readPtr m b :=
  readPtr_copyIn (by rwa [length_leBytes])

/-! ## Sizes -/

section Sizes

variable {n k : ℕ}

/-- INTERNAL: a size is rounded up as long as the sum does not wrap. -/
theorem alignUp_of_lt (hk : k ≤ 64) (hn : n + 2 ^ k ≤ 2 ^ 64) :
    HugePagePool.alignUp n (2 ^ k) = roundUp n (2 ^ k) := by
  have hpos : 0 < 2 ^ k := Nat.two_pow_pos k
  have hsum : toUInt64 ((n : ℤ) + (2 ^ k : ℕ) - 1) = n + 2 ^ k - 1 := by
    unfold toUInt64
    omega
  have hmask : 2 ^ 64 - 1 - (2 ^ k - 1) = 2 ^ 64 - 2 ^ k := by omega
  rw [HugePagePool.alignUp, hsum, hmask, and_high_bits (by omega) hk, roundUp]

/-- INTERNAL: a size that is rounded up past the last address becomes none. -/
theorem alignUp_of_overflow (hk : k ≤ 64) (hlt : n < 2 ^ 64) (hn : 2 ^ 64 < n + 2 ^ k) :
    HugePagePool.alignUp n (2 ^ k) = 0 := by
  have hle : 2 ^ k ≤ 2 ^ 64 := Nat.pow_le_pow_right (by norm_num) hk
  have hsum : toUInt64 ((n : ℤ) + (2 ^ k : ℕ) - 1) = n + 2 ^ k - 1 - 2 ^ 64 := by
    unfold toUInt64
    omega
  have hmask : 2 ^ 64 - 1 - (2 ^ k - 1) = 2 ^ 64 - 2 ^ k := by omega
  rw [HugePagePool.alignUp, hsum, hmask, and_high_bits (by omega) hk,
    Nat.div_eq_of_lt (by omega), Nat.zero_mul]

theorem le_roundUp (n : ℕ) {a : ℕ} (ha : 0 < a) : n ≤ roundUp n a := by
  have hdiv := Nat.div_add_mod (n + a - 1) a
  have hmod := Nat.mod_lt (n + a - 1) ha
  rw [roundUp, Nat.mul_comm]
  omega

/-- INTERNAL: a size that is not rounded up to none is not made smaller. -/
theorem le_alignUp (hk : k ≤ 64) (hlt : n < 2 ^ 64) (hpos : 0 < HugePagePool.alignUp n (2 ^ k)) :
    n ≤ HugePagePool.alignUp n (2 ^ k) := by
  by_cases hover : 2 ^ 64 < n + 2 ^ k
  · rw [alignUp_of_overflow hk hlt hover] at hpos
    exact absurd hpos (Nat.lt_irrefl 0)
  · rw [alignUp_of_lt hk (by omega)]
    exact le_roundUp n (Nat.two_pow_pos k)

end Sizes

/-! ## The constructor -/

/-- What is known of the blocks of a pool of `n` blocks: a link fits in each of them, and they lie
inside the address space and not at the null pointer. -/
structure Layout (n : ℕ) (pool : HugePagePool) : Prop where
  link : 8 ≤ pool.blockSize
  base_pos : 0 < pool.base
  num : pool.numBlocks = n
  total : pool.totalSize = n * pool.blockSize
  inside : pool.base + n * pool.blockSize < 2 ^ 64

/-- The blocks of a pool. -/
abbrev blocksOf (n : ℕ) (pool : HugePagePool) : List ℕ :=
  blocks pool.base pool.blockSize n

namespace Layout

variable {n p q : ℕ} {pool : HugePagePool}

theorem nodup (h : Layout n pool) : (blocksOf n pool).Nodup :=
  nodup_blocks (Nat.lt_of_lt_of_le (by norm_num) h.link)

theorem pos_of_mem (h : Layout n pool) (hp : p ∈ blocksOf n pool) : 0 < p :=
  Nat.lt_of_lt_of_le h.base_pos (base_le_of_mem_blocks hp)

theorem lt_of_mem (h : Layout n pool) (hp : p ∈ blocksOf n pool) : p < 2 ^ 64 := by
  have hend := end_le_of_mem_blocks hp
  have hinside := h.inside
  omega

theorem num_lt (h : Layout n pool) : n < 2 ^ 64 := by
  have hlink := h.link
  have hinside := h.inside
  have hle : n * 1 ≤ n * pool.blockSize := Nat.mul_le_mul_left n (by omega)
  omega

end Layout

/-- INTERNAL: what the constructor leaves behind, one round of its loop after the other. -/
theorem chain_pushBlock {base size : ℕ} (hsize : 8 ≤ size) (hbase : 0 < base) (m : Store) (n : ℕ)
    (hend : base + n * size < 2 ^ 64) :
    Chain 0 (readPtr ((List.range n).foldl (HugePagePool.pushBlock base size) (m, 0)).1)
      ((List.range n).foldl (HugePagePool.pushBlock base size) (m, 0)).2
      (blocks base size n).reverse := by
  induction n with
  | zero => exact rfl
  | succ n ih =>
    rw [Nat.add_mul, Nat.one_mul] at hend
    have hbefore := ih (by omega)
    rw [List.range_succ, List.foldl_append, blocks_succ, List.reverse_append,
      List.reverse_singleton]
    generalize (List.range n).foldl (HugePagePool.pushBlock base size) (m, 0) = s at hbefore ⊢
    have hhead : s.2 < 2 ^ 64 := by
      rcases hbefore.eq_null_or_mem with hnull | hmem
      · omega
      · have hblock := end_le_of_mem_blocks (List.mem_reverse.mp hmem)
        omega
    have hnull : base + n * size ≠ 0 := by omega
    refine hbefore.push hnull (readPtr_writePtr_self s.1 _ hhead) fun b hb => ?_
    have hblock := end_le_of_mem_blocks (List.mem_reverse.mp hb)
    exact readPtr_writePtr_of_disjoint (.inl (by omega))

/-- INTERNAL: **what a constructor that does not throw has computed**. -/
theorem new_inv {mmap : Bool → ℕ → Option ℕ} {m m' : Store} {blockSize n : ℕ}
    {pool : HugePagePool} (h : HugePagePool.new mmap m blockSize n = some (m', pool)) :
    (∃ huge, mmap huge pool.mmapSize = some pool.base) ∧
    pool.blockSize = HugePagePool.alignUp (max blockSize 8) 64 ∧ pool.numBlocks = n ∧
    pool.totalSize = toUInt64 (pool.blockSize * n : ℕ) ∧
    pool.mmapSize = HugePagePool.alignUp pool.totalSize 4096 ∧ pool.allocatedCount = 0 ∧
    ∃ m₀, (m', pool.freelist) =
      (List.range n).foldl (HugePagePool.pushBlock pool.base pool.blockSize) (m₀, 0) := by
  unfold HugePagePool.new at h
  dsimp only at h
  split at h
  · cases h
  · next base huge hmapped =>
    obtain ⟨rfl, rfl⟩ := Prod.mk.inj (Option.some.inj h)
    refine ⟨⟨huge, ?_⟩, rfl, rfl, rfl, rfl, rfl, _, rfl⟩
    split at hmapped
    · next hmap =>
      obtain ⟨rfl, rfl⟩ := Prod.mk.inj (Option.some.inj hmapped)
      exact hmap
    · obtain ⟨base', hmap, heq⟩ := Option.map_eq_some_iff.mp hmapped
      obtain ⟨rfl, rfl⟩ := Prod.mk.inj heq
      exact hmap

/-- INTERNAL: sizes that do not overflow are computed exactly, or there is nothing to map. -/
theorem layout_of_new {mmap : Bool → ℕ → Option ℕ} (hmmap : MapsMemory mmap) {m m' : Store}
    {blockSize n : ℕ} (hsize : roundUp (max blockSize 8) 64 * n < 2 ^ 64) {pool : HugePagePool}
    (h : HugePagePool.new mmap m blockSize n = some (m', pool)) : Layout n pool := by
  obtain ⟨⟨huge, hmap⟩, hblock, hnum, htotal, haligned, -, -⟩ := new_inv h
  obtain ⟨hnonempty, hbase, hend⟩ := hmmap huge pool.mmapSize pool.base hmap
  -- a pool without blocks has no size, and nothing of no size is mapped
  have hn : 0 < n := by
    by_contra hzero
    obtain rfl : n = 0 := by omega
    rw [Nat.mul_zero] at htotal
    rw [haligned, htotal] at hnonempty
    exact absurd hnonempty (by decide)
  have hrounded : roundUp (max blockSize 8) 64 < 2 ^ 64 :=
    lt_of_le_of_lt (Nat.le_mul_of_pos_right _ hn) hsize
  have hroom : max blockSize 8 + 2 ^ 6 ≤ 2 ^ 64 := by
    unfold roundUp at hrounded
    omega
  have hexact : pool.blockSize = roundUp (max blockSize 8) 64 := by
    have hline : (64 : ℕ) = 2 ^ 6 := by norm_num
    rw [hblock, hline]
    exact alignUp_of_lt (by norm_num) hroom
  have hproduct : pool.totalSize = n * pool.blockSize := by
    rw [htotal, hexact, Nat.mul_comm n]
    unfold toUInt64
    omega
  have hlink : 8 ≤ pool.blockSize := by
    rw [hexact]
    exact le_trans (le_max_right blockSize 8) (le_roundUp _ (by norm_num))
  have htotalLt : pool.totalSize < 2 ^ 64 := by
    rw [hproduct, Nat.mul_comm, hexact]
    exact hsize
  have hcover : pool.totalSize ≤ pool.mmapSize := by
    have hpage : (4096 : ℕ) = 2 ^ 12 := by norm_num
    rw [hpage] at haligned
    rw [haligned] at hnonempty ⊢
    exact le_alignUp (by norm_num) htotalLt hnonempty
  exact ⟨hlink, hbase, hnum, hproduct, by rw [← hproduct]; omega⟩

/-! ## The invariant -/

structure PoolInv (n : ℕ) (st : PoolState) : Prop where
  layout : Layout n st.pool
  list : ∃ free, FreeList 0 (readPtr st.mem) st.pool.freelist (blocksOf n st.pool) free st.live
  count : st.pool.allocatedCount = st.live.length

/-- INTERNAL: a new pool satisfies the invariant. -/
theorem poolInv_start {mmap : Bool → ℕ → Option ℕ} (hmmap : MapsMemory mmap) {m : Store}
    {blockSize n : ℕ} (hsize : roundUp (max blockSize 8) 64 * n < 2 ^ 64) {st : PoolState}
    (h : PoolState.start mmap m blockSize n = some st) : PoolInv n st := by
  obtain ⟨⟨m', pool⟩, hnew, rfl⟩ := Option.map_eq_some_iff.mp h
  have hlayout := layout_of_new hmmap hsize hnew
  obtain ⟨-, -, -, -, -, hcount, m₀, hloop⟩ := new_inv hnew
  have hchain := chain_pushBlock hlayout.link hlayout.base_pos m₀ n hlayout.inside
  rw [← hloop] at hchain
  refine ⟨hlayout, ⟨_, hchain, ?_⟩, hcount⟩
  rw [List.append_nil]
  exact List.reverse_perm _

section Steps

variable {n : ℕ} {st : PoolState}

/-- The first free block is taken. -/
def taken (st : PoolState) : PoolState where
  mem := st.mem
  pool :=
    { st.pool with
      freelist := readPtr st.mem st.pool.freelist
      allocatedCount := toUInt64 (st.pool.allocatedCount + 1) }
  live := st.pool.freelist :: st.live

/-- A block is given back. -/
def given (st : PoolState) (ptr : ℕ) : PoolState where
  mem := writePtr st.mem ptr st.pool.freelist
  pool :=
    { st.pool with
      freelist := ptr
      allocatedCount := toUInt64 (st.pool.allocatedCount - 1) }
  live := st.live.erase ptr

/-- What a step of a client can do. -/
inductive Effect (st : PoolState) : PoolState → Prop
  | exhausted (h : st.pool.freelist = 0) : Effect st st
  | take (h : st.pool.freelist ≠ 0) : Effect st (taken st)
  | give {ptr : ℕ} (h : ptr ∈ st.live) : Effect st (given st ptr)
  | write {p a : ℕ} {bs : Bytes} (hp : p ∈ st.live) (hlo : p ≤ a)
      (hhi : a + bs.length ≤ p + st.pool.blockSize) :
      Effect st { st with mem := copyIn st.mem a bs }

/-- INTERNAL: a client's step has one of the effects. -/
theorem effect_of_step (h : PoolInv n st) {op : PoolOp} {st' : PoolState}
    (hstep : st.step op = some st') : Effect st st' := by
  cases op with
  | allocate =>
    rw [PoolState.step, HugePagePool.allocate] at hstep
    by_cases hnull : st.pool.freelist = 0
    · rw [if_pos hnull] at hstep
      obtain rfl := Option.some.inj hstep
      exact .exhausted hnull
    · rw [if_neg hnull] at hstep
      dsimp only at hstep
      rw [if_neg hnull] at hstep
      obtain rfl := Option.some.inj hstep
      exact .take hnull
  | deallocate ptr =>
    rw [PoolState.step] at hstep
    by_cases hlive : ptr ∈ st.live
    · obtain ⟨free, hlist⟩ := h.list
      -- no block is at the null pointer
      have hnull : ptr ≠ 0 := Nat.ne_of_gt (h.layout.pos_of_mem (hlist.mem_of_live hlive))
      rw [if_pos hlive, HugePagePool.deallocate, if_neg hnull] at hstep
      obtain rfl := Option.some.inj hstep
      exact .give hlive
    · rw [if_neg hlive] at hstep
      cases hstep
  | write a bs =>
    rw [PoolState.step] at hstep
    by_cases hinside : ∃ p ∈ st.live, p ≤ a ∧ a + bs.length ≤ p + st.pool.blockSize
    · rw [if_pos hinside] at hstep
      obtain ⟨p, hp, hlo, hhi⟩ := hinside
      obtain rfl := Option.some.inj hstep
      exact .write hp hlo hhi
    · rw [if_neg hinside] at hstep
      cases hstep

/-- INTERNAL: the links of the free blocks are out of reach of a write into an allocated one. -/
theorem link_of_write (h : PoolInv n st) {free : List ℕ}
    (hlist : FreeList 0 (readPtr st.mem) st.pool.freelist (blocksOf n st.pool) free st.live)
    {p a : ℕ} {bs : Bytes} (hp : p ∈ st.live) (hlo : p ≤ a)
    (hhi : a + bs.length ≤ p + st.pool.blockSize) :
    ∀ b ∈ free, readPtr (copyIn st.mem a bs) b = readPtr st.mem b := by
  intro b hb
  have hne : b ≠ p := by
    rintro rfl
    exact ((hlist.mem_free_iff h.layout.nodup b).mp hb).2 hp
  have hlink := h.layout.link
  have hdisjoint := disjoint_of_mem_blocks (hlist.mem_of_free hb) (hlist.mem_of_live hp) hne
  exact readPtr_copyIn (by omega)

/-- INTERNAL: taking a block keeps the invariant. -/
theorem PoolInv.take (h : PoolInv n st) (hnull : st.pool.freelist ≠ 0) : PoolInv n (taken st) := by
  obtain ⟨free, hlist⟩ := h.list
  obtain ⟨rest, hrest⟩ := hlist.take hnull
  refine ⟨⟨h.layout.link, h.layout.base_pos, h.layout.num, h.layout.total, h.layout.inside⟩,
    ⟨rest, hrest⟩, ?_⟩
  have hlen := hrest.length_add
  have hnum := h.layout.num_lt
  have hcount := h.count
  rw [List.length_cons, length_blocks] at hlen
  show toUInt64 ((st.pool.allocatedCount : ℤ) + 1) = (st.pool.freelist :: st.live).length
  rw [List.length_cons]
  unfold toUInt64
  omega

/-- INTERNAL: giving one back keeps it. -/
theorem PoolInv.give (h : PoolInv n st) {ptr : ℕ} (hlive : ptr ∈ st.live) :
    PoolInv n (given st ptr) := by
  obtain ⟨free, hlist⟩ := h.list
  have hnull : ptr ≠ 0 := Nat.ne_of_gt (h.layout.pos_of_mem (hlist.mem_of_live hlive))
  have hhead : st.pool.freelist < 2 ^ 64 := by
    rcases hlist.chain.eq_null_or_mem with hzero | hmem
    · omega
    · exact h.layout.lt_of_mem (hlist.mem_of_free hmem)
  have hroom : ptr + (leBytes 8 st.pool.freelist).length ≤ ptr + st.pool.blockSize := by
    rw [length_leBytes]
    exact Nat.add_le_add_left h.layout.link ptr
  have hlinks := link_of_write h hlist hlive le_rfl hroom
  have hgive := hlist.give hlive hnull (readPtr_writePtr_self st.mem ptr hhead) hlinks
  refine ⟨⟨h.layout.link, h.layout.base_pos, h.layout.num, h.layout.total, h.layout.inside⟩,
    ⟨_, hgive⟩, ?_⟩
  have hlen := hlist.length_add
  have hnum := h.layout.num_lt
  have hcount := h.count
  have hpos := List.length_pos_of_mem hlive
  rw [length_blocks] at hlen
  show toUInt64 ((st.pool.allocatedCount : ℤ) - 1) = (st.live.erase ptr).length
  rw [List.length_erase_of_mem hlive]
  unfold toUInt64
  omega

theorem PoolInv.write (h : PoolInv n st) {p a : ℕ} {bs : Bytes} (hp : p ∈ st.live) (hlo : p ≤ a)
    (hhi : a + bs.length ≤ p + st.pool.blockSize) :
    PoolInv n { st with mem := copyIn st.mem a bs } := by
  obtain ⟨free, hlist⟩ := h.list
  exact ⟨h.layout, ⟨free, hlist.congr (link_of_write h hlist hp hlo hhi)⟩, h.count⟩

/-- INTERNAL: **every step of a client keeps the invariant.** -/
theorem PoolInv.step (h : PoolInv n st) {op : PoolOp} {st' : PoolState}
    (hstep : st.step op = some st') : PoolInv n st' := by
  cases effect_of_step h hstep with
  | exhausted _ => exact h
  | take hnull => exact h.take hnull
  | give hlive => exact h.give hlive
  | write hp hlo hhi => exact h.write hp hlo hhi

/-- INTERNAL: what the invariant says of the allocated blocks and of the free list. -/
theorem PoolInv.correct (h : PoolInv n st) : PoolCorrect n st := by
  obtain ⟨free, hlist⟩ := h.list
  have hnodup := hlist.nodup h.layout.nodup
  refine ⟨(List.nodup_append.mp hnodup).2.1, ?_, ?_, ?_, h.count, ?_, ?_, ?_⟩
  · intro p hp
    exact mem_blocks.mp (hlist.mem_of_live hp)
  · intro p hp q hq hne
    exact disjoint_of_mem_blocks (hlist.mem_of_live hp) (hlist.mem_of_live hq) hne
  · intro p hp a hlo hhi
    have hbase := base_le_of_mem_blocks (hlist.mem_of_live hp)
    have hend := end_le_of_mem_blocks (hlist.mem_of_live hp)
    rw [HugePagePool.owns, h.layout.total, Bool.and_eq_true, decide_eq_true_eq,
      decide_eq_true_eq]
    omega
  · have hlen := hlist.length_add
    have hnum := h.layout.num_lt
    rw [length_blocks] at hlen
    rw [HugePagePool.available, h.layout.num, h.count]
    unfold toUInt64
    omega
  · have hhead := hlist.head_eq_null_iff
    rw [length_blocks] at hhead
    rw [← hhead, HugePagePool.allocate]
    split
    · next hnull => exact iff_of_true rfl hnull
    · exact Iff.rfl
  · refine ⟨free, hlist.chain, (List.nodup_append.mp hnodup).1, fun a => ?_⟩
    rw [← mem_blocks]
    exact hlist.mem_free_iff h.layout.nodup a

/-- INTERNAL: no step moves the blocks. -/
theorem Effect.blocks {st' : PoolState} (h : Effect st st') :
    st'.pool.base = st.pool.base ∧ st'.pool.blockSize = st.pool.blockSize := by
  cases h with
  | exhausted _ => exact ⟨rfl, rfl⟩
  | take _ => exact ⟨rfl, rfl⟩
  | give _ => exact ⟨rfl, rfl⟩
  | write _ _ _ => exact ⟨rfl, rfl⟩

end Steps

/-- PROPERTY: **a pool hands out every block at most once and all of them**: for every size and
number of blocks whose product fits a `size_t`, after every run of allocations, of deallocations of
allocated blocks and of writes into allocated blocks, the allocated blocks are distinct blocks of
the pool, their number is `allocated()`, `allocate` fails exactly if there are `numBlocks` of them,
and the free list ends and passes exactly the other blocks.
SOURCE: utils/memory_pool.h:15-107 -/
theorem pool_correct_of_run (mmap : Bool → ℕ → Option ℕ) (hmmap : MapsMemory mmap) (m : Store)
    (blockSize numBlocks : ℕ) (hsize : roundUp (max blockSize 8) 64 * numBlocks < 2 ^ 64)
    (st₀ : PoolState) (hstart : PoolState.start mmap m blockSize numBlocks = some st₀)
    (ops : List PoolOp) (st : PoolState) (hrun : ops.foldlM PoolState.step st₀ = some st) :
    st.pool.base = st₀.pool.base ∧ st.pool.blockSize = st₀.pool.blockSize ∧
      PoolCorrect numBlocks st := by
  have hkept : PoolInv numBlocks st ∧ st.pool.base = st₀.pool.base ∧
      st.pool.blockSize = st₀.pool.blockSize := by
    refine foldlM_invariant (P := fun s => PoolInv numBlocks s ∧ s.pool.base = st₀.pool.base ∧
      s.pool.blockSize = st₀.pool.blockSize) ?_ ⟨poolInv_start hmmap hsize hstart, rfl, rfl⟩ hrun
    rintro s op s' ⟨hinv, hbase, hblock⟩ hstep
    obtain ⟨hbase', hblock'⟩ := (effect_of_step hinv hstep).blocks
    exact ⟨hinv.step hstep, hbase'.trans hbase, hblock'.trans hblock⟩
  exact ⟨hkept.2.1, hkept.2.2, hkept.1.correct⟩

/-- Ordinary pages from address 4096 on, as long as they last. -/
def mapPages (huge : Bool) (size : ℕ) : Option ℕ :=
  if huge = false ∧ 0 < size ∧ 4096 + size < 2 ^ 64 then some 4096 else none

theorem mapsMemory_mapPages : MapsMemory mapPages := by
  intro huge size base h
  unfold mapPages at h
  split at h
  · next hfits =>
    obtain rfl := Option.some.inj h
    exact ⟨hfits.2.1, by norm_num, hfits.2.2⟩
  · cases h

/-- Both of two blocks are allocated, one of them is overwritten from its first byte on, and the
other is given back and allocated again. -/
def twoBlocks : List PoolOp :=
  [.allocate, .allocate, .write 4096 [1, 2, 3, 4, 5, 6, 7, 8, 9], .deallocate 4224, .allocate]

theorem pool_correct_of_run_two :
    ∃ st₀ st, PoolState.start mapPages (fun _ => 7) 100 2 = some st₀ ∧
      twoBlocks.foldlM PoolState.step st₀ = some st ∧ st.live = [4224, 4096] ∧
      PoolCorrect 2 st := by
  have hlive : ((PoolState.start mapPages (fun _ => 7) 100 2).bind
      (twoBlocks.foldlM PoolState.step ·)).map PoolState.live = some [4224, 4096] := by
    decide +kernel
  obtain ⟨st, hruns, hst⟩ := Option.map_eq_some_iff.mp hlive
  obtain ⟨st₀, hstart, hrun⟩ := Option.bind_eq_some_iff.mp hruns
  refine ⟨st₀, st, hstart, hrun, hst, ?_⟩
  exact (pool_correct_of_run mapPages mapsMemory_mapPages (fun _ => 7) 100 2 (by decide) st₀ hstart
    twoBlocks st hrun).2.2

end StrikeMQ.Analysis.PoolAllocator
