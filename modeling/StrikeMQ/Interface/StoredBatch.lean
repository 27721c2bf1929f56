import StrikeMQ.Model.PartitionLog

/-!
# What a segment is made of

The log is for keeping batches: a segment is a list of stored batches, each with the
offset it starts at, the number of offsets it takes and its bytes. A `StoredBatch` carries
the facts about its bytes that the reader relies on, so a list of them is a well-formed
segment by construction. The functions here say what the log does in these terms, without
positions, headers or an index.
-/

set_option autoImplicit false

namespace StrikeMQ.Interface

open StrikeMQ.Lib

/-- A batch as it lies in a segment: `base` and `count` are the offsets `append` gave it,
`bytes` a header with the right length, offset and counts, and the kept records. -/
structure StoredBatch where
  base : ℤ
  count : ℕ
  bytes : Bytes
  header_le : 61 ≤ bytes.length
  length_lt : bytes.length < 65536
  base_eq : intOfBe (slice bytes 0 8) = toInt64 base
  batchLength_eq : intOfBe (slice bytes 8 4) = (bytes.length - 12 : ℕ)
  lastOffsetDelta_eq : intOfBe (slice bytes 23 4) = toInt32 (toInt32 count - 1)
  recordCount_eq : intOfBe (slice bytes 57 4) = toInt32 count

/-- What a fetch of `maxBytes` is meant to return: whole batches, up to and with the first
one that brings their size to `maxBytes`, `collected` bytes being there already. -/
def shortestRun (maxBytes : ℤ) (collected : ℕ) : List Bytes → List Bytes
  | [] => []
  | b :: bs =>
    if maxBytes ≤ (collected + b.length : ℕ) then [b]
    else b :: shortestRun maxBytes (collected + b.length) bs

/-- The sizes a fetch over the stored batches `rest` goes through fit the 32-bit integers
the log keeps them in: signed ones where it compares with `maxBytes` and there is more to
take, unsigned ones for the result. -/
def FetchFits (maxBytes : ℤ) (rest : List Bytes) : Prop :=
  (shortestRun maxBytes 0 rest).flatten.length < 2 ^ 31 ∨
    (shortestRun maxBytes 0 rest = rest ∧ rest.flatten.length < 2 ^ 32)

/-- The stored batches that start at offset `s` or later. -/
def batchesFrom (stored : List (ℤ × Bytes)) (s : ℤ) : List Bytes :=
  (stored.dropWhile fun p => p.1 < s).map Prod.snd

namespace StoredBatch

/-- The number of bytes a batch takes in its segment. -/
def len (b : StoredBatch) : ℕ :=
  b.bytes.length

/-- The bytes of consecutive batches. -/
def bytesOf (bs : List StoredBatch) : Bytes :=
  (bs.map bytes).flatten

/-- The number of bytes consecutive batches take. -/
def lenOf (bs : List StoredBatch) : ℕ :=
  (bs.map len).sum

/-- The batches follow each other in offset space from `o` on. -/
def Chained : ℤ → List StoredBatch → Prop
  | _, [] => True
  | o, b :: bs => b.base = o ∧ Chained (o + b.count) bs

/-- The offset right after the batches. -/
def endOffset (o : ℤ) (bs : List StoredBatch) : ℤ :=
  o + ((bs.map count).sum : ℕ)

/-- The batches a fetch of `maxBytes` collects when the segment holds `bs` from the start
offset on: whole batches, until the collected size, read as an `int32_t`, reaches
`maxBytes`. -/
def collect (maxBytes : ℤ) (collected : ℕ) : List StoredBatch → List StoredBatch
  | [] => []
  | b :: bs =>
    if toInt32 (collected + b.len : ℕ) ≥ maxBytes then [b]
    else b :: collect maxBytes (collected + b.len) bs

@[simp]
theorem bytesOf_nil : bytesOf [] = [] := rfl

@[simp]
theorem bytesOf_cons (b : StoredBatch) (bs : List StoredBatch) :
    bytesOf (b :: bs) = b.bytes ++ bytesOf bs := by
  simp [bytesOf]

@[simp]
theorem bytesOf_append (bs cs : List StoredBatch) :
    bytesOf (bs ++ cs) = bytesOf bs ++ bytesOf cs := by
  simp [bytesOf]

@[simp]
theorem lenOf_nil : lenOf [] = 0 := rfl

@[simp]
theorem lenOf_cons (b : StoredBatch) (bs : List StoredBatch) :
    lenOf (b :: bs) = b.len + lenOf bs := by
  simp [lenOf]

@[simp]
theorem lenOf_append (bs cs : List StoredBatch) : lenOf (bs ++ cs) = lenOf bs + lenOf cs := by
  simp [lenOf]

@[simp]
theorem length_bytesOf (bs : List StoredBatch) : (bytesOf bs).length = lenOf bs := by
  induction bs with
  | nil => rfl
  | cons b bs ih => simp [ih, len]

@[simp]
theorem endOffset_nil (o : ℤ) : endOffset o [] = o := by
  simp [endOffset]

@[simp]
theorem endOffset_cons (o : ℤ) (b : StoredBatch) (bs : List StoredBatch) :
    endOffset o (b :: bs) = endOffset (o + b.count) bs := by
  simp only [endOffset, List.map_cons, List.sum_cons, Nat.cast_add]
  ring

@[simp]
theorem endOffset_append (o : ℤ) (bs cs : List StoredBatch) :
    endOffset o (bs ++ cs) = endOffset (endOffset o bs) cs := by
  simp only [endOffset, List.map_append, List.sum_append, Nat.cast_add]
  ring

theorem le_endOffset (o : ℤ) (bs : List StoredBatch) : o ≤ endOffset o bs := by
  unfold endOffset
  omega

theorem chained_append (o : ℤ) (bs cs : List StoredBatch) :
    Chained o (bs ++ cs) ↔ Chained o bs ∧ Chained (endOffset o bs) cs := by
  induction bs generalizing o with
  | nil => simp [Chained]
  | cons b bs ih => simp [Chained, ih, and_assoc]

/-- Every batch of a chain starts between the chain's ends. -/
theorem Chained.base_mem {o : ℤ} {bs : List StoredBatch} (h : Chained o bs) {b : StoredBatch}
    (hb : b ∈ bs) : o ≤ b.base ∧ b.base + b.count ≤ endOffset o bs := by
  induction bs generalizing o with
  | nil => simp at hb
  | cons c cs ih =>
    obtain ⟨hc, hcs⟩ := h
    rw [endOffset_cons]
    rcases List.mem_cons.mp hb with rfl | hb
    · have := le_endOffset (o + b.count) cs
      omega
    · have := ih hcs hb
      omega

theorem len_pos (b : StoredBatch) : 61 ≤ b.len := b.header_le

/-- The collected batches are a leading part of what the segment holds. -/
theorem collect_isPrefix (maxBytes : ℤ) (collected : ℕ) (bs : List StoredBatch) :
    collect maxBytes collected bs <+: bs := by
  induction bs generalizing collected with
  | nil => simp [collect]
  | cons b bs ih =>
    rw [collect]
    by_cases h : toInt32 (collected + b.len : ℕ) ≥ maxBytes
    · rw [if_pos h]
      exact ⟨bs, by simp⟩
    · rw [if_neg h]
      exact (List.prefix_cons_inj b).mpr (ih _)

theorem collect_eq_nil_iff {maxBytes : ℤ} {collected : ℕ} {bs : List StoredBatch} :
    collect maxBytes collected bs = [] ↔ bs = [] := by
  cases bs with
  | nil => simp [collect]
  | cons b bs =>
    rw [collect]
    split <;> simp

theorem lenOf_eq_length_flatten (bs : List StoredBatch) :
    (bs.map bytes).flatten.length = lenOf bs :=
  length_bytesOf bs

/-- As long as the shortest run stays below `2^31` bytes the 32-bit comparison agrees with
the exact one, so the log collects the shortest run. -/
theorem collect_eq_shortestRun {maxBytes : ℤ} {collected : ℕ} {bs : List StoredBatch}
    (h : collected + (shortestRun maxBytes collected (bs.map bytes)).flatten.length < 2 ^ 31) :
    (collect maxBytes collected bs).map bytes =
      shortestRun maxBytes collected (bs.map bytes) := by
  induction bs generalizing collected with
  | nil => rfl
  | cons b bs ih =>
    have hlen : b.bytes.length = b.len := rfl
    rw [List.map_cons, shortestRun] at h
    rw [List.map_cons, shortestRun, collect, hlen]
    rw [hlen] at h
    by_cases hm : maxBytes ≤ (collected + b.len : ℕ)
    · rw [if_pos hm] at h
      have hfit : toInt32 (collected + b.len : ℕ) = (collected + b.len : ℕ) :=
        toInt32_of_fits (by omega) (by simp [hlen] at h; omega)
      rw [if_pos hm, if_pos (by rw [hfit]; exact hm)]
      rfl
    · rw [if_neg hm, List.flatten_cons, List.length_append, hlen] at h
      have hfit : toInt32 (collected + b.len : ℕ) = (collected + b.len : ℕ) :=
        toInt32_of_fits (by omega) (by omega)
      rw [if_neg hm, if_neg (by rw [hfit]; exact hm), List.map_cons,
        ih (by omega)]

/-- When the shortest run is all there is, so is what the log collects: a wrapped size is
never larger than the exact one, so it cannot stop the log early. -/
theorem collect_eq_self {maxBytes : ℤ} {collected : ℕ} {bs : List StoredBatch}
    (h : shortestRun maxBytes collected (bs.map bytes) = bs.map bytes) :
    collect maxBytes collected bs = bs := by
  induction bs generalizing collected with
  | nil => rfl
  | cons b bs ih =>
    have hlen : b.bytes.length = b.len := rfl
    rw [List.map_cons, shortestRun, hlen] at h
    rw [collect]
    by_cases hm : maxBytes ≤ (collected + b.len : ℕ)
    · rw [if_pos hm] at h
      obtain rfl : bs = [] := by simpa using h.symm
      split <;> rfl
    · rw [if_neg hm, List.cons.injEq] at h
      have hle := toInt32_le_of_nonneg (Int.natCast_nonneg (collected + b.len))
      rw [if_neg (by omega), ih h.2]

/-- A fetch whose sizes fit returns the shortest run, and its size is not truncated. -/
theorem collect_of_fetchFits {maxBytes : ℤ} {bs : List StoredBatch}
    (h : FetchFits maxBytes (bs.map bytes)) :
    (collect maxBytes 0 bs).map bytes = shortestRun maxBytes 0 (bs.map bytes) ∧
      lenOf (collect maxBytes 0 bs) < 2 ^ 32 := by
  rw [← lenOf_eq_length_flatten]
  rcases h with h | ⟨hall, hlt⟩
  · have heq : (collect maxBytes 0 bs).map bytes = shortestRun maxBytes 0 (bs.map bytes) :=
      collect_eq_shortestRun (by omega)
    refine ⟨heq, ?_⟩
    rw [heq]
    omega
  · rw [collect_eq_self hall, hall]
    exact ⟨rfl, hlt⟩

end StoredBatch

end StrikeMQ.Interface
