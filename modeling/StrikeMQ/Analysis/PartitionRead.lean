import Mathlib.Data.List.TakeWhile
import StrikeMQ.Analysis.LogLayout

/-!
# What `read` returns

On a segment laid out as stored batches the scan is a walk over the list of batches: it
skips the batches below the start offset and then collects whole batches until the
collected size reaches `max_bytes`. So `read` answers from the batches of the active
segment alone, provided the index sends it to the start of a batch that is not behind the
one asked for. That is always so while the log has one segment, and for offsets above the
active segment's first; the active segment's own first offset is looked up among the
entries of the segment before it.
-/

set_option autoImplicit false

namespace StrikeMQ.Analysis.PartitionRead

open StrikeMQ.Lib StrikeMQ.Model StrikeMQ.Interface
open StrikeMQ.Interface.StoredBatch StrikeMQ.Analysis.LogLayout
open StrikeMQ.Model.PartitionLog

/-! ## The scan over stored batches -/

theorem slice_bytesOf (pre post : List StoredBatch) (b : StoredBatch) (p n : ℕ)
    (h : p + n ≤ b.len) :
    slice (bytesOf (pre ++ b :: post)) (lenOf pre + p) n = slice b.bytes p n := by
  rw [bytesOf_append, slice_append_right _ _ _ _ (by rw [length_bytesOf]; omega),
    length_bytesOf, Nat.add_sub_cancel_left, bytesOf_cons, slice_append_left _ _ _ _ h]

/-- INTERNAL: one round of the scan at the start of a stored batch. -/
theorem scanLoop_step (pre post : List StoredBatch) (b : StoredBatch) (s m : ℤ) (fuel sp : ℕ)
    (found : Bool) :
    scanLoop (bytesOf (pre ++ b :: post)) s m (fuel + 1) ⟨lenOf pre, sp, found⟩ =
      if found = false ∧ toInt64 b.base < s then
        scanLoop (bytesOf (pre ++ b :: post)) s m fuel
          ⟨lenOf pre + b.len, lenOf pre + b.len, false⟩
      else if toInt32 (lenOf pre + b.len - (if found then sp else lenOf pre) : ℕ) ≥ m then
        ⟨lenOf pre + b.len, if found then sp else lenOf pre, true⟩
      else scanLoop (bytesOf (pre ++ b :: post)) s m fuel
        ⟨lenOf pre + b.len, if found then sp else lenOf pre, true⟩ := by
  have hlen := b.header_le
  have hlt := b.length_lt
  have hb : b.bytes.length = b.len := rfl
  have htotal : (bytesOf (pre ++ b :: post)).length = lenOf pre + (b.len + lenOf post) := by
    simp [hb]
  have hbase : intOfBe (slice (bytesOf (pre ++ b :: post)) (lenOf pre) 8) = toInt64 b.base := by
    rw [← b.base_eq, ← slice_bytesOf pre post b 0 8 (by omega), Nat.add_zero]
  have hbl : intOfBe (slice (bytesOf (pre ++ b :: post)) (lenOf pre + 8) 4) =
      (b.bytes.length - 12 : ℕ) := by
    rw [← b.batchLength_eq, slice_bytesOf pre post b 8 4 (by omega)]
  have hadv : 12 + ((b.bytes.length - 12 : ℕ) : ℤ).toNat = b.len := by omega
  rw [scanLoop]
  simp only [hbase, hbl, hadv, htotal]
  rw [if_pos (by omega), if_neg (by omega), if_neg (by omega)]
  cases found with
  | true => simp
  | false =>
    by_cases hs : toInt64 b.base < s
    · simp [hs, not_le.mpr hs]
    · simp [hs, not_lt.mp hs]

/-- INTERNAL: past the last batch the scan stops. -/
theorem scanLoop_end (bs : List StoredBatch) (s m : ℤ) (fuel : ℕ) (st : Scan)
    (h : st.scan = lenOf bs) : scanLoop (bytesOf bs) s m fuel st = st := by
  cases fuel with
  | zero => rfl
  | succ fuel =>
    rw [scanLoop, if_neg]
    rw [length_bytesOf]
    omega

/-- INTERNAL: **skipping**: the scan walks over batches below the start offset. -/
theorem scanLoop_skip (skip pre post : List StoredBatch) (s m : ℤ) (fuel : ℕ)
    (hskip : ∀ b ∈ skip, toInt64 b.base < s) :
    scanLoop (bytesOf (pre ++ (skip ++ post))) s m (skip.length + fuel)
        ⟨lenOf pre, lenOf pre, false⟩ =
      scanLoop (bytesOf (pre ++ (skip ++ post))) s m fuel
        ⟨lenOf (pre ++ skip), lenOf (pre ++ skip), false⟩ := by
  induction skip generalizing pre with
  | nil => simp
  | cons b skip ih =>
    have hb := hskip b List.mem_cons_self
    have hrest := ih (pre ++ [b]) fun c hc => hskip c (List.mem_cons_of_mem _ hc)
    rw [List.length_cons, Nat.add_right_comm, List.cons_append,
      scanLoop_step pre (skip ++ post) b s m _ _ false, if_pos ⟨rfl, hb⟩]
    simpa [Nat.add_assoc] using hrest

/-- INTERNAL: **collecting**: once the start is found the scan takes whole batches until
the collected size, as an `int32_t`, reaches `max_bytes`. The induction is on the batches
still ahead; `got` are the ones collected so far. -/
theorem scanLoop_collect (rest pre got : List StoredBatch) (s m : ℤ) (fuel : ℕ)
    (hfuel : rest.length ≤ fuel) :
    scanLoop (bytesOf (pre ++ got ++ rest)) s m fuel ⟨lenOf (pre ++ got), lenOf pre, true⟩ =
      ⟨lenOf (pre ++ got ++ collect m (lenOf got) rest), lenOf pre, true⟩ := by
  induction rest generalizing got fuel with
  | nil => rw [scanLoop_end _ _ _ _ _ (by simp)]; simp [collect]
  | cons b rest ih =>
    obtain ⟨fuel, rfl⟩ : ∃ f, fuel = f + 1 := ⟨fuel - 1, by simp at hfuel; omega⟩
    rw [scanLoop_step (pre ++ got) rest b s m fuel (lenOf pre) true, if_neg (by simp)]
    have hsize : lenOf (pre ++ got) + b.len - (if true = true then lenOf pre else lenOf (pre ++ got)) =
        lenOf got + b.len := by
      simp
      omega
    rw [hsize, collect]
    by_cases hm : toInt32 (lenOf got + b.len : ℕ) ≥ m
    · rw [if_pos hm, if_pos hm]
      simp [Nat.add_assoc]
    · rw [if_neg hm, if_neg hm]
      have hrest := ih (got ++ [b]) fuel (by simpa using hfuel)
      simpa [Nat.add_assoc] using hrest

/-- INTERNAL: **the whole scan** from a batch boundary that is not past the start. -/
theorem scanLoop_spec (pre skip rest : List StoredBatch) (s m : ℤ) (fuel : ℕ)
    (hskip : ∀ b ∈ skip, toInt64 b.base < s)
    (hrest : ∀ b ∈ rest.head?, s ≤ toInt64 b.base)
    (hfuel : skip.length + rest.length ≤ fuel) :
    scanLoop (bytesOf (pre ++ (skip ++ rest))) s m fuel ⟨lenOf pre, lenOf pre, false⟩ =
      ⟨lenOf (pre ++ skip ++ collect m 0 rest), lenOf (pre ++ skip), !rest.isEmpty⟩ := by
  obtain ⟨fuel, rfl⟩ : ∃ f, fuel = skip.length + f := ⟨fuel - skip.length, by omega⟩
  rw [scanLoop_skip skip pre rest s m fuel hskip]
  cases rest with
  | nil =>
    rw [scanLoop_end _ _ _ _ _ (by simp)]
    simp [collect]
  | cons b rest =>
    obtain ⟨fuel, rfl⟩ : ∃ f, fuel = f + 1 :=
      ⟨fuel - 1, by simp only [List.length_cons] at hfuel; omega⟩
    have hb : s ≤ toInt64 b.base := hrest b (by simp)
    -- the first batch is taken as if the start had been found right before it
    have hfound : scanLoop (bytesOf (pre ++ skip ++ b :: rest)) s m (fuel + 1)
          ⟨lenOf (pre ++ skip), lenOf (pre ++ skip), false⟩ =
        scanLoop (bytesOf (pre ++ skip ++ b :: rest)) s m (fuel + 1)
          ⟨lenOf (pre ++ skip), lenOf (pre ++ skip), true⟩ := by
      have hnot : ¬ (false = false ∧ toInt64 b.base < s) := fun h => absurd h.2 (not_lt.mpr hb)
      have hyes : ¬ (true = false ∧ toInt64 b.base < s) := by simp
      rw [scanLoop_step (pre ++ skip) rest b s m fuel _ false,
        scanLoop_step (pre ++ skip) rest b s m fuel _ true, if_neg hnot, if_neg hyes]
      simp only [ite_self]
    rw [← List.append_assoc, hfound]
    have hall := scanLoop_collect (b :: rest) (pre ++ skip) [] s m (fuel + 1)
      (by simp only [List.length_cons] at hfuel ⊢; omega)
    simpa using hall

theorem length_le_lenOf (bs : List StoredBatch) : bs.length ≤ lenOf bs := by
  induction bs with
  | nil => simp
  | cons b bs ih =>
    have := b.len_pos
    rw [List.length_cons, lenOf_cons]
    omega

/-! ## The index -/

/-- INTERNAL: entries of a segment's batches lie between the segment's first offset and its
end. -/
theorem offset_mem_aligned {o : ℤ} {bs : List StoredBatch} {p : ℕ} {e : IndexEntry}
    (h : Chained o bs) (he : e ∈ aligned p bs) : o ≤ e.offset ∧ e.offset ≤ endOffset o bs := by
  obtain ⟨pre, b, post, rfl, rfl⟩ := exists_of_mem_aligned he
  have hb := h.base_mem (b := b) (by simp)
  exact ⟨hb.1, by show b.base ≤ _; omega⟩

/-- INTERNAL: entries of sealed segments do not pass the active segment's first offset. -/
theorem offset_mem_older {o : ℤ} {older : List (List StoredBatch)} {e : IndexEntry}
    (h : Chained o older.flatten) (he : e ∈ older.flatMap (aligned 0)) :
    e.offset ≤ endOffset o older.flatten := by
  induction older generalizing o with
  | nil => simp at he
  | cons s older ih =>
    rw [List.flatten_cons] at h ⊢
    rw [chained_append] at h
    rw [endOffset_append]
    rw [List.flatMap_cons, List.mem_append] at he
    rcases he with he | he
    · exact le_trans (offset_mem_aligned h.1 he).2 (le_endOffset _ _)
    · exact ih h.2 he

/-- INTERNAL: the index leads `read` to the start of one of the active segment's batches,
with only batches below `s` before it. -/
def IndexedAt (log : PartitionLog) (active : List StoredBatch) (s : ℤ) : Prop :=
  ∃ pre rest, active = pre ++ rest ∧ rest ≠ [] ∧ log.index.lookup s = lenOf pre ∧
    ∀ b ∈ pre, b.base < s

/-- INTERNAL: above the active segment's first offset the index leads to the start of one of
its batches, and every batch before that one is below the target. -/
theorem indexedAt_of_le {log : PartitionLog} {older : List (List StoredBatch)}
    {active : List StoredBatch} {s : ℤ} (h : Layout log older active) (hne : active ≠ [])
    (hs : log.activeSegment.baseOffset ≤ s)
    (hfirst : s = log.activeSegment.baseOffset → log.index.lookup s = 0) :
    IndexedAt log active s := by
  by_cases heq : s = log.activeSegment.baseOffset
  · exact ⟨[], active, rfl, hne, hfirst heq, by simp⟩
  have hchain := (chained_append 0 _ _).mp h.chained
  have hA := h.base_eq
  -- every entry of the older segments is below `s`, and so is the active segment's first
  have hold : ∀ e ∈ older.flatMap (aligned 0), decide (e.offset < s) = true := by
    intro e he
    have := offset_mem_older hchain.1 he
    simp only [decide_eq_true_eq]
    omega
  obtain ⟨b, active', rfl⟩ := List.exists_cons_of_ne_nil hne
  have hb : b.base = log.activeSegment.baseOffset := by
    rw [hA]
    exact hchain.2.1
  let below := (aligned 0 (b :: active')).takeWhile fun e => e.offset < s
  have hbelow : below ≠ [] := by
    have : decide (b.base < s) = true := by
      simp only [decide_eq_true_eq]
      omega
    simp [below, aligned, this]
  obtain ⟨e, he⟩ := Option.ne_none_iff_exists'.mp (mt List.getLast?_eq_none_iff.mp hbelow)
  have hmem : e ∈ below := List.mem_of_getLast? he
  have hlt : e.offset < s := by simpa using List.mem_takeWhile_imp hmem
  have hlookup : log.index.lookup s = e.position := by
    have hentries : log.index.entries.takeWhile (fun e => decide (e.offset < s)) =
        older.flatMap (aligned 0) ++ below := by
      rw [h.index_eq, List.takeWhile_append_of_pos hold]
    have hlast : (older.flatMap (aligned 0) ++ below).getLast? = some e := by
      rw [List.getLast?_append, he]
      rfl
    unfold OffsetIndex.lookup
    cases hent : log.index.entries with
    | nil =>
      rw [hent, List.takeWhile_nil] at hentries
      exact absurd (List.append_eq_nil_iff.mp hentries.symm).2 hbelow
    | cons e₀ es =>
      simp only [← hent, hentries, hlast]
  obtain ⟨pre, c, post, hsplit, rfl⟩ :=
    exists_of_mem_aligned ((List.takeWhile_sublist _).subset hmem)
  refine ⟨pre, c :: post, hsplit, by simp, by rw [hlookup]; simp, ?_⟩
  intro d hd
  have hc : Chained (endOffset 0 older.flatten) (pre ++ c :: post) := hsplit ▸ hchain.2
  rw [chained_append] at hc
  have hd' := hc.1.base_mem hd
  have hc' : c.base = _ := hc.2.1
  have : c.base < s := hlt
  omega

/-- INTERNAL: while the log has one segment the index also leads to the start of its batches
for the segment's first offset. -/
theorem lookup_first {log : PartitionLog} {active : List StoredBatch} {s : ℤ}
    (h : Layout log [] active) (hs : s ≤ 0) : log.index.lookup s = 0 := by
  have hentries : log.index.entries = aligned 0 active := by simpa using h.index_eq
  have hchain : Chained 0 active := by simpa using h.chained
  have hnone : (aligned 0 active).takeWhile (fun e => decide (e.offset < s)) = [] := by
    rw [List.takeWhile_eq_nil_iff]
    intro hpos
    have := offset_mem_aligned hchain (List.get_mem _ ⟨0, hpos⟩)
    simp only [decide_eq_true_eq, not_lt]
    omega
  unfold OffsetIndex.lookup
  rw [hentries, hnone]
  cases active with
  | nil => rfl
  | cons b active => rfl

/-! ## `read` -/

/-- INTERNAL: the stored batches of the active segment that a read at `s` can return. -/
def fromOffset (active : List StoredBatch) (s : ℤ) : List StoredBatch :=
  active.dropWhile fun b => b.base < s

/-- INTERNAL: while offsets are below `2^63` a stored batch's header holds its base offset. -/
theorem toInt64_base {log : PartitionLog} {older : List (List StoredBatch)}
    {active : List StoredBatch} (h : Layout log older active) (hmax : log.nextOffset < 2 ^ 63)
    {b : StoredBatch} (hb : b ∈ active) : toInt64 b.base = b.base := by
  have hmem := h.chained.base_mem (List.mem_append_right _ hb)
  rw [← h.next_eq] at hmem
  exact toInt64_of_fits (by omega) (by omega)

/-- The position and the size of what `read` returns when its scan starts at byte `pos` of the
active segment.
SOURCE: storage/partition_log.h:136-190 -/
def scanFrom (log : PartitionLog) (pos : ℕ) (startOffset maxBytes : ℤ) : Option (ℕ × ℕ) :=
  if startOffset ≥ log.nextOffset then none
  else
    let segSize := log.activeSegment.size
    if segSize = 0 ∨ pos ≥ segSize then none
    else
      let st := scanLoop log.activeSegment.data startOffset maxBytes segSize ⟨pos, pos, false⟩
      if st.scan > st.startPos then some (st.startPos, toUInt32 (st.scan - st.startPos : ℕ))
      else none

/-- INTERNAL: `read` returns the range of the scan from where the index points. -/
theorem read_eq_scanFrom (log : PartitionLog) (s m : ℤ) :
    (log.read s m).data = (scanFrom log (log.index.lookup s) s m).map fun r =>
      slice log.activeSegment.data r.1 r.2 := by
  have hread : log.activeSegment.read 0 (toUInt32 log.activeSegment.size) =
      some log.activeSegment.data := by
    have hle : toUInt32 log.activeSegment.size ≤ log.activeSegment.size := by
      unfold toUInt32
      omega
    unfold LogSegment.read
    rw [if_neg (by omega), List.drop_zero]
  unfold PartitionLog.read scanFrom
  simp only [hread]
  split
  · rfl
  · split
    · rfl
    · split
      · rfl
      · rfl

/-- INTERNAL: **the scan from a batch boundary** with only batches below the target before it
returns the batches that are collected from the first one that is not below it. -/
theorem scanFrom_boundary {log : PartitionLog} {older : List (List StoredBatch)}
    {active : List StoredBatch} {s : ℤ} (h : Layout log older active)
    (hmax : log.nextOffset < 2 ^ 63) {pre rest : List StoredBatch} (hsplit : active = pre ++ rest)
    (hpre : ∀ b ∈ pre, b.base < s) (hrest : rest ≠ []) (hs : s < log.nextOffset) (m : ℤ) :
    scanFrom log (lenOf pre) s m =
      let skip := active.takeWhile fun b => b.base < s
      let got := collect m 0 (fromOffset active s)
      if got = [] then none else some (lenOf skip, toUInt32 (lenOf got)) := by
  have hsize := h.size_eq
  have hbelow : lenOf pre < lenOf active := by
    obtain ⟨b, rest', rfl⟩ := List.exists_cons_of_ne_nil hrest
    have hpos := b.len_pos
    rw [hsplit, lenOf_append, lenOf_cons]
    omega
  have hpre' : ∀ b ∈ pre, decide (b.base < s) = true := by simpa using hpre
  have hskip : active.takeWhile (fun b => decide (b.base < s)) =
      pre ++ rest.takeWhile fun b => b.base < s := by
    rw [hsplit, List.takeWhile_append_of_pos hpre']
  have htail : fromOffset active s = rest.dropWhile fun b => b.base < s := by
    rw [fromOffset, hsplit, List.dropWhile_append_of_pos hpre']
  have hbase : ∀ b ∈ rest, toInt64 b.base = b.base := fun b hb =>
    toInt64_base h hmax (by rw [hsplit]; exact List.mem_append_right _ hb)
  have hrun := scanLoop_spec pre (rest.takeWhile fun b => b.base < s)
    (rest.dropWhile fun b => b.base < s) s m (lenOf active)
    (by
      intro b hb
      rw [hbase b (List.takeWhile_subset _ hb)]
      simpa using List.mem_takeWhile_imp hb)
    (by
      intro b hb
      have hmem := List.mem_of_mem_head? hb
      rw [hbase b ((List.dropWhile_sublist _).subset hmem)]
      have hnot := List.head?_dropWhile_not (fun b : StoredBatch => decide (b.base < s)) rest
      rw [Option.mem_def.mp hb] at hnot
      simpa using hnot)
    (by
      have hlen : active.length = pre.length + rest.length := by rw [hsplit, List.length_append]
      have hle := length_le_lenOf active
      rw [← List.length_append, List.takeWhile_append_dropWhile]
      omega)
  rw [List.takeWhile_append_dropWhile, ← hsplit] at hrun
  unfold scanFrom
  rw [if_neg (by omega), hsize, if_neg (by omega), h.data_eq, hrun, hskip, htail]
  simp only
  generalize hgot : collect m 0 (rest.dropWhile fun b => decide (b.base < s)) = got
  have hdiff : lenOf (pre ++ rest.takeWhile (fun b => decide (b.base < s)) ++ got) -
      lenOf (pre ++ rest.takeWhile fun b => decide (b.base < s)) = lenOf got := by
    rw [lenOf_append]
    omega
  by_cases hnone : got = []
  · rw [if_neg (by rw [hnone]; simp), if_pos hnone]
  · have hpos : 0 < lenOf got :=
      lt_of_lt_of_le (List.length_pos_iff.mpr hnone) (length_le_lenOf _)
    rw [if_pos (by rw [lenOf_append]; omega), if_neg hnone, hdiff]

/-- INTERNAL: **`read` refines the abstract fetch**: from an indexed batch it returns the
batches collected from the requested offset on, cut to the low 32 bits of their size. -/
theorem read_refines {log : PartitionLog} {older : List (List StoredBatch)}
    {active : List StoredBatch} {s : ℤ} (m : ℤ) (h : Layout log older active)
    (hmax : log.nextOffset < 2 ^ 63) (hindex : IndexedAt log active s) :
    (log.read s m).data =
      let got := collect m 0 (fromOffset active s)
      if got = [] ∨ log.nextOffset ≤ s then none
      else some ((bytesOf got).take (toUInt32 (lenOf got))) := by
  rw [read_eq_scanFrom]
  by_cases hend : log.nextOffset ≤ s
  · unfold scanFrom
    rw [if_pos (by omega)]
    simp [hend]
  obtain ⟨pre, rest, hact, hrest, hpos, hpre⟩ := hindex
  rw [hpos, scanFrom_boundary h hmax hact hpre hrest (by omega), h.data_eq]
  simp only [hend, or_false]
  generalize hgot : collect m 0 (fromOffset active s) = got
  by_cases hnone : got = []
  · rw [if_pos hnone, if_pos hnone]
    rfl
  · rw [if_neg hnone, if_neg hnone, Option.map_some]
    -- the range lies behind the skipped batches
    obtain ⟨more, hmore⟩ := collect_isPrefix m 0 (fromOffset active s)
    rw [hgot] at hmore
    have hbytes : bytesOf active =
        bytesOf (active.takeWhile fun b => b.base < s) ++ (bytesOf got ++ bytesOf more) := by
      rw [← bytesOf_append, hmore, ← bytesOf_append, fromOffset, List.takeWhile_append_dropWhile]
    have hle : toUInt32 (lenOf got) ≤ (bytesOf got).length := by
      rw [length_bytesOf]
      unfold toUInt32
      omega
    rw [hbytes]
    unfold slice
    rw [← length_bytesOf, List.drop_left, List.take_append_of_le_length hle]

end StrikeMQ.Analysis.PartitionRead
