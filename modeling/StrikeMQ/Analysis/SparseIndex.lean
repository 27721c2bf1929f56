import StrikeMQ.Analysis.PartitionRead

/-!
# When the index changes what is read

The index only tells `read` where to start its scan, so a scan from byte 0 should return the
same range. It does for every offset above the active segment's first one, where the entry that
is found belongs to the active segment. Up to that offset the entry that is found is the last
one of an older segment below the target, and its position means nothing in the active segment:
the range is the same only if the position happens to be 0.
-/

set_option autoImplicit false

namespace StrikeMQ.Analysis.SparseIndex

open StrikeMQ.Lib StrikeMQ.Model StrikeMQ.Interface
open StrikeMQ.Interface.StoredBatch StrikeMQ.Analysis.LogLayout StrikeMQ.Analysis.PartitionRead
open StrikeMQ.Analysis.BatchSerialization
open StrikeMQ.Model.PartitionLog

/-! ## Entries in order -/

/-- INTERNAL: the entries of one segment come in the order of their offsets. -/
theorem pairwise_aligned {o : ℤ} {p : ℕ} {bs : List StoredBatch} (h : Chained o bs) :
    (aligned p bs).Pairwise fun e e' => e.offset ≤ e'.offset := by
  induction bs generalizing o p with
  | nil => exact List.Pairwise.nil
  | cons b bs ih =>
    obtain ⟨hbase, hrest⟩ := h
    rw [aligned]
    split
    · rw [List.singleton_append, List.pairwise_cons]
      refine ⟨?_, ih hrest⟩
      intro e he
      have hle := (offset_mem_aligned hrest he).1
      show b.base ≤ e.offset
      omega
    · exact ih hrest

/-- INTERNAL: so do those of all segments. -/
theorem pairwise_older {o : ℤ} {older : List (List StoredBatch)} (h : Chained o older.flatten) :
    (older.flatMap (aligned 0)).Pairwise fun e e' => e.offset ≤ e'.offset := by
  induction older generalizing o with
  | nil => exact List.Pairwise.nil
  | cons s older ih =>
    rw [List.flatten_cons, chained_append] at h
    rw [List.flatMap_cons, List.pairwise_append]
    refine ⟨pairwise_aligned h.1, ih h.2, ?_⟩
    intro e he e' he'
    have hle := (offset_mem_aligned h.1 he).2
    obtain ⟨t, ht, he''⟩ := List.mem_flatMap.mp he'
    obtain ⟨pre, b, post, hsplit, rfl⟩ := exists_of_mem_aligned he''
    have hb := h.2.base_mem (b := b) (List.mem_flatten.mpr ⟨t, ht, by rw [hsplit]; simp⟩)
    show e.offset ≤ b.base
    omega

theorem pairwise_entries {log : PartitionLog} {older : List (List StoredBatch)}
    {active : List StoredBatch} (h : Layout log older active) :
    log.index.entries.Pairwise fun e e' => e.offset ≤ e'.offset := by
  have hchain := (chained_append 0 _ _).mp h.chained
  rw [h.index_eq, List.pairwise_append]
  refine ⟨pairwise_older hchain.1, pairwise_aligned hchain.2, ?_⟩
  intro e he e' he'
  exact le_trans (offset_mem_older hchain.1 he) (offset_mem_aligned hchain.2 he').1

/-- INTERNAL: in order, the leading entries below a target are all entries below it. -/
theorem takeWhile_eq_filter {es : List IndexEntry}
    (h : es.Pairwise fun e e' => e.offset ≤ e'.offset) (s : ℤ) :
    es.takeWhile (fun e => e.offset < s) = es.filter fun e => e.offset < s := by
  induction es with
  | nil => rfl
  | cons e es ih =>
    rw [List.pairwise_cons] at h
    by_cases hlt : e.offset < s
    · rw [List.takeWhile_cons_of_pos (by simpa using hlt), List.filter_cons_of_pos (by simpa using hlt),
        ih h.2]
    · rw [List.takeWhile_cons_of_neg (by simpa using hlt), List.filter_cons_of_neg (by simpa using hlt)]
      symm
      rw [List.filter_eq_nil_iff]
      intro e' he'
      have hle := h.1 e' he'
      simp only [decide_eq_true_eq, not_lt]
      omega

/-- INTERNAL: the first batch of the log starts at byte 0 of its segment, and is indexed. -/
theorem head_entries_position {log : PartitionLog} {older : List (List StoredBatch)}
    {active : List StoredBatch} (h : Layout log older active) {e : IndexEntry}
    (he : log.index.entries.head? = some e) : e.position = 0 := by
  have hfirst : ∀ (es : List IndexEntry) {bs : List StoredBatch} {e : IndexEntry}, bs ≠ [] →
      (aligned 0 bs ++ es).head? = some e → e.position = 0 := by
    intro es bs e hne hhead
    obtain ⟨b, bs, rfl⟩ := List.exists_cons_of_ne_nil hne
    simp only [aligned, Nat.zero_mod, if_true, List.cons_append, List.nil_append,
      List.head?_cons, Option.some.injEq] at hhead
    rw [← hhead]
  rw [h.index_eq] at he
  cases older with
  | nil =>
    cases active with
    | nil => cases he
    | cons b bs => exact hfirst [] (List.cons_ne_nil b bs) (by simpa using he)
  | cons s older =>
    rw [List.flatMap_cons, List.append_assoc] at he
    exact hfirst _ (h.older_ne s List.mem_cons_self) he

/-- INTERNAL: **what a lookup answers**: 0 exactly if the last entry below the target, if there
is one, has position 0. -/
theorem lookup_eq_zero_iff {log : PartitionLog} {older : List (List StoredBatch)}
    {active : List StoredBatch} (h : Layout log older active) (s : ℤ) :
    log.index.lookup s = 0 ↔
      ∀ e, (log.index.entries.filter fun e => e.offset < s).getLast? = some e → e.position = 0 := by
  have hhead := @head_entries_position log older active h
  have hsame := takeWhile_eq_filter (pairwise_entries h) s
  unfold OffsetIndex.lookup
  cases hentries : log.index.entries with
  | nil => simp
  | cons e₀ es =>
    simp only [← hentries, hsame]
    cases hlast : (log.index.entries.filter fun e => e.offset < s).getLast? with
    | none =>
      have hzero : e₀.position = 0 := hhead (by rw [hentries]; rfl)
      simp [hzero]
    | some e => simp

/-! ## The scan -/

/-- INTERNAL: the scan never goes back behind where it started. -/
theorem le_startPos_scanLoop (seg : Bytes) (s m : ℤ) (fuel : ℕ) (st : Scan)
    (h : st.startPos ≤ st.scan) : st.startPos ≤ (scanLoop seg s m fuel st).startPos := by
  induction fuel generalizing st with
  | zero => exact le_refl _
  | succ fuel ih =>
    rw [scanLoop]
    simp only
    split
    · split
      · exact le_refl _
      · split
        · exact le_refl _
        · split
          · refine le_trans ?_ (ih _ ?_)
            · exact h.trans (Nat.le_add_right _ _)
            · exact le_refl _
          · have hstart : st.startPos ≤ if st.foundStart then st.startPos else st.scan := by
              split <;> omega
            have hscan : (if st.foundStart then st.startPos else st.scan) ≤ st.scan := by
              split <;> omega
            generalize (if st.foundStart then st.startPos else st.scan) = start at hstart hscan ⊢
            split
            · exact hstart
            · exact hstart.trans (ih ⟨_, start, true⟩ (hscan.trans (Nat.le_add_right _ _)))
    · exact le_refl _

section Scan

variable {log : PartitionLog} {older : List (List StoredBatch)} {active : List StoredBatch}
  {s : ℤ} (h : Layout log older active) (hmax : log.nextOffset < 2 ^ 63)

include h hmax

/-- INTERNAL: at or below the active segment's first offset the scan from byte 0 takes the
segment's first batch. -/
theorem scanFrom_zero_first (hne : active ≠ []) (hs : s ≤ log.activeSegment.baseOffset)
    (hnext : s < log.nextOffset) (m : ℤ) : ∃ n, scanFrom log 0 s m = some (0, n) := by
  obtain ⟨b, active', rfl⟩ := List.exists_cons_of_ne_nil hne
  have hbase : b.base = log.activeSegment.baseOffset := by
    rw [h.base_eq]
    exact ((chained_append 0 _ _).mp h.chained).2.1
  have hb : ¬ decide (b.base < s) = true := by
    simp only [decide_eq_true_eq, not_lt]
    omega
  have hskip : (b :: active').takeWhile (fun b => decide (b.base < s)) = [] :=
    List.takeWhile_cons_of_neg hb
  have htail : fromOffset (b :: active') s = b :: active' :=
    List.dropWhile_cons_of_neg hb
  have hscan := scanFrom_boundary h hmax (List.nil_append _).symm (by simp) hne hnext m
  simp only [hskip, htail, lenOf_nil] at hscan
  rw [if_neg (fun hnil => List.cons_ne_nil b active' (collect_eq_nil_iff.mp hnil))] at hscan
  exact ⟨_, hscan⟩

/-- INTERNAL: **what the index changes**, in a log whose active segment is not empty: nothing
exactly if there is nothing to read, or the target is above the active segment's first offset,
or the last entry below it has position 0. -/
theorem scanFrom_lookup_eq_iff (hne : active ≠ []) (m : ℤ) :
    scanFrom log (log.index.lookup s) s m = scanFrom log 0 s m ↔
      log.nextOffset ≤ s ∨ log.activeSegment.baseOffset < s ∨ ∀ e,
        (log.index.entries.filter fun e => e.offset < s).getLast? = some e → e.position = 0 := by
  rw [← lookup_eq_zero_iff h]
  by_cases hend : log.nextOffset ≤ s
  · refine iff_of_true ?_ (Or.inl hend)
    unfold scanFrom
    rw [if_pos (by omega), if_pos (by omega)]
  by_cases habove : log.activeSegment.baseOffset < s
  · refine iff_of_true ?_ (Or.inr (Or.inl habove))
    obtain ⟨pre, rest, hsplit, hrest, hpos, hpre⟩ := indexedAt_of_le h hne habove.le (by omega)
    rw [hpos, scanFrom_boundary h hmax hsplit hpre hrest (by omega)]
    exact (scanFrom_boundary h hmax (List.nil_append _).symm (by simp) hne (by omega) m).symm
  · obtain ⟨n, hzero⟩ := scanFrom_zero_first h hmax hne (not_lt.mp habove) (by omega) m
    constructor
    · intro heq
      refine Or.inr (Or.inr ?_)
      -- a scan from a later byte returns nothing or a range that starts later
      rw [hzero] at heq
      unfold scanFrom at heq
      split at heq
      · cases heq
      · simp only at heq
        split at heq
        · cases heq
        · split at heq
          · have hstart := congrArg Prod.fst (Option.some.inj heq)
            have hle := le_startPos_scanLoop log.activeSegment.data s m log.activeSegment.size
              ⟨log.index.lookup s, log.index.lookup s, false⟩ (le_refl _)
            simp only at hstart hle
            omega
          · cases heq
    · rintro (hge | hgt | hpos)
      · exact absurd hge hend
      · exact absurd hgt habove
      · rw [hpos]

end Scan

/-! ## Runs -/

/-- INTERNAL: after an append the active segment is not empty. -/
theorem exists_layout_appendAll {log log' : PartitionLog} {older : List (List StoredBatch)}
    {active : List StoredBatch} {bs : List RecordBatch} {stored : List (ℤ × Bytes)}
    (h : Layout log older active) (hseg : 65536 ≤ log.segmentSize)
    (hrun : log.appendAll bs = some (log', stored)) (hne : active ≠ [] ∨ bs ≠ []) :
    ∃ older' active', Layout log' older' active' ∧ active' ≠ [] := by
  induction bs generalizing log stored older active with
  | nil =>
    obtain ⟨rfl, -⟩ : log = log' ∧ [] = stored := by simpa [appendAll] using hrun
    exact ⟨older, active, h, hne.resolve_right fun hbs => hbs rfl⟩
  | cons b bs ih =>
    obtain ⟨log₁, base, out, rest, happ, -, hrest, -⟩ := appendAll_cons_iff.mp hrun
    obtain ⟨hsame, sb, -, hcases⟩ := layout_append h happ
    rcases hcases with ⟨-, -, hlay⟩ | ⟨-, -, hlay⟩
    · exact ih hlay (by rw [hsame]; exact hseg) hrest (Or.inl (by simp))
    · exact ih (hlay hseg) (by rw [hsame]; exact hseg) hrest (Or.inl (by simp))

/-- PROPERTY: for every log reached by appends, with any number of rolls and as long as offsets
stay below `2^63`, every start offset and every `max_bytes`: `read` returns the range that a scan
from the position the index gives finds, and a scan from byte 0 of the active segment finds the
same range if and only if the start offset is not below the next offset, or is above the active
segment's first offset, or the last index entry below it, if there is one, has position 0.
SOURCE: storage/partition_log.h:87-98, 125-190, 198-204 -/
theorem index_keeps_range_iff (tp : TopicPartition) (baseDir : Bytes) (segmentSize : ℕ)
    (hseg : 65536 ≤ segmentSize) (bs : List RecordBatch) (log : PartitionLog)
    (stored : List (ℤ × Bytes))
    (hrun : (create tp baseDir segmentSize).appendAll bs = some (log, stored))
    (hmax : log.nextOffset < 2 ^ 63) (s m : ℤ) :
    (log.read s m).data = (scanFrom log (log.index.lookup s) s m).map (fun r =>
      slice log.activeSegment.data r.1 r.2) ∧
    (scanFrom log (log.index.lookup s) s m = scanFrom log 0 s m ↔
      log.nextOffset ≤ s ∨ log.activeSegment.baseOffset < s ∨ ∀ e,
        (log.index.entries.filter fun e => e.offset < s).getLast? = some e →
          e.position = 0) := by
  refine ⟨read_eq_scanFrom log s m, ?_⟩
  by_cases hbs : bs = []
  · subst hbs
    obtain ⟨rfl, -⟩ : create tp baseDir segmentSize = log ∧ [] = stored := by
      simpa [appendAll] using hrun
    exact iff_of_true rfl (Or.inr (Or.inr (by simp [create])))
  · obtain ⟨older, active, hlay, hne⟩ :=
      exists_layout_appendAll (layout_create tp baseDir segmentSize) hseg hrun (Or.inr hbs)
    exact scanFrom_lookup_eq_iff hlay hmax hne m

/-- A batch of one record, `n` bytes long in its segment. -/
def sizedBatch (n : ℕ) (h : n < 2 ^ 32) : RecordBatch :=
  { records := [zeroRecord (n - 61) (by omega)] }

theorem sizedBatch_data {n : ℕ} {h : n < 2 ^ 32} (hn : 61 < n) :
    ∀ r ∈ (sizedBatch n h).records, r.data.isSome ∧ 0 < r.totalSize := by
  intro r hr
  rw [List.mem_singleton.mp hr, zeroRecord_totalSize]
  exact ⟨zeroRecord_data _ _, by omega⟩

theorem serializedSize_sizedBatch {n : ℕ} {h : n < 2 ^ 32} (hn : 61 < n) :
    (sizedBatch n h).serializedSize = n := by
  rw [sizedBatch, serializedSize_zeroRecord]
  omega

/-- The first segment ends with a batch that starts at byte 40960; the third batch does not fit
behind it. -/
def rollingBatches : List RecordBatch :=
  [sizedBatch 40960 (by norm_num), sizedBatch 100 (by norm_num), sizedBatch 40000 large_fits]

/-- INTERNAL: the first two batches share a segment, and the third one is alone in the next. -/
theorem exists_rollingRun : ∃ log stored sb₀ sb₁ sb₂,
    (create ⟨ascii "t", 0⟩ [] 65536).appendAll rollingBatches = some (log, stored) ∧
      Layout log [[sb₀, sb₁]] [sb₂] ∧ sb₂.len = 40000 ∧ log.nextOffset = 3 ∧
      log.activeSegment.baseOffset = 2 ∧
      log.index.entries = [⟨0, 0⟩, ⟨1, 40960⟩, ⟨2, 0⟩] := by
  have hsize₀ : (sizedBatch 40960 (by norm_num)).serializedSize = 40960 :=
    serializedSize_sizedBatch (by norm_num)
  have hsize₁ : (sizedBatch 100 (by norm_num)).serializedSize = 100 :=
    serializedSize_sizedBatch (by norm_num)
  have hsize₂ : (sizedBatch 40000 large_fits).serializedSize = 40000 :=
    serializedSize_sizedBatch (by norm_num)
  obtain ⟨log₁, sb₀, happ₀, ⟨hser₀, -, hcount₀⟩, hlen₀, hseg₁, hfits₀, -⟩ :=
    exists_layout_append (layout_create ⟨ascii "t", 0⟩ [] 65536)
      (b := sizedBatch 40960 (by norm_num)) (sizedBatch_data (by norm_num)) (by omega)
      (le_refl 65536)
  rw [hsize₀] at hlen₀
  have hlay₁ : Layout log₁ [] [sb₀] := hfits₀ (by rw [hsize₀, lenOf_nil]; decide)
  replace hseg₁ : log₁.segmentSize = 65536 := hseg₁
  obtain ⟨log₂, sb₁, happ₁, ⟨hser₁, -, hcount₁⟩, hlen₁, hseg₂, hfits₁, -⟩ :=
    exists_layout_append hlay₁ (b := sizedBatch 100 (by norm_num)) (sizedBatch_data (by norm_num))
      (by omega) (by omega)
  rw [hsize₁] at hlen₁
  have hlay₂ : Layout log₂ [] [sb₀, sb₁] :=
    hfits₁ (by rw [hsize₁, lenOf_cons, lenOf_nil]; omega)
  obtain ⟨log₃, sb₂, happ₂, ⟨hser₂, -, hcount₂⟩, hlen₂, -, -, hrolls⟩ :=
    exists_layout_append hlay₂ (b := sizedBatch 40000 large_fits)
      (sizedBatch_data (by norm_num)) (by omega) (by omega)
  rw [hsize₂] at hlen₂
  have hlay₃ : Layout log₃ [[sb₀, sb₁]] [sb₂] :=
    hrolls (by rw [hsize₂, lenOf_cons, lenOf_cons, lenOf_nil]; omega)
  have hone₀ : sb₀.count = 1 := hcount₀
  have hone₁ : sb₁.count = 1 := hcount₁
  have hone₂ : sb₂.count = 1 := hcount₂
  have hrun : (create ⟨ascii "t", 0⟩ [] 65536).appendAll rollingBatches = some (log₃,
      [(0, sb₀.bytes), (log₁.nextOffset, sb₁.bytes), (log₂.nextOffset, sb₂.bytes)]) :=
    appendAll_cons_iff.mpr ⟨log₁, _, _, _, happ₀, hser₀,
      appendAll_cons_iff.mpr ⟨log₂, _, _, _, happ₁, hser₁,
        appendAll_cons_iff.mpr ⟨log₃, _, _, [], happ₂, hser₂, rfl, rfl⟩, rfl⟩, rfl⟩
  obtain ⟨hb₀, hb₁, hb₂, -⟩ := hlay₃.chained
  have hnext : log₃.nextOffset = 3 := by
    rw [hlay₃.next_eq]
    simp [hone₀, hone₁, hone₂]
  have hactive : log₃.activeSegment.baseOffset = 2 := by
    rw [hlay₃.base_eq]
    simp [hone₀, hone₁]
  have hentries : log₃.index.entries = [⟨0, 0⟩, ⟨1, 40960⟩, ⟨2, 0⟩] := by
    rw [hlay₃.index_eq]
    simp [aligned, hlen₀, hb₀, hb₁, hb₂, hone₀, hone₁]
  exact ⟨log₃, _, sb₀, sb₁, sb₂, hrun, hlay₃, hlen₂, hnext, hactive, hentries⟩

/-- The last entry below offset 1 points to byte 0 of the sealed segment, and a scan of the active
segment starts there too. -/
theorem index_keeps_range_iff_rolled :
    ∃ log stored, (create ⟨ascii "t", 0⟩ [] 65536).appendAll rollingBatches = some (log, stored) ∧
      log.activeSegment.baseOffset = 2 ∧
      (log.index.entries.filter fun e => e.offset < 1).getLast? = some ⟨0, 0⟩ ∧
      scanFrom log (log.index.lookup 1) 1 1024 = scanFrom log 0 1 1024 := by
  obtain ⟨log, stored, sb₀, sb₁, sb₂, hrun, -, -, hnext, hactive, hentries⟩ := exists_rollingRun
  have hlast : (log.index.entries.filter fun e => e.offset < 1).getLast? = some ⟨0, 0⟩ := by
    simp [hentries]
  refine ⟨log, stored, hrun, hactive, hlast, (index_keeps_range_iff _ _ _ (le_refl _) _ log _ hrun
    (by omega) 1 1024).2.mpr (Or.inr (Or.inr fun e he => ?_))⟩
  rw [hlast, Option.some.injEq] at he
  rw [← he]

/-- A read at the offset of the third batch, which is the only one in the active segment, starts
its scan at byte 40960, behind the end of the segment, and returns nothing. -/
theorem index_hides_first_batch_of_segment :
    ∃ log stored, (create ⟨ascii "t", 0⟩ [] 65536).appendAll rollingBatches = some (log, stored) ∧
      log.nextOffset = 3 ∧ log.activeSegment.baseOffset = 2 ∧ (log.read 2 1024).data = none ∧
      ∃ n, scanFrom log 0 2 1024 = some (0, n) := by
  obtain ⟨log, stored, sb₀, sb₁, sb₂, hrun, hlay, hlen, hnext, hactive, hentries⟩ :=
    exists_rollingRun
  have hlookup : log.index.lookup 2 = 40960 := by
    simp [OffsetIndex.lookup, hentries]
  have hactiveSize : log.activeSegment.size = 40000 := by
    rw [hlay.size_eq, lenOf_cons, lenOf_nil, hlen]
  refine ⟨log, stored, hrun, hnext, hactive, ?_,
    scanFrom_zero_first hlay (by omega) (by simp) (by omega) (by omega) 1024⟩
  rw [read_eq_scanFrom, hlookup]
  unfold scanFrom
  rw [if_neg (by omega), hactiveSize]
  rfl

end StrikeMQ.Analysis.SparseIndex
