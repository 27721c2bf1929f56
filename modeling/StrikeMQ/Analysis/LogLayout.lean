import StrikeMQ.Analysis.BatchSerialization

/-!
# The log is a list of segments of stored batches

`Layout log older active` says that the sealed segments of `log` hold the batches `older`,
one list per segment, and its active segment the batches `active`; that offsets run
through all of them without a gap; and that the index holds, segment after segment, one
entry for each batch that starts at a multiple of 4096 in its own segment. Every `append`
adds one batch to the active list, or to a new active list when the old one is full.
-/

set_option autoImplicit false

namespace StrikeMQ.Analysis.LogLayout

open StrikeMQ.Lib StrikeMQ.Model StrikeMQ.Interface
open StrikeMQ.Interface.StoredBatch StrikeMQ.Analysis.BatchSerialization
open StrikeMQ.Model.PartitionLog (serializeBatch assignOffsets)

/-- The index entries of one segment whose batches start at byte `p`. -/
def aligned : ℕ → List StoredBatch → List IndexEntry
  | _, [] => []
  | p, b :: bs => (if p % 4096 = 0 then [⟨b.base, p⟩] else []) ++ aligned (p + b.len) bs

/-- Base offset and bytes of consecutive segments, the first starting at offset `o`. -/
def segmentsFrom : ℤ → List (List StoredBatch) → List (ℤ × Bytes)
  | _, [] => []
  | o, s :: ss => (o, bytesOf s) :: segmentsFrom (endOffset o s) ss

/-- INTERNAL: the log invariant. -/
structure Layout (log : PartitionLog) (older : List (List StoredBatch))
    (active : List StoredBatch) : Prop where
  sealed_eq : log.sealed.map (fun s => (s.baseOffset, s.data)) = segmentsFrom 0 older
  base_eq : log.activeSegment.baseOffset = endOffset 0 older.flatten
  data_eq : log.activeSegment.data = bytesOf active
  maxSize_eq : log.activeSegment.maxSize = log.segmentSize
  chained : Chained 0 (older.flatten ++ active)
  next_eq : log.nextOffset = endOffset 0 (older.flatten ++ active)
  older_ne : ∀ s ∈ older, s ≠ []
  index_eq : log.index.entries = older.flatMap (aligned 0) ++ aligned 0 active

theorem aligned_append (p : ℕ) (bs cs : List StoredBatch) :
    aligned p (bs ++ cs) = aligned p bs ++ aligned (p + lenOf bs) cs := by
  induction bs generalizing p with
  | nil => simp [aligned]
  | cons b bs ih => simp [aligned, ih, Nat.add_assoc]

/-- INTERNAL: an index entry points at the start of the batch whose base offset it holds. -/
theorem exists_of_mem_aligned {p : ℕ} {bs : List StoredBatch} {e : IndexEntry}
    (he : e ∈ aligned p bs) :
    ∃ pre b post, bs = pre ++ b :: post ∧ e = ⟨b.base, p + lenOf pre⟩ := by
  induction bs generalizing p with
  | nil => simp [aligned] at he
  | cons b bs ih =>
    rw [aligned, List.mem_append] at he
    rcases he with he | he
    · refine ⟨[], b, bs, rfl, ?_⟩
      split at he
      · simpa using he
      · simp at he
    · obtain ⟨pre, c, post, hbs, he⟩ := ih he
      refine ⟨b :: pre, c, post, by rw [hbs]; rfl, ?_⟩
      rw [he, lenOf_cons, Nat.add_assoc]

theorem segmentsFrom_append (o : ℤ) (ss : List (List StoredBatch)) (s : List StoredBatch) :
    segmentsFrom o (ss ++ [s]) = segmentsFrom o ss ++ [(endOffset o ss.flatten, bytesOf s)] := by
  induction ss generalizing o with
  | nil => simp [segmentsFrom]
  | cons t ts ih => simp [segmentsFrom, ih]

/-- INTERNAL: a new log holds nothing. -/
theorem layout_create (tp : TopicPartition) (baseDir : Bytes) (segmentSize : ℕ) :
    Layout (PartitionLog.create tp baseDir segmentSize) [] [] where
  sealed_eq := rfl
  base_eq := rfl
  data_eq := rfl
  maxSize_eq := rfl
  chained := trivial
  next_eq := rfl
  older_ne := by simp
  index_eq := rfl

/-- INTERNAL: no segment is ever deleted, so the log keeps starting at offset 0. -/
theorem startOffset_eq_zero {log : PartitionLog} {older : List (List StoredBatch)}
    {active : List StoredBatch} (h : Layout log older active) : log.startOffset = 0 := by
  have hsealed := h.sealed_eq
  unfold PartitionLog.startOffset PartitionLog.segments
  cases hs : log.sealed with
  | nil =>
    have hold : older = [] := by
      cases older with
      | nil => rfl
      | cons s ss => simp [hs, segmentsFrom] at hsealed
    simpa [hold] using h.base_eq
  | cons s ss =>
    cases older with
    | nil => simp [hs, segmentsFrom] at hsealed
    | cons t ts =>
      simp only [hs, List.map_cons, segmentsFrom, List.cons.injEq, Prod.mk.injEq] at hsealed
      exact hsealed.1.1

/-- INTERNAL: the stored form of the batch an `append` at offset `o` writes. -/
def Stores (o : ℤ) (b : RecordBatch) (sb : StoredBatch) : Prop :=
  serializeBatch (assignOffsets o b) appendBufferSize = some sb.bytes ∧
    sb.base = o ∧ sb.count = b.records.length

/-- INTERNAL: a segment takes the bytes behind its own, or refuses them as a whole. -/
theorem append_cases (s : LogSegment) (buf : Bytes) :
    (s.size + buf.length ≤ s.maxSize ∧
      s.append buf = ({ s with data := s.data ++ buf }, (s.size : ℤ))) ∨
    (s.maxSize < s.size + buf.length ∧ s.append buf = (s, -1)) := by
  unfold LogSegment.append
  by_cases h : s.size + buf.length > s.maxSize
  · exact Or.inr ⟨h, if_pos h⟩
  · exact Or.inl ⟨by omega, if_neg h⟩

/-- INTERNAL: what one `append` does to the log: the bytes go behind the active segment's,
or a fresh segment starts with them when they do not fit. -/
theorem commit_cases (log : PartitionLog) (b : RecordBatch) (buf : Bytes) :
    (log.activeSegment.size + buf.length ≤ log.activeSegment.maxSize ∧
      log.commit b buf = { log with
        activeSegment :=
          { log.activeSegment with data := log.activeSegment.data ++ buf }
        index := if log.activeSegment.size % 4096 = 0
          then log.index.add b.baseOffset log.activeSegment.size else log.index
        nextOffset := b.lastOffset + 1 }) ∨
    (log.activeSegment.maxSize < log.activeSegment.size + buf.length ∧
      (log.commit b buf).sealed = log.sealed ++ [log.activeSegment] ∧
      (log.commit b buf).segmentSize = log.segmentSize ∧
      (buf.length ≤ log.segmentSize →
        log.commit b buf = { log.rollSegment with
          activeSegment := { log.rollSegment.activeSegment with data := buf }
          index := log.index.add b.baseOffset 0
          nextOffset := b.lastOffset + 1 })) := by
  rcases append_cases log.activeSegment buf with ⟨hfit, happ⟩ | ⟨hfull, happ⟩
  · left
    refine ⟨hfit, ?_⟩
    have hnn : ¬ ((log.activeSegment.size : ℤ) < 0) := by omega
    have htm : (log.activeSegment.size : ℤ).tmod 4096 = 0 ↔
        log.activeSegment.size % 4096 = 0 := by
      rw [Int.tmod_eq_emod_of_nonneg (by omega)]
      omega
    unfold PartitionLog.commit PartitionLog.appendBytes
    simp only [happ, if_neg hnn, htm, Int.toNat_natCast]
  · right
    refine ⟨hfull, ?_, ?_, ?_⟩
    · unfold PartitionLog.commit PartitionLog.appendBytes
      simp only [happ]
      rfl
    · unfold PartitionLog.commit PartitionLog.appendBytes
      simp only [happ]
      rfl
    · intro hsz
      have hroll : log.rollSegment.activeSegment.append buf =
          ({ log.rollSegment.activeSegment with data := buf }, 0) := by
        rcases append_cases log.rollSegment.activeSegment buf with ⟨-, h⟩ | ⟨h, -⟩
        · rw [h]
          rfl
        · have hz : log.rollSegment.activeSegment.size = 0 := rfl
          have hm : log.rollSegment.activeSegment.maxSize = log.segmentSize := rfl
          omega
      unfold PartitionLog.commit PartitionLog.appendBytes
      simp only [happ, hroll]
      rfl

namespace Layout

variable {log : PartitionLog} {older : List (List StoredBatch)} {active : List StoredBatch}
  (h : Layout log older active)

include h

theorem size_eq : log.activeSegment.size = lenOf active := by
  unfold LogSegment.size
  rw [h.data_eq, length_bytesOf]

theorem chained_concat {sb : StoredBatch} (hbase : sb.base = log.nextOffset) :
    Chained 0 (older.flatten ++ (active ++ [sb])) := by
  rw [← List.append_assoc, chained_append]
  exact ⟨h.chained, by rw [← h.next_eq]; exact ⟨hbase, trivial⟩⟩

theorem next_concat (sb : StoredBatch) :
    log.nextOffset + sb.count = endOffset 0 (older.flatten ++ (active ++ [sb])) := by
  rw [← List.append_assoc, endOffset_append, ← h.next_eq, endOffset_cons, endOffset_nil]

end Layout

/-- INTERNAL: **the step lemma**. An `append` adds one stored batch to the active list, or
seals the list and starts a new one with the batch; the second case needs a segment size
that a whole batch fits in. -/
theorem layout_append {log log' : PartitionLog} {older : List (List StoredBatch)}
    {active : List StoredBatch} {b : RecordBatch} {base : ℤ} (h : Layout log older active)
    (happ : log.append b = some (log', base)) :
    log'.segmentSize = log.segmentSize ∧ ∃ sb, Stores base b sb ∧
      ((lenOf active + sb.len ≤ log.segmentSize ∧ log'.sealed = log.sealed ∧
          Layout log' older (active ++ [sb])) ∨
        (log.segmentSize < lenOf active + sb.len ∧
          log'.sealed = log.sealed ++ [log.activeSegment] ∧
          (65536 ≤ log.segmentSize → Layout log' (older ++ [active]) [sb]))) := by
  obtain ⟨rfl, out, hser, rfl⟩ := append_eq_some_iff.mp happ
  have hlen := (serializeBatch_spec hser).2.1
  have hcount : (assignOffsets log.nextOffset b).records.length = b.records.length :=
    length_assignOffsets _ _
  let sb : StoredBatch := storedBatch hser
  have hbase : sb.base = log.nextOffset := rfl
  have hcnt : sb.count = b.records.length := hcount
  have hchain := h.chained_concat hbase
  have hnext : (assignOffsets log.nextOffset b).lastOffset + 1 =
      endOffset 0 (older.flatten ++ (active ++ [sb])) := by
    rw [← h.next_concat, hcnt]
    simp [assignOffsets]
  have hsize := h.size_eq
  have hout : sb.len = out.length := rfl
  rcases commit_cases log (assignOffsets log.nextOffset b) out with
    ⟨hfit, hlog⟩ | ⟨hfull, hsealed, hseg, hlog⟩
  · rw [hsize, h.maxSize_eq, ← hout] at hfit
    rw [hlog]
    refine ⟨rfl, sb, ⟨hser, hbase, hcnt⟩, Or.inl ⟨hfit, rfl, ?_⟩⟩
    refine ⟨h.sealed_eq, h.base_eq, ?_, h.maxSize_eq, hchain, hnext, h.older_ne, ?_⟩
    · show log.activeSegment.data ++ out = bytesOf (active ++ [sb])
      rw [bytesOf_append, h.data_eq]
      simp [sb, storedBatch]
    · show (if log.activeSegment.size % 4096 = 0 then _ else log.index).entries = _
      rw [aligned_append, Nat.zero_add, ← List.append_assoc, ← h.index_eq, hsize]
      by_cases hal : lenOf active % 4096 = 0
      · rw [if_pos hal]
        simp [OffsetIndex.add, aligned, hal, hbase, assignOffsets]
      · rw [if_neg hal]
        simp [aligned, hal]
  · rw [hsize, h.maxSize_eq, ← hout] at hfull
    refine ⟨hseg, sb, ⟨hser, hbase, hcnt⟩, Or.inr ⟨hfull, hsealed, fun hbig => ?_⟩⟩
    rw [hlog (by omega)]
    have hne : active ≠ [] := by
      rintro rfl
      simp only [lenOf_nil] at hfull
      omega
    refine ⟨?_, ?_, ?_, rfl, ?_, ?_, ?_, ?_⟩
    · show (log.sealed ++ [log.activeSegment]).map _ = _
      rw [List.map_append, h.sealed_eq, segmentsFrom_append, ← h.base_eq, ← h.data_eq]
      rfl
    · show log.nextOffset = _
      rw [h.next_eq, List.flatten_append]
      simp
    · simp [sb, storedBatch]
    · simpa using hchain
    · simpa using hnext
    · intro s hs
      rcases List.mem_append.mp hs with hs | hs
      · exact h.older_ne s hs
      · rw [List.mem_singleton.mp hs]
        exact hne
    · show (log.index.add _ 0).entries = _
      simp [OffsetIndex.add, h.index_eq, aligned, hbase, assignOffsets]

/-- INTERNAL: a batch smaller than the buffer is appended behind the active segment's, or to a
new segment if it does not fit there. -/
theorem exists_layout_append {log : PartitionLog} {older : List (List StoredBatch)}
    {active : List StoredBatch} (h : Layout log older active) {b : RecordBatch}
    (hdata : ∀ r ∈ b.records, r.data.isSome ∧ 0 < r.totalSize) (hsize : b.serializedSize < 65536)
    (hseg : 65536 ≤ log.segmentSize) :
    ∃ log' sb, log.append b = some (log', log.nextOffset) ∧ Stores log.nextOffset b sb ∧
      sb.len = b.serializedSize ∧ log'.segmentSize = log.segmentSize ∧
      (lenOf active + b.serializedSize ≤ log.segmentSize → Layout log' older (active ++ [sb])) ∧
      (log.segmentSize < lenOf active + b.serializedSize →
        Layout log' (older ++ [active]) [sb]) := by
  obtain ⟨log', out, happ, hser, hlen⟩ := exists_append_of_serializedSize_lt log hdata hsize
  obtain ⟨hsame, sb, hstores, hcases⟩ := layout_append h happ
  have hsb : sb.len = b.serializedSize := by
    rw [← hlen, ← Option.some.inj (hstores.1.symm.trans hser)]
    rfl
  refine ⟨log', sb, happ, hstores, hsb, hsame, ?_⟩
  rcases hcases with ⟨hfit, -, hlay⟩ | ⟨hfull, -, hlay⟩
  · exact ⟨fun _ => hlay, fun hfull => by omega⟩
  · exact ⟨fun hfit => by omega, fun _ => hlay hseg⟩

theorem appendAll_nil_iff {log log' : PartitionLog} {stored : List (ℤ × Bytes)} :
    log.appendAll [] = some (log', stored) ↔ log = log' ∧ [] = stored := by
  simp [PartitionLog.appendAll]

/-- INTERNAL: one round of a sequence of appends. -/
theorem appendAll_cons_iff {log log₂ : PartitionLog} {b : RecordBatch} {bs : List RecordBatch}
    {stored : List (ℤ × Bytes)} :
    log.appendAll (b :: bs) = some (log₂, stored) ↔
      ∃ log₁ base out rest, log.append b = some (log₁, base) ∧
        serializeBatch (assignOffsets base b) appendBufferSize = some out ∧
        log₁.appendAll bs = some (log₂, rest) ∧ stored = (base, out) :: rest := by
  simp only [PartitionLog.appendAll, Option.bind_eq_bind, Option.bind_eq_some_iff,
    Option.pure_def, Option.some.injEq, Prod.mk.injEq, Prod.exists]
  constructor
  · rintro ⟨log₁, base, happ, out, hser, log₂', rest, hrest, rfl, rfl⟩
    exact ⟨log₁, base, out, rest, happ, hser, hrest, rfl⟩
  · rintro ⟨log₁, base, out, rest, happ, hser, hrest, rfl⟩
    exact ⟨log₁, base, happ, out, hser, log₂, rest, hrest, rfl, rfl⟩

/-- INTERNAL: batches smaller than the buffer are all appended, each with its size. -/
theorem exists_appendAll (log : PartitionLog) (bs : List RecordBatch)
    (h : ∀ b ∈ bs, (∀ r ∈ b.records, r.data.isSome ∧ 0 < r.totalSize) ∧
      b.serializedSize < 65536) :
    ∃ log' stored, log.appendAll bs = some (log', stored) ∧
      stored.map (fun p => p.2.length) = bs.map RecordBatch.serializedSize := by
  induction bs generalizing log with
  | nil => exact ⟨log, [], rfl, rfl⟩
  | cons b bs ih =>
    obtain ⟨hdata, hsize⟩ := h b List.mem_cons_self
    obtain ⟨log₁, out, happ, hser, hlen⟩ := exists_append_of_serializedSize_lt log hdata hsize
    obtain ⟨log₂, stored, hrest, hlens⟩ := ih log₁ fun c hc => h c (List.mem_cons_of_mem _ hc)
    refine ⟨log₂, (log.nextOffset, out) :: stored,
      appendAll_cons_iff.mpr ⟨log₁, _, out, stored, happ, hser, hrest, rfl⟩, ?_⟩
    rw [List.map_cons, List.map_cons, hlens, hlen]

/-- INTERNAL: no segment is ever unsealed. -/
theorem sealed_monotone {log log' : PartitionLog} {bs : List RecordBatch}
    {stored : List (ℤ × Bytes)} (h : log.appendAll bs = some (log', stored)) :
    log.sealed <+: log'.sealed := by
  induction bs generalizing log stored with
  | nil =>
    obtain ⟨rfl, -⟩ := appendAll_nil_iff.mp h
    exact List.prefix_rfl
  | cons b bs ih =>
    obtain ⟨log₁, base, out, rest, happ, -, hrest, -⟩ := appendAll_cons_iff.mp h
    obtain ⟨rfl, buf, -, rfl⟩ := append_eq_some_iff.mp happ
    refine List.IsPrefix.trans ?_ (ih hrest)
    rcases commit_cases log (assignOffsets log.nextOffset b) buf with
      ⟨-, hlog⟩ | ⟨-, hsealed, -⟩
    · rw [hlog]
    · rw [hsealed]
      exact ⟨_, rfl⟩

/-- INTERNAL: **the run lemma**. After any appends the log is laid out with the batches it
held before followed by the ones appended, in call order, each under the base offset its
call returned. Runs that roll need a segment size that every batch fits in; runs that do
not roll need nothing. -/
theorem layout_appendAll {log log' : PartitionLog} {older : List (List StoredBatch)}
    {active : List StoredBatch} {bs : List RecordBatch} {stored : List (ℤ × Bytes)}
    (h : Layout log older active) (hrun : log.appendAll bs = some (log', stored))
    (hok : 65536 ≤ log.segmentSize ∨ log'.sealed = log.sealed) :
    ∃ older' active' new, Layout log' older' active' ∧
      older'.flatten ++ active' = older.flatten ++ active ++ new ∧
      new.map (fun s => (s.base, s.bytes)) = stored ∧
      new.map StoredBatch.count = bs.map (fun b => b.records.length) ∧
      (log'.sealed = log.sealed → older' = older) := by
  induction bs generalizing log stored older active with
  | nil =>
    obtain ⟨rfl, rfl⟩ := appendAll_nil_iff.mp hrun
    exact ⟨older, active, [], h, by simp, rfl, rfl, fun _ => rfl⟩
  | cons b bs ih =>
    obtain ⟨log₁, base, out, rest, happ, hser, hrest, rfl⟩ := appendAll_cons_iff.mp hrun
    obtain ⟨hseg, sb, ⟨hsb, hbase, hcount⟩, hcases⟩ := layout_append h happ
    have hout : sb.bytes = out := Option.some.inj (hsb.symm.trans hser)
    have hpre := sealed_monotone hrest
    rcases hcases with ⟨-, hsame, hlay⟩ | ⟨-, hroll, hlay⟩
    · -- the batch went to the active segment
      obtain ⟨older', active', new, hl, hall, hnew, hcnt, hkeep⟩ :=
        ih hlay hrest (by rw [hseg, hsame]; exact hok)
      refine ⟨older', active', sb :: new, hl, ?_, ?_, ?_, ?_⟩
      · rw [hall]
        simp
      · rw [List.map_cons, hnew, hbase, hout]
      · rw [List.map_cons, hcnt, hcount, List.map_cons]
      · rw [← hsame]
        exact hkeep
    · -- the segment was full: the run did roll
      have hgrow : log'.sealed ≠ log.sealed := by
        intro heq
        have hle := hpre.length_le
        rw [heq, hroll, List.length_append] at hle
        simp at hle
      have hbig : 65536 ≤ log.segmentSize := hok.resolve_right hgrow
      obtain ⟨older', active', new, hl, hall, hnew, hcnt, -⟩ :=
        ih (hlay hbig) hrest (Or.inl (by rw [hseg]; exact hbig))
      refine ⟨older', active', sb :: new, hl, ?_, ?_, ?_, fun heq => absurd heq hgrow⟩
      · rw [hall]
        simp
      · rw [List.map_cons, hnew, hbase, hout]
      · rw [List.map_cons, hcnt, hcount, List.map_cons]

/-- INTERNAL: batches that all fit into the active segment do not seal it. -/
theorem sealed_of_fits {log log' : PartitionLog} {older : List (List StoredBatch)}
    {active : List StoredBatch} {bs : List RecordBatch} {stored : List (ℤ × Bytes)}
    (h : Layout log older active) (hrun : log.appendAll bs = some (log', stored))
    (hfits : lenOf active + (stored.map fun p => p.2.length).sum ≤ log.segmentSize) :
    log'.sealed = log.sealed := by
  induction bs generalizing log stored active with
  | nil =>
    obtain ⟨rfl, -⟩ := appendAll_nil_iff.mp hrun
    rfl
  | cons b bs ih =>
    obtain ⟨log₁, base, out, rest, happ, hser, hrest, rfl⟩ := appendAll_cons_iff.mp hrun
    obtain ⟨hseg, sb, ⟨hsb, -, -⟩, hcases⟩ := layout_append h happ
    have hout : sb.len = out.length := by
      rw [← Option.some.inj (hsb.symm.trans hser)]
      rfl
    simp only [List.map_cons, List.sum_cons] at hfits
    rcases hcases with ⟨-, hsame, hlay⟩ | ⟨hfull, -, -⟩
    · rw [← hsame]
      apply ih hlay hrest
      rw [lenOf_append, lenOf_cons, lenOf_nil, hseg]
      omega
    · omega

/-- INTERNAL: what a segment took without being sealed fits into it. -/
theorem fits_of_sealed {log log' : PartitionLog} {older : List (List StoredBatch)}
    {active : List StoredBatch} {bs : List RecordBatch} {stored : List (ℤ × Bytes)}
    (h : Layout log older active) (hrun : log.appendAll bs = some (log', stored))
    (hsealed : log'.sealed = log.sealed) (hfits : lenOf active ≤ log.segmentSize) :
    lenOf active + (stored.map fun p => p.2.length).sum ≤ log.segmentSize := by
  induction bs generalizing log stored active with
  | nil =>
    obtain ⟨-, rfl⟩ := appendAll_nil_iff.mp hrun
    exact hfits
  | cons b bs ih =>
    obtain ⟨log₁, base, out, rest, happ, hser, hrest, rfl⟩ := appendAll_cons_iff.mp hrun
    obtain ⟨hseg, sb, ⟨hsb, -, -⟩, hcases⟩ := layout_append h happ
    have hout : sb.len = out.length := by
      rw [← Option.some.inj (hsb.symm.trans hser)]
      rfl
    rcases hcases with ⟨hroom, hsame, hlay⟩ | ⟨-, hroll, -⟩
    · have hle := ih hlay hrest (by rw [hsame]; exact hsealed)
        (by rw [lenOf_append, lenOf_cons, lenOf_nil, hseg]; omega)
      rw [lenOf_append, lenOf_cons, lenOf_nil, hseg] at hle
      simp only [List.map_cons, List.sum_cons]
      omega
    · -- a sealed segment stays sealed
      have hle := (sealed_monotone hrest).length_le
      rw [hsealed, hroll, List.length_append, List.length_singleton] at hle
      omega

end StrikeMQ.Analysis.LogLayout
