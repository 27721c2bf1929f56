import StrikeMQ.Interface.Consumer
import StrikeMQ.Analysis.AcknowledgedReads

/-!
# Exactly once and in order

The invariant of a run: the log is one segment of stored batches, the consumer has received
a leading part of them, and its position is the offset right behind that part. A fetch
returns the shortest run of the batches that follow, as long as their sizes fit the 32-bit
integers of the scan, so it keeps the invariant; an append adds a batch behind all of them.
-/

set_option autoImplicit false

namespace StrikeMQ.Analysis.SequentialConsumer

open StrikeMQ.Lib StrikeMQ.Model StrikeMQ.Interface
open StrikeMQ.Interface.StoredBatch StrikeMQ.Analysis.BatchSerialization
open StrikeMQ.Analysis.LogLayout StrikeMQ.Analysis.PartitionRead
open StrikeMQ.Analysis.AcknowledgedReads

/-! ## Taking fetched bytes apart -/

/-- INTERNAL: the bytes of stored batches are cut back into the batches. -/
theorem splitBatches_bytesOf (bs : List StoredBatch) (fuel : ℕ) (h : bs.length ≤ fuel) :
    splitBatches fuel (bytesOf bs) = bs.map StoredBatch.bytes := by
  induction bs generalizing fuel with
  | nil =>
    cases fuel with
    | zero => rfl
    | succ fuel => simp [splitBatches]
  | cons b bs ih =>
    cases fuel with
    | zero => simp at h
    | succ fuel =>
      have hlen := b.header_le
      have htotal : 12 + (intOfBe (slice (bytesOf (b :: bs)) 8 4)).toNat = b.bytes.length := by
        rw [bytesOf_cons, slice_append_left _ _ _ _ (by omega), b.batchLength_eq]
        omega
      rw [splitBatches, if_pos (by rw [length_bytesOf, lenOf_cons, len]; omega)]
      simp only [htotal]
      rw [bytesOf_cons, List.take_left, List.drop_left,
        ih fuel (by simpa using h), List.map_cons]

theorem batchesOf_bytesOf (bs : List StoredBatch) :
    batchesOf (bytesOf bs) = bs.map StoredBatch.bytes := by
  unfold batchesOf
  rw [length_bytesOf]
  exact splitBatches_bytesOf bs _ (length_le_lenOf bs)

/-- INTERNAL: the position behind consecutive batches is their end offset. -/
theorem nextPosition_map_bytes {o : ℤ} {bs : List StoredBatch} (hchain : Chained o bs)
    (hbase : ∀ b ∈ bs, toInt64 b.base = b.base) (hcount : ∀ b ∈ bs, b.count < 2 ^ 31) :
    nextPosition o (bs.map StoredBatch.bytes) = endOffset o bs := by
  cases bs using List.reverseRecOn with
  | nil => simp [nextPosition]
  | append_singleton bs b =>
    have hb : b ∈ bs ++ [b] := by simp
    rw [chained_append] at hchain
    have hend : b.base = endOffset o bs := hchain.2.1
    have hsmall := hcount b hb
    unfold nextPosition
    rw [List.map_append, List.map_singleton, List.getLast?_append]
    simp only [List.getLast?_singleton, Option.some_or]
    rw [b.base_eq, b.recordCount_eq, hbase b hb, toInt32_of_fits (by omega) (by omega),
      endOffset_append, endOffset_cons, endOffset_nil, hend]

/-! ## The shortest run -/

/-- INTERNAL: without its last batch a run does not reach the limit yet. -/
theorem shortestRun_dropLast_lt {m : ℤ} {n : ℕ} {bs : List Bytes}
    (h : 2 ≤ (shortestRun m n bs).length) :
    ((n + (shortestRun m n bs).dropLast.flatten.length : ℕ) : ℤ) < m := by
  induction bs generalizing n with
  | nil => simp [shortestRun] at h
  | cons b bs ih =>
    rw [shortestRun] at h ⊢
    by_cases hm : m ≤ (n + b.length : ℕ)
    · rw [if_pos hm] at h
      simp at h
    · rw [if_neg hm] at h ⊢
      cases hrest : shortestRun m (n + b.length) bs with
      | nil => simp [hrest] at h
      | cons c cs =>
        rw [List.dropLast_cons_of_ne_nil (by simp), List.flatten_cons, List.length_append]
        cases cs with
        | nil =>
          simp only [List.dropLast_singleton, List.flatten_nil, List.length_nil]
          omega
        | cons d ds =>
          have hlt := ih (n := n + b.length) (by rw [hrest]; simp)
          rw [hrest] at hlt
          omega

/-! ## Events -/

theorem step_append_iff {c c' : Consumer} {b : RecordBatch} :
    c.step (.append b) = some c' ↔ ∃ log' stored, c.log.appendAll [b] = some (log', stored) ∧
      c' = { c with log := log', appended := c.appended ++ stored } := by
  simp only [Consumer.step, Option.bind_eq_bind, Option.bind_eq_some_iff, Option.pure_def,
    Option.some.injEq, Prod.exists]
  constructor
  · rintro ⟨log', stored, hrun, rfl⟩
    exact ⟨log', stored, hrun, rfl⟩
  · rintro ⟨log', stored, hrun, rfl⟩
    exact ⟨log', stored, hrun, rfl⟩

/-! ## The invariant -/

/-- INTERNAL: the run invariant. -/
structure Inv (c : Consumer) (active pre post : List StoredBatch) : Prop where
  layout : RunLayout c.log c.appended [] active
  count_lt : ∀ b ∈ active, b.count < 2 ^ 31
  split : active = pre ++ post
  received_eq : c.received = pre.map StoredBatch.bytes
  position_eq : c.position = endOffset 0 pre

theorem inv_start (tp : TopicPartition) (baseDir : Bytes) (segmentSize : ℕ) :
    Inv ⟨PartitionLog.create tp baseDir segmentSize, 0, [], []⟩ [] [] [] where
  layout := ⟨layout_create tp baseDir segmentSize, rfl, by simp⟩
  count_lt := by simp
  split := rfl
  received_eq := rfl
  position_eq := by simp

namespace Inv

variable {c : Consumer} {active pre post : List StoredBatch}

theorem chained (h : Inv c active pre post) : Chained 0 pre ∧ Chained (endOffset 0 pre) post := by
  rw [← chained_append, ← h.split]
  simpa using h.layout.layout.chained

theorem count_pos (h : Inv c active pre post) : ∀ b ∈ active, 0 < b.count := fun b hb =>
  h.layout.count_pos b (by simpa using hb)

/-- INTERNAL: the batches from the consumer's position on are those it has not received. -/
theorem fromOffset_position (h : Inv c active pre post) :
    fromOffset active c.position = post := by
  have hpre : ∀ b ∈ pre, 0 < b.count := fun b hb => h.count_pos b (by rw [h.split]; simp [hb])
  rw [h.position_eq, h.split]
  cases post with
  | nil =>
    unfold fromOffset
    rw [List.append_nil, List.dropWhile_eq_nil_iff]
    intro b hb
    simpa using base_lt_endOffset h.chained.1 hpre hb
  | cons b post =>
    have hb : b.base = endOffset 0 pre := h.chained.2.1
    rw [← hb]
    exact fromOffset_split (o := 0) (by rw [chained_append]; exact h.chained) hpre

theorem nextOffset_eq (h : Inv c active pre post) :
    c.log.nextOffset = endOffset c.position post := by
  rw [h.position_eq, ← endOffset_append, ← h.split]
  simpa using h.layout.layout.next_eq

theorem pending_eq (h : Inv c active pre post) :
    batchesFrom c.appended c.position = post.map StoredBatch.bytes := by
  have hA : c.log.activeSegment.baseOffset = 0 := by simpa using h.layout.layout.base_eq
  rw [h.layout.batchesFrom_eq, h.fromOffset_position]
  rw [hA, h.position_eq]
  exact le_endOffset 0 pre

/-- INTERNAL: **what one fetch returns**: the shortest run of the batches not received. -/
theorem fetched_eq (h : Inv c active pre post) (hmax : c.log.nextOffset < 2 ^ 63) {m : ℤ}
    (hfits : c.Fits (.fetch m)) :
    ∃ got, got <+: post ∧ (post ≠ [] → got ≠ []) ∧
      got.map StoredBatch.bytes = shortestRun m 0 (post.map StoredBatch.bytes) ∧
      c.fetched m = bytesOf got := by
  have hA : c.log.activeSegment.baseOffset = 0 := by simpa using h.layout.layout.base_eq
  have hfits' : FetchFits m (batchesFrom c.appended c.position) := hfits
  have hpos : c.log.activeSegment.baseOffset ≤ c.position := by
    rw [hA, h.position_eq]
    exact le_endOffset 0 pre
  unfold Consumer.fetched
  by_cases hpost : post = []
  · -- the consumer is at the end of the log
    subst hpost
    have hend : c.log.nextOffset = c.position := by simpa using h.nextOffset_eq
    refine ⟨[], List.nil_prefix, by simp, rfl, ?_⟩
    unfold PartitionLog.read
    rw [if_pos (le_of_eq hend)]
    rfl
  · have hact : active ≠ [] := by
      rw [h.split]
      simp [hpost]
    have hindex : IndexedAt c.log active c.position :=
      indexedAt_of_le h.layout.layout hact hpos fun heq =>
        lookup_first h.layout.layout (by omega)
    obtain ⟨b, post, rfl⟩ := List.exists_cons_of_ne_nil hpost
    have hlt : c.position < c.log.nextOffset := by
      have hb := h.count_pos b (by rw [h.split]; simp)
      have hle := le_endOffset (c.position + b.count) post
      rw [h.nextOffset_eq, endOffset_cons]
      omega
    have hread := h.layout.read_of_fetchFits hmax hpos hindex hfits'
    rw [h.fromOffset_position, h.pending_eq, if_neg (by simp; omega)] at hread
    rw [h.pending_eq] at hfits'
    have hcollect := (collect_of_fetchFits hfits').1
    refine ⟨collect m 0 (b :: post), collect_isPrefix _ _ _, ?_, hcollect, ?_⟩
    · intro _
      rw [Ne, collect_eq_nil_iff]
      simp
    · rw [hread, ← hcollect, Option.getD_some, bytesOf]

/-- INTERNAL: **a fetch keeps its promise**. -/
theorem exactFetch (h : Inv c active pre post) (hmax : c.log.nextOffset < 2 ^ 63) {m : ℤ}
    (hfits : c.Fits (.fetch m)) : c.ExactFetch m := by
  obtain ⟨got, hpre, hne, hrun, hdata⟩ := h.fetched_eq hmax hfits
  have hbatches : batchesOf (c.fetched m) = got.map StoredBatch.bytes := by
    rw [hdata, batchesOf_bytesOf]
  refine ⟨?_, ?_, ?_, ?_⟩
  · rw [hbatches, hdata]
    rfl
  · have happ : c.appended.map Prod.snd = active.map StoredBatch.bytes := by
      rw [← h.layout.stored_eq]
      simp [Function.comp_def]
    rw [hbatches, h.received_eq, happ, h.split, List.map_append]
    exact (List.prefix_append_right_inj _).mpr (hpre.map _)
  · intro hlen
    rw [hbatches, hrun] at hlen ⊢
    have hlt := shortestRun_dropLast_lt hlen
    simpa using hlt
  · intro hnil
    have hpost : post = [] := by
      by_contra hcon
      have hlen := length_le_lenOf got
      rw [← length_bytesOf, ← hdata, hnil, List.length_nil] at hlen
      exact hne hcon (List.length_eq_zero_iff.mp (by omega))
    rw [h.nextOffset_eq, hpost, endOffset_nil]

/-- INTERNAL: **a fetch keeps the invariant**. -/
theorem fetch (h : Inv c active pre post) (hmax : c.log.nextOffset < 2 ^ 63) {m : ℤ}
    (hfits : c.Fits (.fetch m)) : ∃ pre' post', Inv (c.fetch m) active pre' post' := by
  obtain ⟨got, ⟨more, hmore⟩, -, -, hdata⟩ := h.fetched_eq hmax hfits
  have hbatches : batchesOf (c.fetched m) = got.map StoredBatch.bytes := by
    rw [hdata, batchesOf_bytesOf]
  have hsplit : active = pre ++ got ++ more := by
    rw [h.split, ← hmore, List.append_assoc]
  have hgot : ∀ b ∈ got, b ∈ active := fun b hb => by
    rw [hsplit]
    simp [hb]
  refine ⟨pre ++ got, more, h.layout, h.count_lt, hsplit, ?_, ?_⟩
  · show c.received ++ batchesOf (c.fetched m) = _
    rw [hbatches, h.received_eq, List.map_append]
  · show nextPosition c.position (batchesOf (c.fetched m)) = _
    have hchain := h.chained.2
    rw [← hmore, chained_append] at hchain
    rw [hbatches, h.position_eq, endOffset_append]
    exact nextPosition_map_bytes hchain.1
      (fun b hb => toInt64_base h.layout.layout hmax (hgot b hb))
      (fun b hb => h.count_lt b (hgot b hb))

/-- INTERNAL: **an append keeps the invariant**, unless it seals the segment. -/
theorem append (h : Inv c active pre post) {b : RecordBatch} {c' : Consumer}
    (hstep : c.step (.append b) = some c') (hne : b.records ≠ [])
    (hcount : b.records.length < 2 ^ 31) (hsealed : c'.log.sealed = c.log.sealed) :
    ∃ active' post', Inv c' active' pre post' := by
  obtain ⟨log', stored, hrun, rfl⟩ := step_append_iff.mp hstep
  obtain ⟨older', active', new, hlay, hall, hnew, hcnt, hkeep⟩ :=
    layout_appendAll h.layout.layout hrun (Or.inr hsealed)
  obtain rfl := hkeep hsealed
  have hact : active' = active ++ new := by simpa using hall
  have hnewcount : ∀ d ∈ new, d.count = b.records.length := by
    intro d hd
    have hmem : d.count ∈ [b].map (fun b => b.records.length) := by
      rw [← hcnt]
      exact List.mem_map_of_mem hd
    simpa using hmem
  have hpos : 0 < b.records.length := List.length_pos_iff.mpr hne
  refine ⟨active', post ++ new, ⟨⟨hlay, ?_, ?_⟩, ?_, ?_, h.received_eq, h.position_eq⟩⟩
  · rw [hact, ← h.layout.stored_eq, ← hnew]
    simp
  · intro d hd
    rw [hact] at hd
    rcases List.mem_append.mp (by simpa using hd : d ∈ active ++ new) with hd | hd
    · exact h.count_pos d hd
    · rw [hnewcount d hd]
      exact hpos
  · intro d hd
    rw [hact] at hd
    rcases List.mem_append.mp hd with hd | hd
    · exact h.count_lt d hd
    · rw [hnewcount d hd]
      exact hcount
  · rw [hact, h.split, List.append_assoc]

end Inv

/-! ## Runs -/

theorem run_cons_iff {c c' : Consumer} {e : ConsumerEvent} {es : List ConsumerEvent} :
    c.run (e :: es) = some c' ↔ ∃ c₁, c.step e = some c₁ ∧ c₁.run es = some c' :=
  foldlM_cons_eq_some_iff

/-- INTERNAL: no event unseals a segment or takes offsets back. -/
theorem step_grows {c c' : Consumer} {e : ConsumerEvent} (h : c.step e = some c') :
    c.log.sealed <+: c'.log.sealed ∧ c.log.nextOffset ≤ c'.log.nextOffset := by
  cases e with
  | fetch m =>
    obtain rfl : c.fetch m = c' := by simpa [Consumer.step] using h
    exact ⟨List.prefix_rfl, le_refl _⟩
  | append b =>
    obtain ⟨log', stored, hrun, rfl⟩ := step_append_iff.mp h
    refine ⟨sealed_monotone hrun, ?_⟩
    obtain ⟨log₁, base, out, rest, happ, -, hrest, -⟩ := appendAll_cons_iff.mp hrun
    obtain ⟨rfl, -⟩ := appendAll_nil_iff.mp hrest
    obtain ⟨rfl, buf, -, rfl⟩ := append_eq_some_iff.mp happ
    show c.log.nextOffset ≤ (c.log.commit _ buf).nextOffset
    rw [nextOffset_commit]
    omega

theorem run_grows {c c' : Consumer} {es : List ConsumerEvent} (h : c.run es = some c') :
    c.log.sealed <+: c'.log.sealed ∧ c.log.nextOffset ≤ c'.log.nextOffset := by
  refine foldlM_invariant
    (P := fun d => c.log.sealed <+: d.log.sealed ∧ c.log.nextOffset ≤ d.log.nextOffset)
    ?_ ⟨List.prefix_rfl, le_refl _⟩ h
  intro c₁ e c₂ h₁ hstep
  have h₂ := step_grows hstep
  exact ⟨h₁.1.trans h₂.1, le_trans h₁.2 h₂.2⟩

/-- INTERNAL: **the run lemma**: a run that seals no segment keeps the invariant. -/
theorem inv_run {c c' : Consumer} {active pre post : List StoredBatch}
    {es : List ConsumerEvent} (h : Inv c active pre post) (hrun : c.run es = some c')
    (hbatch : ∀ b, .append b ∈ es → b.records ≠ [] ∧ b.records.length < 2 ^ 31)
    (hfits : c.RunFits es) (hsealed : c'.log.sealed = []) (hmax : c'.log.nextOffset < 2 ^ 63) :
    ∃ active' pre' post', Inv c' active' pre' post' := by
  induction es generalizing c active pre post with
  | nil =>
    obtain rfl : c = c' := by simpa [Consumer.run] using hrun
    exact ⟨active, pre, post, h⟩
  | cons e es ih =>
    obtain ⟨c₁, hstep, hrest⟩ := run_cons_iff.mp hrun
    have hgrow₁ := step_grows hstep
    have hgrow₂ := run_grows hrest
    have hsealed₁ : c₁.log.sealed = [] := List.prefix_nil.mp (hsealed ▸ hgrow₂.1)
    have hsealed₀ : c.log.sealed = [] := List.prefix_nil.mp (hsealed₁ ▸ hgrow₁.1)
    have hrestfits := hfits.2 c₁ hstep
    have hrestbatch : ∀ b, .append b ∈ es → b.records ≠ [] ∧ b.records.length < 2 ^ 31 :=
      fun b hb => hbatch b (List.mem_cons_of_mem _ hb)
    cases e with
    | fetch m =>
      obtain rfl : c.fetch m = c₁ := by simpa [Consumer.step] using hstep
      obtain ⟨pre', post', hinv⟩ := h.fetch (by omega) hfits.1
      exact ih hinv hrest hrestbatch hrestfits
    | append b =>
      obtain ⟨hne, hcount⟩ := hbatch b List.mem_cons_self
      obtain ⟨active', post', hinv⟩ :=
        h.append hstep hne hcount (by rw [hsealed₁, hsealed₀])
      exact ih hinv hrest hrestbatch hrestfits

/-- PROPERTY: in every run of appends of non-empty batches that stay in the first segment,
interleaved in any order with fetches of any limits by a consumer that started at position
0, every fetch returns whole batches, receives exactly the next part of what was appended,
stops as soon as the limit is reached, and is empty only at the end of the log, as long as
the sizes the fetches go through fit the log's 32-bit integers.
SOURCE: storage/partition_log.h:87-98, 117-190 -/
theorem consumer_receives_exactly_once_in_order (tp : TopicPartition) (baseDir : Bytes)
    (segmentSize : ℕ) (events : List ConsumerEvent) (c : Consumer)
    (hrun : Consumer.run ⟨PartitionLog.create tp baseDir segmentSize, 0, [], []⟩ events = some c)
    (hbatch : ∀ b, .append b ∈ events →
      b.records ≠ [] ∧ b.serializedSize < 65536 ∧ b.records.length < 2 ^ 31)
    (hsealed : c.log.sealed = []) (hmax : c.log.nextOffset < 2 ^ 63)
    (hfits : Consumer.RunFits ⟨PartitionLog.create tp baseDir segmentSize, 0, [], []⟩ events)
    (m : ℤ) (hm : c.Fits (.fetch m)) : c.ExactFetch m := by
  obtain ⟨active, pre, post, hinv⟩ := inv_run (inv_start tp baseDir segmentSize) hrun
    (fun b hb => ⟨(hbatch b hb).1, (hbatch b hb).2.2⟩) hfits hsealed hmax
  exact hinv.exactFetch hmax hm

/-- A consumer at the start of an empty log. -/
def startConsumer (segmentSize : ℕ) : Consumer :=
  ⟨PartitionLog.create ⟨[], 0⟩ [] segmentSize, 0, [], []⟩

/-- Three batches, with a fetch after the first of them. -/
def interleaved : List ConsumerEvent :=
  [.append smallBatch, .fetch 16, .append smallBatch, .append smallBatch]

theorem interleaved_isSome : ((startConsumer 65536).run interleaved).isSome := by
  decide +kernel

theorem firstAppend_isSome : ((startConsumer 65536).step (.append smallBatch)).isSome := by
  decide +kernel

/-- INTERNAL: the fetch goes through the size of one batch. -/
theorem interleaved_fits : (startConsumer 65536).RunFits interleaved := by
  refine ⟨trivial, fun c hc => ⟨?_, fun _ _ => ⟨trivial, fun _ _ => ⟨trivial, fun _ _ => trivial⟩⟩⟩⟩
  obtain rfl := Option.get_of_eq_some firstAppend_isSome hc
  exact Or.inl (by decide +kernel)

/-- A consumer that has received the first of three batches fetches exactly the second one. -/
theorem consumer_receives_exactly_once_in_order_interleaved :
    ∃ c, (startConsumer 65536).run interleaved = some c ∧ c.appended.length = 3 ∧
      c.received.length = 1 ∧ (batchesOf (c.fetched 16)).length = 1 ∧ c.ExactFetch 16 := by
  refine ⟨_, (Option.some_get interleaved_isSome).symm, by decide +kernel, by decide +kernel,
    by decide +kernel, ?_⟩
  refine consumer_receives_exactly_once_in_order ⟨[], 0⟩ [] 65536 interleaved _
    (Option.some_get interleaved_isSome).symm ?_ (by decide +kernel) (by decide +kernel)
    interleaved_fits 16 (Or.inl (by decide +kernel))
  intro b hb
  obtain rfl : b = smallBatch := by simpa [interleaved] using hb
  decide +kernel

/-! ## Past two gigabytes -/

/-- INTERNAL: a run of appends, seen from the consumer. -/
theorem run_map_append {c : Consumer} {bs : List RecordBatch} {log' : PartitionLog}
    {stored : List (ℤ × Bytes)} (h : c.log.appendAll bs = some (log', stored)) :
    c.run (bs.map .append) = some { c with log := log', appended := c.appended ++ stored } := by
  induction bs generalizing c stored with
  | nil =>
    obtain ⟨rfl, rfl⟩ := appendAll_nil_iff.mp h
    simp [Consumer.run]
  | cons b bs ih =>
    obtain ⟨log₁, base, out, rest, happ, hser, hrest, rfl⟩ := appendAll_cons_iff.mp h
    have hone : c.log.appendAll [b] = some (log₁, [(base, out)]) :=
      appendAll_cons_iff.mpr ⟨log₁, base, out, [], happ, hser, rfl, rfl⟩
    refine run_cons_iff.mpr ⟨_, step_append_iff.mpr ⟨log₁, _, hone, rfl⟩, ?_⟩
    rw [ih hrest]
    simp

/-- INTERNAL: batches of one size are all collected when no size on the way stops the scan. -/
theorem collect_uniform {m : ℤ} {n size : ℕ} {bs : List StoredBatch}
    (hsize : ∀ b ∈ bs, b.len = size)
    (hgo : ∀ k, 0 < k → k < bs.length → toInt32 (n + k * size : ℕ) < m) :
    collect m n bs = bs := by
  induction bs generalizing n with
  | nil => rfl
  | cons b bs ih =>
    have hb := hsize b List.mem_cons_self
    have hrest : collect m (n + size) bs = bs := by
      apply ih fun c hc => hsize c (List.mem_cons_of_mem _ hc)
      intro k hk hlt
      have := hgo (k + 1) (by omega) (by simpa using hlt)
      rwa [show n + (k + 1) * size = n + size + k * size by ring] at this
    rw [collect, hb, hrest]
    by_cases hnil : bs = []
    · rw [hnil]
      split <;> rfl
    · have := hgo 1 (by omega) (by
        have := List.length_pos_iff.mpr hnil
        rw [List.length_cons]
        omega)
      rw [one_mul] at this
      rw [if_neg (by omega)]

/-- A batch of the largest size the buffer takes. -/
def fullBatch : RecordBatch :=
  { records := [zeroRecord 65474 (by norm_num)] }

theorem fullBatch_fits : (∀ r ∈ fullBatch.records, r.data.isSome ∧ 0 < r.totalSize) ∧
    fullBatch.serializedSize < 65536 := by
  refine ⟨?_, by rw [fullBatch, serializedSize_zeroRecord]; norm_num⟩
  intro r hr
  rw [List.mem_singleton.mp hr, zeroRecord_totalSize]
  exact ⟨zeroRecord_data _ _, by norm_num⟩

/-- INTERNAL: after `n` full batches that share a segment, a fetch whose limit is not met by
any of the sizes on the way, as `int32_t` values, returns all of them. -/
theorem fetched_fullBatches (n segmentSize : ℕ) (m : ℤ) (hn : 0 < n)
    (hseg : n * 65535 ≤ segmentSize) (hlt : n * 65535 < 2 ^ 32)
    (hgo : ∀ k, 0 < k → k < n → toInt32 (k * 65535 : ℕ) < m) :
    ∃ c active, (startConsumer segmentSize).run (List.replicate n (.append fullBatch)) = some c ∧
      c.log.sealed = [] ∧ active.length = n ∧ (∀ b ∈ active, b.bytes.length = 65535) ∧
      c.fetched m = bytesOf active := by
  have hfull : fullBatch.serializedSize = 65535 := serializedSize_zeroRecord 65474 (by norm_num)
  obtain ⟨log, stored, hrun, hlens⟩ := exists_appendAll (startConsumer segmentSize).log
    (List.replicate n fullBatch)
    (fun b hb => by rw [List.eq_of_mem_replicate hb]; exact fullBatch_fits)
  rw [List.map_replicate, hfull] at hlens
  have hsealed : log.sealed = [] :=
    sealed_of_fits (layout_create ⟨[], 0⟩ [] segmentSize) hrun (by
      rw [hlens, List.sum_replicate, lenOf_nil, Nat.zero_add]
      exact hseg)
  obtain ⟨older, active, h, hcounts, hsingle⟩ := exists_runLayout
    (fun b hb => by rw [List.eq_of_mem_replicate hb]; simp [fullBatch]) hrun (Or.inr hsealed)
  obtain rfl := hsingle hsealed
  rw [List.flatten_nil, List.nil_append, List.map_replicate] at hcounts
  have hstored : active.map (fun b => (b.base, b.bytes)) = stored := by
    simpa using h.stored_eq
  -- sizes and number of the stored batches
  have hbytes : active.map StoredBatch.len = List.replicate n 65535 := by
    rw [← hlens, ← hstored, List.map_map]
    rfl
  have hlen : ∀ b ∈ active, b.len = 65535 := fun b hb =>
    List.eq_of_mem_replicate (hbytes ▸ List.mem_map_of_mem hb)
  have hnum : active.length = n := by
    simpa using congrArg List.length hbytes
  have htotal : lenOf active = n * 65535 := by
    unfold lenOf
    rw [hbytes, List.sum_replicate, smul_eq_mul]
  have hnext : log.nextOffset = n := by
    have hone : fullBatch.records.length = 1 := rfl
    rw [h.layout.next_eq, endOffset, List.flatten_nil, List.nil_append, hcounts, hone]
    simp
  -- the scan starts at the first batch and takes them all
  have hact : active ≠ [] := by
    rintro rfl
    simp at hnum
    omega
  have hA : log.activeSegment.baseOffset = 0 := by simpa using h.layout.base_eq
  have hindex : IndexedAt log active 0 :=
    indexedAt_of_le h.layout hact (le_of_eq hA) fun _ => lookup_first h.layout (le_refl 0)
  have hfrom : fromOffset active 0 = active := by
    unfold fromOffset
    rw [List.dropWhile_eq_self_iff]
    intro hpos
    have hmem := h.layout.chained.base_mem (b := active[0]) (by simp)
    simp only [decide_eq_true_eq, not_lt]
    exact hmem.1
  have hall : collect m 0 active = active := by
    apply collect_uniform hlen
    intro k hk hkn
    rw [Nat.zero_add]
    exact hgo k hk (by omega)
  have hread := read_refines m h.layout (by omega) hindex
  rw [hfrom, hall, if_neg (by simp [hact]; omega), htotal, toUInt32_of_lt hlt, ← htotal,
    ← length_bytesOf, List.take_length] at hread
  refine ⟨{ startConsumer segmentSize with log := log, appended := [] ++ stored }, active, ?_,
    hsealed, hnum, hlen, ?_⟩
  · have hall' := run_map_append (c := startConsumer segmentSize) hrun
    rw [List.map_replicate] at hall'
    exact hall'
  · show (log.read 0 m).data.getD [] = _
    rw [hread, Option.getD_some]

/-- In a segment of 4 GiB a fetch of the largest limit goes on past it: at `2^31` bytes the
collected size turns negative, and the scan does not stop at 32769 full batches. -/
theorem consumer_fetch_exceeds_limit :
    ∃ c, (startConsumer (2 ^ 32)).run (List.replicate 32770 (.append fullBatch)) = some c ∧
      (fullBatch.records ≠ [] ∧ fullBatch.serializedSize < 65536) ∧ c.log.sealed = [] ∧
      ¬ c.ExactFetch (2 ^ 31 - 1) := by
  have hgo : ∀ k, 0 < k → k < 32770 → toInt32 (k * 65535 : ℕ) < 2 ^ 31 - 1 := by
    intro k _ hk
    rcases Nat.lt_or_ge k 32769 with hlt | hge
    · rw [toInt32_of_fits (by omega) (by omega)]
      omega
    · obtain rfl : k = 32769 := by omega
      decide
  obtain ⟨c, active, hrun, hsealed, hnum, hlen, hdata⟩ :=
    fetched_fullBatches 32770 (2 ^ 32) (2 ^ 31 - 1) (by norm_num) (by norm_num)
      (by norm_num) hgo
  refine ⟨c, hrun, ⟨by simp [fullBatch], fullBatch_fits.2⟩, hsealed, fun hexact => ?_⟩
  have hbatches := batchesOf_bytesOf active
  have hbound := hexact.bounded
  rw [hdata, hbatches, List.length_map, hnum] at hbound
  have hdrop : (active.map StoredBatch.bytes).dropLast.flatten.length = 32769 * 65535 := by
    rw [← List.map_dropLast, List.length_flatten, List.map_map]
    have hconst : ∀ n ∈ active.dropLast.map (List.length ∘ StoredBatch.bytes), n = 65535 := by
      intro n hn
      obtain ⟨b, hb, rfl⟩ := List.mem_map.mp hn
      exact hlen b ((List.dropLast_sublist active).subset hb)
    rw [List.sum_eq_card_nsmul _ _ hconst, List.length_map, List.length_dropLast, hnum,
      smul_eq_mul]
  have := hbound (by norm_num)
  rw [hdrop] at this
  norm_num at this

end StrikeMQ.Analysis.SequentialConsumer
