import StrikeMQ.Analysis.AcknowledgedReads
import StrikeMQ.Analysis.PeekReading
import StrikeMQ.Analysis.PostedRecords

/-!
# Posting messages and looking at them

A partition that is written through the REST interface holds one batch for each post. Read from
the offset that a post was given, with room for as many batches as messages are wanted, the log
returns the batch of that post and the following ones, enough of them for the limit; walked
through record by record, they give the posted messages back, in order, under their offsets and
with their keys and values. Only the timestamp is not the one of the post: it is put together
from the wrong bytes, and comes out right at one instant per batch size.
-/

set_option autoImplicit false

namespace StrikeMQ.Analysis.PostPeek

open StrikeMQ.Lib StrikeMQ.Model StrikeMQ.Model.MessagePeek StrikeMQ.Interface
open StrikeMQ.Interface.StoredBatch
open StrikeMQ.Analysis.BatchSerialization StrikeMQ.Analysis.LogLayout
open StrikeMQ.Analysis.PartitionRead StrikeMQ.Analysis.AcknowledgedReads
open StrikeMQ.Analysis.PeekReading StrikeMQ.Analysis.PostedRecords

/-! ## Histories -/

@[simp]
theorem count_nil : Post.count [] = 0 := rfl

@[simp]
theorem count_cons (p : Post) (ps : List Post) :
    Post.count (p :: ps) = p.messages.length + Post.count ps := by
  simp [Post.count]

@[simp]
theorem count_append (ps qs : List Post) :
    Post.count (ps ++ qs) = Post.count ps + Post.count qs := by
  simp [Post.count]

@[simp]
theorem length_shown (stamp : Post → ℤ) (o : ℤ) (p : Post) :
    (p.shown stamp o).length = p.messages.length :=
  List.length_mapIdx

theorem length_history (stamp : Post → ℤ) (o : ℤ) (ps : List Post) :
    (Post.history stamp o ps).length = Post.count ps := by
  induction ps generalizing o with
  | nil => rfl
  | cons p ps ih => rw [Post.history, List.length_append, length_shown, ih, count_cons]

theorem history_append (stamp : Post → ℤ) (o : ℤ) (ps qs : List Post) :
    Post.history stamp o (ps ++ qs) =
      Post.history stamp o ps ++ Post.history stamp (o + Post.count ps) qs := by
  induction ps generalizing o with
  | nil => simp [Post.history]
  | cons p ps ih =>
    rw [List.cons_append, Post.history, Post.history, ih, count_cons, List.append_assoc,
      Nat.cast_add, Int.add_assoc]

/-- INTERNAL: the messages of a post are the same under two stamps exactly if the stamps agree
on it, as far as any of them is looked at. -/
theorem take_shown_eq_iff (f g : Post → ℤ) (o : ℤ) (p : Post) (n : ℕ) :
    (p.shown f o).take n = (p.shown g o).take n ↔ n = 0 ∨ p.messages = [] ∨ f p = g p := by
  cases hms : p.messages with
  | nil => simp [Post.shown, hms]
  | cons m ms =>
    cases n with
    | zero => simp
    | succ n =>
      constructor
      · intro h
        have hhead := congrArg List.head? h
        simp only [Post.shown, hms, List.mapIdx_cons, List.take_succ_cons, List.head?_cons,
          Option.some.injEq, ShownMessage.mk.injEq] at hhead
        exact Or.inr (Or.inr hhead.2.1)
      · rintro (h | h | h)
        · omega
        · cases h
        · simp only [Post.shown, h]

/-- INTERNAL: **two stamps show the same first messages exactly if they agree on the posts these
come from.** -/
theorem take_history_eq_iff (f g : Post → ℤ) (o : ℤ) (ps : List Post) (n : ℕ) :
    (Post.history f o ps).take n = (Post.history g o ps).take n ↔
      ∀ p ∈ Post.firstPosts n ps, f p = g p := by
  induction ps generalizing o n with
  | nil => simp [Post.history, Post.firstPosts]
  | cons p ps ih =>
    have hlen : ((p.shown f o).take n).length = ((p.shown g o).take n).length := by
      rw [List.length_take, List.length_take, length_shown, length_shown]
    have hsplit : (p.shown f o).take n ++ (Post.history f (o + p.messages.length) ps).take
          (n - p.messages.length) =
        (p.shown g o).take n ++ (Post.history g (o + p.messages.length) ps).take
          (n - p.messages.length) ↔ (n = 0 ∨ p.messages = [] ∨ f p = g p) ∧
        ∀ q ∈ Post.firstPosts (n - p.messages.length) ps, f q = g q := by
      rw [← take_shown_eq_iff, ← ih (o + p.messages.length)]
      exact ⟨fun h => List.append_inj h hlen, fun h => by rw [h.1, h.2]⟩
    rw [Post.history, Post.history, List.take_append, List.take_append, length_shown, length_shown,
      hsplit, Post.firstPosts, List.forall_mem_append]
    apply and_congr_left'
    split
    · next hnone => simp [← or_assoc, hnone]
    · next hsome => simp [← or_assoc, hsome]

/-! ## What is shown of the batches of posts -/

/-- The batches of consecutive posts, the first one at offset `o`. -/
def batchesOf : ℤ → List Post → List WireBatch
  | _, [] => []
  | o, p :: ps => postedBatch o p :: batchesOf (o + p.messages.length) ps

theorem length_batchesOf (o : ℤ) (ps : List Post) : (batchesOf o ps).length = ps.length := by
  induction ps generalizing o with
  | nil => rfl
  | cons p ps ih => rw [batchesOf, List.length_cons, List.length_cons, ih]

theorem take_batchesOf (o : ℤ) (ps : List Post) (k : ℕ) :
    (batchesOf o ps).take k = batchesOf o (ps.take k) := by
  induction ps generalizing o k with
  | nil => simp [batchesOf]
  | cons p ps ih =>
    cases k with
    | zero => rfl
    | succ k => rw [batchesOf, List.take_succ_cons, ih, List.take_succ_cons, batchesOf]

/-- The timestamp that is shown for the messages of a post. -/
def shownStamp (p : Post) : ℤ :=
  misread (postedBatch 0 p)

theorem fits_shownStamp (p : Post) : Fits 8 (shownStamp p) := by
  have h := fits_intOfBe (slice (beInt 4 (postedBatch 0 p).lastOffsetDelta ++
    beInt 8 (postedBatch 0 p).firstTimestamp) 2 8)
  rwa [length_slice, List.length_append, length_beInt, length_beInt] at h

/-- INTERNAL: one record of a post is shown as its message. -/
theorem ofPeeked_message {o stamp : ℤ} (hstamp : Fits 8 stamp) {i : ℕ} (hi : i < 2 ^ 31)
    (hoffset : Fits 8 (o + i)) (p : ℕ) (m : Bytes × Bytes) :
    ShownMessage.ofPeeked (message o stamp p (postedRecord i m)) =
      ⟨o + i, stamp, if m.1 = [] then none else some m.1, m.2⟩ := by
  have hdelta : (postedRecord i m).offsetDelta.val = i := wordOf_of_fits (fits_four_of_lt hi)
  have hkey : (message o stamp p (postedRecord i m)).key =
      if m.1 = [] then none else some m.1 := by
    by_cases hnil : m.1 = []
    · simp [PeekedMessage.key, message, postedRecord, hnil]
    · simp [PeekedMessage.key, message, postedRecord, hnil]
  unfold ShownMessage.ofPeeked
  rw [hkey]
  show (⟨toInt64 (o + (postedRecord i m).offsetDelta.val), toInt64 (stamp + 0), _, m.2⟩ :
    ShownMessage) = _
  rw [hdelta, toInt64_eq_self_iff.mpr hoffset, Int.add_zero, toInt64_eq_self_iff.mpr hstamp]

/-- INTERNAL: the records of a post from its `j`th one on. -/
theorem map_messages {o stamp : ℤ} (hstamp : Fits 8 stamp) (ho : 0 ≤ o) (j p : ℕ)
    (ms : List (Bytes × Bytes)) (hlen : j + ms.length < 2 ^ 31)
    (hoffset : o + (j + ms.length : ℕ) < 2 ^ 63) :
    (messages o stamp p (ms.mapIdx fun i m => postedRecord (j + i) m)).map ShownMessage.ofPeeked =
      ms.mapIdx fun i m => ⟨o + (j + i : ℕ), stamp, if m.1 = [] then none else some m.1, m.2⟩ := by
  induction ms generalizing j p with
  | nil => rfl
  | cons m ms ih =>
    rw [List.length_cons] at hlen hoffset
    have hshift : (fun i => j + (i + 1)) = fun i => j + 1 + i := by
      funext i
      omega
    have hfirst := ofPeeked_message hstamp (show j < 2 ^ 31 by omega)
      (fits_eight_of_bounds (show -2 ^ 63 ≤ o + (j : ℤ) by omega) (by omega)) p m
    have hrest := ih (j + 1) (p + (postedRecord j m).bytes.length) (by omega) (by omega)
    simp only [← congrFun hshift] at hrest
    rw [List.mapIdx_cons, messages, List.map_cons, List.mapIdx_cons, Nat.add_zero, hfirst, hrest]

/-- INTERNAL: **a range of posted batches shows the posted messages**, with the timestamps that
are read. -/
theorem map_rangeMessages {o : ℤ} (ho : 0 ≤ o) (q : ℕ) (ps : List Post)
    (hsize : ∀ p ∈ ps, p.size < 65536) (hmax : o + Post.count ps < 2 ^ 63) :
    (rangeMessages q (batchesOf o ps)).map ShownMessage.ofPeeked =
      Post.history shownStamp o ps := by
  induction ps generalizing o q with
  | nil => rfl
  | cons p ps ih =>
    rw [count_cons] at hmax
    have hcount := length_messages_le p
    have hp := hsize p List.mem_cons_self
    have hbase : (postedBatch o p).baseOffset.val = o :=
      wordOf_of_fits (fits_eight_of_bounds (by omega) (by omega))
    have hrecords : (postedBatch o p).records =
        p.messages.mapIdx fun i m => postedRecord (0 + i) m := by
      simp only [Nat.zero_add]
      rfl
    have hstamp : misread (postedBatch o p) = shownStamp p := rfl
    rw [batchesOf, rangeMessages, List.map_append, hbase, hstamp, hrecords,
      map_messages (fits_shownStamp p) ho 0 (q + 61) p.messages (by omega) (by omega),
      ih (by omega) _ (fun q hq => hsize q (List.mem_cons_of_mem _ hq)) (by push_cast at hmax ⊢; omega),
      Post.history, Post.shown]
    simp only [Nat.zero_add]

/-- INTERNAL: **the timestamp that is shown is the one of the post at one instant only**, which
the number of messages sets. -/
theorem shownStamp_eq_iff {p : Post} (hne : p.messages ≠ []) (hsize : p.size < 65536) :
    shownStamp p = p.now ↔ p.now.val = (p.messages.length - 1) * 0x0001000100010001 := by
  have hcount := length_messages_le p
  have hpos := List.length_pos_iff.mpr hne
  have hlast : (postedBatch 0 p).lastOffsetDelta.val = p.messages.length - 1 :=
    wordOf_of_fits (by constructor <;> norm_num <;> omega)
  have hiff := misread_eq_iff (postedBatch 0 p)
  have hnow : (postedBatch 0 p).firstTimestamp = p.now := rfl
  obtain ⟨hlo, hhi⟩ := p.now.2
  have hsmall : ((p.messages.length : ℤ) - 1) % 2 ^ 16 = p.messages.length - 1 := by omega
  rw [hlast, hnow, hsmall] at hiff
  rw [shownStamp, hiff]
  norm_num at hlo hhi
  omega

/-! ## The log of a partition -/

section Log

variable {tp : TopicPartition}

theorem length_records_batch (tp : TopicPartition) (p : Post) :
    (p.batch tp).records.length = p.messages.length :=
  List.length_mapIdx

/-- INTERNAL: every message takes one offset. -/
theorem nextOffset_of_appendAll {log log' : PartitionLog} {ps : List Post}
    {stored : List (ℤ × Bytes)}
    (hrun : log.appendAll (ps.map (Post.batch tp)) = some (log', stored)) :
    log'.nextOffset = log.nextOffset + Post.count ps := by
  induction ps generalizing log stored with
  | nil =>
    obtain ⟨rfl, -⟩ := appendAll_nil_iff.mp hrun
    simp
  | cons p ps ih =>
    obtain ⟨log₁, base, out, rest, happ, -, hrest, -⟩ := appendAll_cons_iff.mp hrun
    obtain ⟨rfl, buf, -, rfl⟩ := append_eq_some_iff.mp happ
    rw [ih hrest, nextOffset_commit, length_records_batch, count_cons]
    push_cast
    ring

/-- INTERNAL: the stored batches are those of the posts, one behind the other. -/
theorem stored_eq {log log' : PartitionLog} {ps : List Post} {stored : List (ℤ × Bytes)}
    (hsize : ∀ p ∈ ps, p.size < 65536) (ho : 0 ≤ log.nextOffset)
    (hmax : log.nextOffset + Post.count ps < 2 ^ 63)
    (hrun : log.appendAll (ps.map (Post.batch tp)) = some (log', stored)) :
    stored.map Prod.snd = (batchesOf log.nextOffset ps).map WireBatch.bytes := by
  induction ps generalizing log stored with
  | nil =>
    obtain ⟨-, rfl⟩ := appendAll_nil_iff.mp hrun
    rfl
  | cons p ps ih =>
    obtain ⟨log₁, base, out, rest, happ, hser, hrest, rfl⟩ := appendAll_cons_iff.mp hrun
    obtain ⟨rfl, buf, -, rfl⟩ := append_eq_some_iff.mp happ
    rw [count_cons] at hmax
    have hnext := nextOffset_commit log log.nextOffset (p.batch tp) buf
    rw [length_records_batch] at hnext
    have hstored := ih (fun q hq => hsize q (List.mem_cons_of_mem _ hq))
      (by rw [hnext]; omega) (by rw [hnext]; push_cast at hmax ⊢; omega) hrest
    rw [serializeBatch_batch (hsize p List.mem_cons_self) tp
      (fits_eight_of_bounds (by omega) (by omega)), Option.some.injEq] at hser
    rw [hnext] at hstored
    rw [List.map_cons, hstored, batchesOf, List.map_cons, hser]

/-- INTERNAL: posts that stay in one segment have at most half as many messages as it has
bytes. -/
theorem count_le_segmentSize {dir : Bytes} {segmentSize : ℕ} {ps : List Post}
    (hsize : ∀ p ∈ ps, p.size < 65536) {log : PartitionLog} {stored : List (ℤ × Bytes)}
    (hrun : (PartitionLog.create tp dir segmentSize).appendAll (ps.map (Post.batch tp)) =
      some (log, stored)) (hsealed : log.sealed = []) : 2 * Post.count ps ≤ segmentSize := by
  have hbatches : ∀ b ∈ ps.map (Post.batch tp),
      (∀ r ∈ b.records, r.data.isSome ∧ 0 < r.totalSize) ∧ b.serializedSize < 65536 := by
    intro b hb
    obtain ⟨p, hp, rfl⟩ := List.mem_map.mp hb
    exact ⟨exists_bytes_batch (hsize p hp) tp,
      by rw [serializedSize_batch (hsize p hp)]; exact hsize p hp⟩
  obtain ⟨log', stored', hrun', hsizes⟩ := exists_appendAll _ _ hbatches
  obtain ⟨rfl, rfl⟩ : log' = log ∧ stored' = stored := by
    rw [hrun, Option.some.injEq, Prod.mk.injEq] at hrun'
    exact ⟨hrun'.1.symm, hrun'.2.symm⟩
  have hfits := fits_of_sealed (layout_create tp dir segmentSize) hrun hsealed (Nat.zero_le _)
  have hcount : 2 * Post.count ps ≤ (ps.map fun p => ((p.batch tp).serializedSize)).sum := by
    rw [Post.count, ← List.sum_map_mul_left]
    apply List.sum_le_sum
    intro p hp
    have hle := length_messages_le p
    rw [serializedSize_batch (hsize p hp)]
    omega
  rw [hsizes, List.map_map, lenOf_nil, Nat.zero_add] at hfits
  exact le_trans hcount hfits

end Log

/-! ## Reading from the offset of a post -/

/-- INTERNAL: a fetch takes leading batches, until they reach the size asked for. -/
theorem exists_take_shortestRun (m : ℤ) (collected : ℕ) (bs : List Bytes) :
    ∃ k, shortestRun m collected bs = bs.take k ∧
      (k = bs.length ∨ m ≤ (collected + (bs.take k).flatten.length : ℕ)) := by
  induction bs generalizing collected with
  | nil => exact ⟨0, rfl, Or.inl rfl⟩
  | cons b bs ih =>
    rw [shortestRun]
    by_cases hm : m ≤ (collected + b.length : ℕ)
    · rw [if_pos hm]
      exact ⟨1, by simp, Or.inr (by simpa using hm)⟩
    · obtain ⟨k, hk, hreach⟩ := ih (collected + b.length)
      rw [if_neg hm, hk]
      refine ⟨k + 1, rfl, ?_⟩
      rw [List.length_cons, List.take_succ_cons, List.flatten_cons, List.length_append,
        ← Nat.add_assoc]
      exact hreach.imp (fun h => by rw [h]) id

/-- INTERNAL: what a fetch returns exceeds the size asked for by less than a batch. -/
theorem length_shortestRun_lt {m : ℤ} {collected : ℕ} (hm : (collected : ℤ) < m)
    {bs : List Bytes} (hlen : ∀ b ∈ bs, b.length < 65536) :
    (collected + (shortestRun m collected bs).flatten.length : ℕ) < m + 65536 := by
  induction bs generalizing collected with
  | nil =>
    simp [shortestRun]
    omega
  | cons b bs ih =>
    have hb := hlen b List.mem_cons_self
    rw [shortestRun]
    by_cases hreach : m ≤ (collected + b.length : ℕ)
    · rw [if_pos hreach, List.flatten_singleton]
      omega
    · have hrest := ih (show ((collected + b.length : ℕ) : ℤ) < m by omega)
        fun c hc => hlen c (List.mem_cons_of_mem _ hc)
      rw [if_neg hreach, List.flatten_cons, List.length_append, ← Nat.add_assoc]
      exact hrest

theorem batchesOf_append (o : ℤ) (ps qs : List Post) :
    batchesOf o (ps ++ qs) = batchesOf o ps ++ batchesOf (o + Post.count ps) qs := by
  induction ps generalizing o with
  | nil => simp [batchesOf]
  | cons p ps ih =>
    rw [List.cons_append, batchesOf, batchesOf, ih, count_cons, List.cons_append, Nat.cast_add,
      Int.add_assoc]

theorem exists_of_mem_batchesOf {o : ℤ} {ps : List Post} {w : WireBatch}
    (h : w ∈ batchesOf o ps) : ∃ o' p, p ∈ ps ∧ w = postedBatch o' p := by
  induction ps generalizing o with
  | nil => cases h
  | cons p ps ih =>
    rw [batchesOf, List.mem_cons] at h
    rcases h with rfl | h
    · exact ⟨o, p, List.mem_cons_self, rfl⟩
    · obtain ⟨o', q, hq, rfl⟩ := ih h
      exact ⟨o', q, List.mem_cons_of_mem _ hq, rfl⟩

theorem length_lt_of_mem_batchesOf {o : ℤ} {ps : List Post} (hsize : ∀ q ∈ ps, q.size < 65536)
    {w : WireBatch} (hw : w ∈ batchesOf o ps) : w.bytes.length < 65536 := by
  obtain ⟨o', q, hq, rfl⟩ := exists_of_mem_batchesOf hw
  rw [length_bytes_postedBatch (hsize q hq)]
  exact hsize q hq

theorem length_lt_of_mem_map_bytes {o : ℤ} {ps : List Post} (hsize : ∀ q ∈ ps, q.size < 65536) :
    ∀ b ∈ (batchesOf o ps).map WireBatch.bytes, b.length < 65536 :=
  List.forall_mem_map.mpr fun _ hw => length_lt_of_mem_batchesOf hsize hw

/-- INTERNAL: a post with messages makes a batch with records. -/
theorem records_ne_nil_of_mem (tp : TopicPartition) {ps : List Post}
    (hne : ∀ q ∈ ps, q.messages ≠ []) : ∀ b ∈ ps.map (Post.batch tp), b.records ≠ [] := by
  intro b hb hnil
  obtain ⟨q, hq, rfl⟩ := List.mem_map.mp hb
  have hlen := length_records_batch tp q
  rw [hnil, List.length_nil] at hlen
  exact hne q hq (List.length_eq_zero_iff.mp hlen.symm)

theorem length_le_count {ps : List Post} (hne : ∀ p ∈ ps, p.messages ≠ []) :
    ps.length ≤ Post.count ps := by
  induction ps with
  | nil => exact Nat.zero_le _
  | cons p ps ih =>
    have hp := List.length_pos_iff.mpr (hne p List.mem_cons_self)
    have hps := ih fun q hq => hne q (List.mem_cons_of_mem _ hq)
    rw [List.length_cons, count_cons]
    omega

/-- INTERNAL: batches of so many bytes are at least so many. -/
theorem le_length_of_le_flatten {n : ℕ} {bs : List Bytes} (hlen : ∀ b ∈ bs, b.length < 65536)
    (h : n * 65536 ≤ bs.flatten.length) : n ≤ bs.length := by
  have hle : bs.flatten.length ≤ 65536 * bs.length := by
    rw [List.length_flatten]
    have hsum := List.sum_le_card_nsmul (bs.map List.length) 65536 (by
      intro k hk
      obtain ⟨b, hb, rfl⟩ := List.mem_map.mp hk
      exact le_of_lt (hlen b hb))
    rw [List.length_map, smul_eq_mul] at hsum
    omega
  omega

/-- INTERNAL: the first messages are those of enough of the posts. -/
theorem take_history_take (stamp : Post → ℤ) (o : ℤ) {ps : List Post} {k n : ℕ}
    (h : k = ps.length ∨ n ≤ Post.count (ps.take k)) :
    (Post.history stamp o (ps.take k)).take n = (Post.history stamp o ps).take n := by
  rcases h with rfl | h
  · rw [List.take_length]
  · have hsplit := history_append stamp o (ps.take k) (ps.drop k)
    rw [List.take_append_drop] at hsplit
    rw [hsplit, List.take_append_of_le_length (by rw [length_history]; exact h)]

/-- INTERNAL: posted batches are walked through to their end, or until the limit is reached. -/
theorem peekBatches_posts {o : ℤ} {ps : List Post} (hsize : ∀ q ∈ ps, q.size < 65536)
    {seg : Bytes} (hseg : seg = (batchesOf o ps).flatMap WireBatch.bytes)
    (hrange : seg.length + 12 < 2 ^ 32) (n : ℕ) :
    peekBatches seg n seg.length 0 0 = some ((rangeMessages 0 (batchesOf o ps)).take n) := by
  have hshort : ∀ w ∈ batchesOf o ps, w.bytes.length < 2 ^ 31 := by
    intro w hw
    have hlt := length_lt_of_mem_batchesOf hsize hw
    omega
  have hheaders : ∀ w ∈ batchesOf o ps, ∀ r ∈ w.records.dropLast, r.headers = [] := by
    intro w hw r hr
    obtain ⟨o', q, -, rfl⟩ := exists_of_mem_batchesOf hw
    exact headers_postedBatch o' q r (List.dropLast_subset _ hr)
  have hholds : (Memory.ofBytes seg).HoldsAt 0 seg :=
    Memory.holdsAt_zero (by unfold addressSpace; omega) (Memory.holds_ofBytes seg)
  have hrounds : (batchesOf o ps).length ≤ seg.length := by
    rw [hseg]
    refine length_le_length_flatMap fun w _ hnil => ?_
    have hlen := length_bytes w
    rw [hnil, List.length_nil] at hlen
    omega
  have hwalk := peekBatches_of_layout hrange n hshort hheaders (by rw [← hseg]; exact hholds)
    (by rw [← hseg, Nat.zero_add]) hrounds 0
  rwa [Nat.cast_zero, Int.sub_zero, Int.toNat_natCast] at hwalk

/-- INTERNAL: the batches of the first posts end at the offset of the next one. -/
theorem exists_split_stored {stored : List StoredBatch} {front back : List Bytes}
    {before later : List Post} (hbytes : stored.map StoredBatch.bytes = front ++ back)
    (hcounts : stored.map StoredBatch.count = (before ++ later).map fun q => q.messages.length)
    (hlen : front.length = before.length) :
    ∃ pre rest, stored = pre ++ rest ∧ rest.map StoredBatch.bytes = back ∧
      endOffset 0 pre = Post.count before := by
  obtain ⟨pre, rest, rfl, hpre, hrest⟩ := List.map_eq_append_iff.mp hbytes
  have hprelen : pre.length = before.length := by
    rw [← hlen, ← hpre, List.length_map]
  rw [List.map_append, List.map_append] at hcounts
  have hfirst := List.append_inj_left hcounts (by rw [List.length_map, List.length_map, hprelen])
  refine ⟨pre, rest, rfl, hrest, ?_⟩
  rw [endOffset, hfirst, Int.zero_add, Post.count]

section Run

variable {tp : TopicPartition} {dir : Bytes} {segmentSize : ℕ} (hseg : segmentSize < 2 ^ 64)
  {before after : List Post} {p : Post}
  (hsize : ∀ q ∈ before ++ p :: after, q.size < 65536)
  (hne : ∀ q ∈ before ++ p :: after, q.messages ≠ []) {log : PartitionLog}
  {stored : List (ℤ × Bytes)}
  (hrun : (PartitionLog.create tp dir segmentSize).appendAll
    ((before ++ p :: after).map (Post.batch tp)) = some (log, stored))
  (hsealed : log.sealed = [])

include hseg hsize hne hrun hsealed

/-- INTERNAL: a read from the offset of a post returns its batch and the following ones, in
whole, until they reach the size asked for. -/
theorem read_posts {m : ℤ} (hm : 0 < m) (hm' : m + 65536 < 2 ^ 31) :
    ∃ k seg, (log.read (Post.count before) m).data = some seg ∧
      seg = (batchesOf (Post.count before) ((p :: after).take k)).flatMap WireBatch.bytes ∧
      seg.length < m + 65536 ∧ (k = (p :: after).length ∨ m ≤ seg.length) := by
  have hcount := count_le_segmentSize hsize hrun hsealed
  have hzero : (PartitionLog.create tp dir segmentSize).nextOffset = 0 := rfl
  have hstored := stored_eq hsize (by rw [hzero]) (by rw [hzero]; omega) hrun
  have hnext := nextOffset_of_appendAll hrun
  rw [hzero, Int.zero_add] at hnext
  rw [hzero, batchesOf_append, Int.zero_add, List.map_append] at hstored
  obtain ⟨older, active, h, hcounts, hold⟩ :=
    exists_runLayout (records_ne_nil_of_mem tp hne) hrun (Or.inr hsealed)
  obtain rfl := hold hsealed
  have hbase : log.activeSegment.baseOffset = 0 := by
    rw [h.layout.base_eq]
    simp
  rw [List.flatten_nil, List.nil_append, List.map_map] at hcounts
  have hbytes := hstored
  rw [← h.stored_eq, List.map_map] at hbytes
  -- the batch of the post is the first one that starts at its offset or later
  obtain ⟨pre, rest, rfl, hrest, hend⟩ := exists_split_stored hbytes
    (hcounts.trans (List.map_congr_left fun q _ => length_records_batch tp q))
    (by rw [List.length_map, length_batchesOf])
  obtain ⟨sb, post, rfl⟩ : ∃ sb post, rest = sb :: post := by
    cases rest with
    | nil => cases hrest
    | cons sb post => exact ⟨sb, post, rfl⟩
  have hoffset : sb.base = Post.count before := by
    have hchain := h.layout.chained
    rw [List.flatten_nil, List.nil_append, chained_append] at hchain
    rw [← hend]
    exact hchain.2.1
  have hfrom : fromOffset (pre ++ sb :: post) (Post.count before) = sb :: post := by
    rw [← hoffset]
    exact h.fromOffset_eq rfl
  have hbatches : batchesFrom stored (Post.count before) =
      (batchesOf (Post.count before) (p :: after)).map WireBatch.bytes := by
    rw [h.batchesFrom_eq (by omega), hfrom, hrest]
  have hactive : pre ++ sb :: post ≠ [] := by simp
  have hindex : IndexedAt log (pre ++ sb :: post) (Post.count before) :=
    indexedAt_of_le h.layout hactive (by omega) fun heq =>
      lookup_first h.layout (by omega)
  obtain ⟨k, hk, hreach⟩ := exists_take_shortestRun m 0
    ((batchesOf (Post.count before) (p :: after)).map WireBatch.bytes)
  have hshort := length_lt_of_mem_map_bytes (o := Post.count before)
    fun q hq => hsize q (List.mem_append_right before hq)
  have hbound := length_shortestRun_lt (show ((0 : ℕ) : ℤ) < m from hm) hshort
  rw [Nat.zero_add] at hbound
  have hread := h.read_of_fetchFits (s := Post.count before) (m := m) (by omega) (by omega) hindex
    (Or.inl (by rw [hbatches]; omega))
  have hopen : ¬(fromOffset (pre ++ sb :: post) (Post.count before) = [] ∨
      log.nextOffset ≤ Post.count before) := by
    have hpos := List.length_pos_iff.mpr (hne p (List.mem_append_right _ List.mem_cons_self))
    rw [hfrom, hnext, count_append, count_cons]
    simp
    omega
  rw [if_neg hopen, hbatches, hk, ← List.map_take, take_batchesOf] at hread
  rw [hk, ← List.map_take, take_batchesOf] at hbound
  rw [Nat.zero_add, ← List.map_take, take_batchesOf, List.length_map, length_batchesOf] at hreach
  exact ⟨k, _, hread, (List.flatMap_def).symm, hbound, hreach⟩

/-- INTERNAL: **the messages shown from the offset of a post on.** -/
theorem peek_posts {n : ℕ} (hpos : 0 < n) (hle : n ≤ 1000) :
    ∃ found, peek (log.read (Post.count before) (n * 65536)) n = some found ∧
      found.map ShownMessage.ofPeeked =
        (Post.history shownStamp (Post.count before) (p :: after)).take n := by
  have hcount := count_le_segmentSize hsize hrun hsealed
  rw [count_append] at hcount
  obtain ⟨k, seg, hdata, hbytes, hbound, hreach⟩ :=
    read_posts hseg hsize hne hrun hsealed (m := n * 65536) (by omega) (by omega)
  have hlater : ∀ q ∈ (p :: after).take k, q.size < 65536 :=
    fun q hq => hsize q (List.mem_append_right _ (List.mem_of_mem_take hq))
  have hwalk := peekBatches_posts hlater hbytes (by omega) n
  have htaken : Post.count ((p :: after).take k) ≤ Post.count (p :: after) := by
    have hsplit := count_append ((p :: after).take k) ((p :: after).drop k)
    rw [List.take_append_drop] at hsplit
    omega
  have henough : k = (p :: after).length ∨ n ≤ Post.count ((p :: after).take k) := by
    refine hreach.imp_right fun hm => ?_
    -- as many bytes as asked for are at least as many batches as messages are wanted
    have hbatches : n ≤ ((batchesOf (Post.count before) ((p :: after).take k)).map
        WireBatch.bytes).length := by
      apply le_length_of_le_flatten (length_lt_of_mem_map_bytes hlater)
      rw [← List.flatMap_def, ← hbytes]
      omega
    rw [List.length_map, length_batchesOf] at hbatches
    exact le_trans hbatches (length_le_count fun q hq =>
      hne q (List.mem_append_right _ (List.mem_of_mem_take hq)))
  refine ⟨(rangeMessages 0 (batchesOf (Post.count before) ((p :: after).take k))).take n, ?_, ?_⟩
  · rw [peek, hdata]
    exact hwalk
  · rw [List.map_take, map_rangeMessages (by omega) 0 _ hlater (by omega),
      take_history_take _ _ henough]

end Run

end StrikeMQ.Analysis.PostPeek
