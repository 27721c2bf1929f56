import StrikeMQ.Analysis.PostPeek
import StrikeMQ.Analysis.ProduceAnswers

/-!
# Requests to the REST producer, and what a consumer sees of them

One request after the other goes to the same partition of a broker. Each one that carries
messages appends one batch and is answered with the offset of its first message; the others
change nothing. From each offset that was given out, the messages posted from there on can be
looked at.
-/

set_option autoImplicit false

namespace StrikeMQ.Analysis.PostRequests

open StrikeMQ.Lib StrikeMQ.Model StrikeMQ.Model.MessagePeek StrikeMQ.Interface
open StrikeMQ.Analysis.BatchSerialization StrikeMQ.Analysis.LogLayout
open StrikeMQ.Analysis.PeekReading
open StrikeMQ.Analysis.PostedRecords StrikeMQ.Analysis.PostPeek
open StrikeMQ.Analysis.ResponseSize StrikeMQ.Analysis.ProduceAnswers

/-! ## Posts without messages -/

/-- The posts that become batches. -/
def nonempty (ps : List Post) : List Post :=
  ps.filter fun p => p.messages ≠ []

theorem nonempty_cons_of_nil {p : Post} (h : p.messages = []) (ps : List Post) :
    nonempty (p :: ps) = nonempty ps := by
  simp [nonempty, h]

theorem nonempty_cons_of_ne {p : Post} (h : p.messages ≠ []) (ps : List Post) :
    nonempty (p :: ps) = p :: nonempty ps := by
  simp [nonempty, h]

theorem nonempty_append (ps qs : List Post) :
    nonempty (ps ++ qs) = nonempty ps ++ nonempty qs :=
  List.filter_append ..

theorem mem_nonempty {p : Post} {ps : List Post} :
    p ∈ nonempty ps ↔ p ∈ ps ∧ p.messages ≠ [] := by
  simp [nonempty]

theorem count_nonempty (ps : List Post) : Post.count (nonempty ps) = Post.count ps := by
  induction ps with
  | nil => rfl
  | cons p ps ih =>
    by_cases h : p.messages = []
    · rw [nonempty_cons_of_nil h, ih, count_cons, h, List.length_nil, Nat.zero_add]
    · rw [nonempty_cons_of_ne h, count_cons, count_cons, ih]

theorem history_nonempty (stamp : Post → ℤ) (o : ℤ) (ps : List Post) :
    Post.history stamp o (nonempty ps) = Post.history stamp o ps := by
  induction ps generalizing o with
  | nil => rfl
  | cons p ps ih =>
    by_cases h : p.messages = []
    · have hnone : p.shown stamp o = [] := by rw [Post.shown, h, List.mapIdx_nil]
      rw [nonempty_cons_of_nil h, ih, Post.history, hnone, h, List.nil_append, List.length_nil,
        Nat.cast_zero, Int.add_zero]
    · rw [nonempty_cons_of_ne h, Post.history, Post.history, ih]

/-! ## One request -/

variable {tp : TopicPartition} {b : Broker}

theorem find_afterAppend (b : Broker) (tp : TopicPartition) (log : PartitionLog) :
    (afterAppend b tp log).shardedLogs.find tp = some log :=
  ShardedLogMap.find_put_self _ _ _

theorem getOrCreateLog_of_find {log : PartitionLog} (h : b.shardedLogs.find tp = some log) :
    (b.getOrCreateLog tp).1 = log := by
  simp only [Broker.getOrCreateLog, ShardedLogMap.getOrCreate, h]

/-- INTERNAL: a request without messages is refused. -/
theorem handle_of_nil {r : PostRequest} (h : r.post.messages = []) :
    (r.handle tp (some b)).2 = some b := by
  have hmessages : jsonExtractMessages r.req.body = [] := h
  unfold PostRequest.handle Broker.handlePostMessages
  by_cases hbody : r.req.body = []
  · simp only [hbody, if_true]
  · simp only [hbody, hmessages, if_false, if_true]

/-- INTERNAL: a request with messages is answered with what `append` returned. -/
theorem handle_of_append {r : PostRequest} (hfor : r.IsFor tp) (hne : r.post.messages ≠ [])
    {log : PartitionLog} {base : ℤ}
    (happ : (b.getOrCreateLog tp).1.append (r.post.batch tp) = some (log, base)) :
    r.handle tp (some b) = (HttpServer.postedResponse tp base r.post.messages.length,
      some (afterAppend b tp log)) := by
  have hmessages : jsonExtractMessages r.req.body ≠ [] := hne
  have hbody : r.req.body ≠ [] := by
    intro hnil
    rw [hnil] at hmessages
    exact hmessages rfl
  have hlength : (r.post.batch tp).records.length = r.post.messages.length := List.length_mapIdx
  have hpost : r.handle tp (some b) = b.postBatch (r.post.batch tp) := by
    have hpartition : HttpServer.partitionParam r.req = some tp.partition := hfor
    unfold PostRequest.handle Broker.handlePostMessages
    simp only [hbody, hmessages, hpartition, if_false]
    rfl
  have htp : (r.post.batch tp).topicPartition = tp := rfl
  rw [hpost, ← hlength]
  simp only [Broker.postBatch, htp, happ]
  rfl

/-- INTERNAL: a small batch is appended. -/
theorem exists_append_post (tp : TopicPartition) {p : Post} (hsize : p.size < 65536) (log : PartitionLog) :
    ∃ log' out, log.append (p.batch tp) = some (log', log.nextOffset) ∧
      PartitionLog.serializeBatch (PartitionLog.assignOffsets log.nextOffset (p.batch tp))
        appendBufferSize = some out := by
  obtain ⟨log', out, happ, hser, -⟩ := exists_append_of_serializedSize_lt log
    (exists_bytes_batch hsize tp) (by rw [serializedSize_batch hsize]; exact hsize)
  exact ⟨log', out, happ, hser⟩

/-! ## A run of requests -/

/-- INTERNAL: **the requests to a partition append their batches to its log**, one after the
other, those without messages apart. -/
theorem exists_handleAll (b : Broker) {rs : List PostRequest} (hfor : ∀ r ∈ rs, r.IsFor tp)
    (hsize : ∀ r ∈ rs, r.post.size < 65536) :
    ∃ b' log stored, PostRequest.handleAll tp rs (some b) = some b' ∧
      (b.getOrCreateLog tp).1.appendAll ((nonempty (rs.map PostRequest.post)).map (Post.batch tp)) =
        some (log, stored) ∧
      (b'.shardedLogs.find tp = some log ∨
        nonempty (rs.map PostRequest.post) = [] ∧ b' = b) := by
  induction rs generalizing b with
  | nil => exact ⟨b, _, [], rfl, rfl, Or.inr ⟨rfl, rfl⟩⟩
  | cons r rs ih =>
    have hfor' : ∀ r' ∈ rs, r'.IsFor tp := fun r' hr' => hfor r' (List.mem_cons_of_mem _ hr')
    have hsize' : ∀ r' ∈ rs, r'.post.size < 65536 :=
      fun r' hr' => hsize r' (List.mem_cons_of_mem _ hr')
    rw [List.map_cons, PostRequest.handleAll, List.foldl_cons]
    by_cases hmessages : r.post.messages = []
    · rw [nonempty_cons_of_nil hmessages, handle_of_nil hmessages]
      exact ih b hfor' hsize'
    · obtain ⟨log₁, out, happ, hser⟩ := exists_append_post tp (hsize r List.mem_cons_self)
        (b.getOrCreateLog tp).1
      obtain ⟨b', log, stored, hall, hrun, hfind⟩ := ih (afterAppend b tp log₁) hfor' hsize'
      rw [getOrCreateLog_of_find (find_afterAppend b tp log₁)] at hrun
      rw [nonempty_cons_of_ne hmessages,
        handle_of_append (hfor r List.mem_cons_self) hmessages happ]
      refine ⟨b', log, _, hall, appendAll_cons_iff.mpr ⟨log₁, _, out, stored, happ, hser, hrun, rfl⟩,
        Or.inl ?_⟩
      rcases hfind with hfind | ⟨hnone, rfl⟩
      · exact hfind
      · -- the request was the last one with messages
        rw [hnone] at hrun
        obtain ⟨rfl, -⟩ := appendAll_nil_iff.mp hrun
        exact find_afterAppend b tp log₁

/-- INTERNAL: the timestamps apart, a history is the same under all stamps. -/
theorem map_history (stamp : Post → ℤ) (t o : ℤ) (ps : List Post) :
    (Post.history stamp o ps).map (fun m => { m with timestamp := t }) =
      Post.history (fun _ => t) o ps := by
  induction ps generalizing o with
  | nil => rfl
  | cons p ps ih =>
    rw [Post.history, Post.history, List.map_append, ih]
    congr 1
    apply List.ext_getElem?
    intro i
    rw [Post.shown, Post.shown, List.getElem?_map, List.getElem?_mapIdx, List.getElem?_mapIdx,
      Option.map_map]
    rfl

theorem mem_firstPosts {n : ℕ} {ps : List Post} {q : Post} (h : q ∈ Post.firstPosts n ps) :
    q ∈ ps ∧ q.messages ≠ [] := by
  induction ps generalizing n with
  | nil => cases h
  | cons p ps ih =>
    rw [Post.firstPosts, List.mem_append] at h
    rcases h with h | h
    · split at h
      · cases h
      · next hsome =>
        rw [List.mem_singleton] at h
        exact ⟨h ▸ List.mem_cons_self, fun hnil => hsome (Or.inr (h ▸ hnil))⟩
    · exact ⟨List.mem_cons_of_mem _ (ih h).1, (ih h).2⟩

/-- PROPERTY: **what the REST interface shows of the posts to a partition.** Requests with
batches smaller than the append buffer go to a partition that did not exist. Each one with
messages is answered with the number of messages posted before it. As long as no segment was
rolled, the walk over what a read from that offset returns, with 64 KiB for each message
wanted, finds the first messages posted from there on, all of them or as many as wanted, under
their offsets and with their keys and values. Their timestamps are those of the posts if and
only if each post that they come from was made at the one instant that its number of messages
sets.
SOURCE: http/http_server.cpp:731-845, 924-1031, storage/partition_log.h:117-190 -/
theorem posts_shown_iff (b : Broker) (tp : TopicPartition) (hfresh : b.shardedLogs.find tp = none)
    (hseg : b.config.segmentSize < 2 ^ 64) (before after : List PostRequest) (r : PostRequest)
    (hfor : ∀ q ∈ before ++ r :: after, q.IsFor tp)
    (hsize : ∀ q ∈ before ++ r :: after, q.post.size < 65536) (hne : r.post.messages ≠ []) :
    ∃ b₁ b₂ log, PostRequest.handleAll tp before (some b) = some b₁ ∧
      PostRequest.handleAll tp (before ++ r :: after) (some b) = some b₂ ∧
      b₂.shardedLogs.find tp = some log ∧
      ∃ o : ℤ, o = Post.count (before.map PostRequest.post) ∧
        (r.handle tp (some b₁)).1 = HttpServer.postedResponse tp o r.post.messages.length ∧
        (log.sealed = [] → ∀ n : ℕ, 1 ≤ n → n ≤ 1000 →
          ∃ found, peek (log.read o (n * 65536)) n = some found ∧
            (found.length : ℤ) = min (n : ℤ) (log.nextOffset - o) ∧
            found.map (fun m => { ShownMessage.ofPeeked m with timestamp := 0 }) =
              (Post.history (fun _ => 0) o ((r :: after).map PostRequest.post)).take n ∧
            (found.map ShownMessage.ofPeeked =
                (Post.history (fun p => p.now) o ((r :: after).map PostRequest.post)).take n ↔
              ∀ q ∈ Post.firstPosts n ((r :: after).map PostRequest.post),
                q.now.val = (q.messages.length - 1) * 0x0001000100010001)) := by
  obtain ⟨b₁, log₁, stored₁, hall₁, hrun₁, hfind₁⟩ := exists_handleAll b
    (fun q hq => hfor q (List.mem_append_left _ hq))
    (fun q hq => hsize q (List.mem_append_left _ hq))
  obtain ⟨b₂, log, stored, hall, hrun, hfind⟩ := exists_handleAll b hfor hsize
  have hlog₁ : (b₁.getOrCreateLog tp).1 = log₁ := by
    rcases hfind₁ with hfind₁ | ⟨hnone, rfl⟩
    · exact getOrCreateLog_of_find hfind₁
    · rw [hnone] at hrun₁
      exact (appendAll_nil_iff.mp hrun₁).1
  rw [List.map_append, nonempty_append, List.map_cons, nonempty_cons_of_ne hne] at hrun hfind
  rw [getOrCreateLog_of_find_none hfresh] at hrun hrun₁
  have hfind : b₂.shardedLogs.find tp = some log := by
    refine hfind.resolve_right fun hnone => ?_
    simp at hnone
  have hoffset := nextOffset_of_appendAll hrun₁
  have hnext := nextOffset_of_appendAll hrun
  have hzero : (PartitionLog.create tp b.config.logDir b.config.segmentSize).nextOffset = 0 := rfl
  rw [hzero, Int.zero_add, count_nonempty] at hoffset
  rw [hzero, Int.zero_add, count_append, count_nonempty] at hnext
  refine ⟨b₁, b₂, log, hall₁, hall, hfind, _, rfl, ?_, ?_⟩
  · obtain ⟨log₂, -, happ, -⟩ := exists_append_post tp
      (hsize r (List.mem_append_right _ List.mem_cons_self)) (b₁.getOrCreateLog tp).1
    rw [handle_of_append (hfor r (List.mem_append_right _ List.mem_cons_self)) hne happ, hlog₁,
      hoffset]
  · intro hsealed n hpos hle
    have hmem : ∀ p ∈ nonempty (before.map PostRequest.post) ++
        r.post :: nonempty (after.map PostRequest.post), p.size < 65536 ∧ p.messages ≠ [] := by
      intro p hp
      rw [← nonempty_cons_of_ne hne, ← nonempty_append, mem_nonempty, ← List.map_cons,
        ← List.map_append] at hp
      obtain ⟨q, hq, rfl⟩ := List.mem_map.mp hp.1
      exact ⟨hsize q hq, hp.2⟩
    obtain ⟨found, hpeek, hshown⟩ := peek_posts hseg (fun p hp => (hmem p hp).1)
      (fun p hp => (hmem p hp).2) hrun hsealed hpos hle
    rw [count_nonempty] at hpeek hshown
    rw [← nonempty_cons_of_ne hne, ← List.map_cons, history_nonempty] at hshown
    refine ⟨found, hpeek, ?_, ?_, ?_⟩
    · have hlen := congrArg List.length hshown
      rw [List.length_map, List.length_take, length_history] at hlen
      rw [← nonempty_cons_of_ne hne, ← List.map_cons, count_nonempty] at hnext
      rw [hlen, hnext]
      push_cast
      omega
    · rw [← map_history shownStamp 0, ← List.map_take, ← hshown, List.map_map]
      rfl
    · rw [hshown, take_history_eq_iff]
      refine forall₂_congr fun q hq => shownStamp_eq_iff (mem_firstPosts hq).2 ?_
      obtain ⟨q', hq', rfl⟩ := List.mem_map.mp (mem_firstPosts hq).1
      exact hsize q' (List.mem_append_right _ hq')

/-- One message without a key, posted to a topic. -/
def singlePost (now : Word 8) : PostRequest :=
  ⟨now, { body := ascii "\x7b\"messages\":[\x7b\"value\":\"v\"\x7d]\x7d" }⟩

/-- What is shown of the first message after a request to a fresh broker. -/
def shownAfter (r : PostRequest) : Option (List ShownMessage) := do
  let b ← PostRequest.handleAll ⟨ascii "t", 0⟩ [r] (some {})
  let log ← b.shardedLogs.find ⟨ascii "t", 0⟩
  let found ← peek (log.read 0 65536) 1
  return found.map ShownMessage.ofPeeked

/-- Two messages, posted at the instant that their number sets. -/
def doublePost : PostRequest where
  now := ⟨0x0001000100010001, by decide⟩
  req :=
    { body := ascii "\x7b\"messages\":[\x7b\"key\":\"k\",\"value\":\"v\"\x7d,\x7b\"value\":\"w\"\x7d]\x7d" }

/-- A post of two messages between two posts of one. -/
def threePosts : List PostRequest :=
  [singlePost ⟨1700000000000, by decide⟩, doublePost, singlePost ⟨0, by decide⟩]

/-- The log after the three posts. -/
def logAfterThree : Option PartitionLog :=
  (PostRequest.handleAll ⟨ascii "t", 0⟩ threePosts (some {})).bind
    fun b => b.shardedLogs.find ⟨ascii "t", 0⟩

/-- Behind the first post, which was made at another instant, the messages of the second and the
third one are shown with the timestamps of their posts. -/
theorem posts_shown_iff_three :
    ∃ log found, logAfterThree = some log ∧ peek (log.read 1 (5 * 65536)) 5 = some found ∧
      found.map ShownMessage.ofPeeked = [⟨1, 0x0001000100010001, some (ascii "k"), ascii "v"⟩,
        ⟨2, 0x0001000100010001, none, ascii "w"⟩, ⟨3, 0, none, ascii "v"⟩] := by
  have hall : ∀ q ∈ threePosts, q.IsFor ⟨ascii "t", 0⟩ ∧ q.post.size < 65536 := by
    simp only [threePosts, List.forall_mem_cons]
    exact ⟨⟨rfl, by decide +kernel⟩, ⟨rfl, by decide +kernel⟩, ⟨rfl, by decide +kernel⟩, by simp⟩
  obtain ⟨b₁, b, log, -, hrun, hfind, o, rfl, -, hshown⟩ := posts_shown_iff {} ⟨ascii "t", 0⟩ rfl
    (by decide) [singlePost ⟨1700000000000, by decide⟩] [singlePost ⟨0, by decide⟩] doublePost
    (fun q hq => (hall q hq).1) (fun q hq => (hall q hq).2) (by decide +kernel)
  have hlog : logAfterThree = some log := Option.bind_eq_some_iff.mpr ⟨b, hrun, hfind⟩
  have hsealed : log.sealed = [] := by
    have hcomputed : logAfterThree.map PartitionLog.sealed = some [] := by decide +kernel
    rw [hlog, Option.map_some, Option.some.injEq] at hcomputed
    exact hcomputed
  obtain ⟨found, hpeek, -, -, hiff⟩ := hshown hsealed 5 (by decide) (by decide)
  exact ⟨log, found, hlog, hpeek, hiff.mpr (by decide +kernel)⟩

/-- A message posted in November 2023 is shown with a timestamp of the first day of 1970. -/
theorem posted_timestamp_is_misread :
    shownAfter (singlePost ⟨1700000000000, by decide⟩) =
      some [⟨0, 25939941, none, ascii "v"⟩] := by
  decide +kernel

end StrikeMQ.Analysis.PostRequests
