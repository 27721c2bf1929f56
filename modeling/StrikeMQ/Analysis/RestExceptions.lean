import StrikeMQ.Analysis.BrokerRuns
import StrikeMQ.Analysis.NumberReading
import StrikeMQ.Analysis.PartitionRead
import StrikeMQ.Analysis.RangeWalk
import StrikeMQ.Analysis.SegmentLayout

/-!
# Exceptions on the way through the REST interface

What can go wrong on the way of a request are the four number parsers and, in the view into a log,
long varints and the copies of keys and values. The segments of a reachable broker are no larger
than 1 GiB, so the range that a view reads is one that `RangeWalk` is about; a body is no larger
than 1 MiB, so appending its messages does not fail. What remains is exactly `Answerable`.
-/

set_option autoImplicit false

namespace StrikeMQ.Analysis.RestExceptions

open StrikeMQ.Lib StrikeMQ.Model StrikeMQ.Model.HttpServer StrikeMQ.Interface
open StrikeMQ.Analysis.BrokerRuns StrikeMQ.Analysis.NumberReading StrikeMQ.Analysis.RestRouting
open StrikeMQ.Analysis.RangeWalk
open StrikeMQ.Analysis.BatchSerialization (append_eq_some_iff)
open StrikeMQ.Analysis.LogLayout (append_cases)
open StrikeMQ.Analysis.PartitionRead (scanFrom read_eq_scanFrom)
open StrikeMQ.Analysis.SegmentLayout (exists_append_of_totalSize)

/-! ## Segments keep to their size -/

/-- The log's segments are 1 GiB, and the active one is no longer than that. -/
structure SegmentFits (log : PartitionLog) : Prop where
  segmentSize : log.segmentSize = 1073741824
  maxSize : log.activeSegment.maxSize = 1073741824
  length : log.activeSegment.data.length ≤ 1073741824

theorem segmentFits_create (tp : TopicPartition) (dir : Bytes) :
    SegmentFits (.create tp dir 1073741824) where
  segmentSize := rfl
  maxSize := rfl
  length := Nat.zero_le _

theorem length_append_le {s : LogSegment} (h : s.data.length ≤ s.maxSize) (buf : Bytes) :
    (s.append buf).1.maxSize = s.maxSize ∧ (s.append buf).1.data.length ≤ s.maxSize := by
  rcases append_cases s buf with ⟨hfit, happ⟩ | ⟨-, happ⟩
  · rw [happ]
    refine ⟨rfl, ?_⟩
    rw [List.length_append]
    exact hfit
  · rw [happ]
    exact ⟨rfl, h⟩

theorem segmentFits_appendBytes {log : PartitionLog} (h : SegmentFits log) (buf : Bytes) :
    SegmentFits (log.appendBytes buf).1 := by
  obtain ⟨hmax, hlen⟩ := length_append_le
    (show log.activeSegment.data.length ≤ _ by rw [h.maxSize]; exact h.length) buf
  obtain ⟨hmax', hlen'⟩ := length_append_le
    (show log.rollSegment.activeSegment.data.length ≤ _ from Nat.zero_le _) buf
  have hrolled : log.rollSegment.activeSegment.maxSize = 1073741824 := h.segmentSize
  rw [h.maxSize] at hmax hlen
  rw [hrolled] at hmax' hlen'
  unfold PartitionLog.appendBytes
  dsimp only
  split
  · exact ⟨h.segmentSize, hmax', hlen'⟩
  · exact ⟨h.segmentSize, hmax, hlen⟩

theorem segmentFits_append {log log' : PartitionLog} {batch : RecordBatch} {offset : ℤ}
    (h : SegmentFits log) (happ : log.append batch = some (log', offset)) : SegmentFits log' := by
  obtain ⟨-, out, -, rfl⟩ := append_eq_some_iff.mp happ
  have hstored := segmentFits_appendBytes h out
  exact ⟨hstored.segmentSize, hstored.maxSize, hstored.length⟩

/-- INTERNAL: the range that a view reads is shorter than `2^31` bytes. -/
theorem length_read_lt {b : Broker} (hb : ReachedUpToBytes b) {tp : TopicPartition}
    {log : PartitionLog} (hfind : b.shardedLogs.find tp = some log) {offset maxBytes : ℤ} {seg : Bytes}
    (hread : (log.read offset maxBytes).data = some seg) : seg.length < 2 ^ 31 := by
  obtain ⟨b₀, hb₀, hsizes⟩ := hb
  have hlogs := reachable_logs segmentFits_create segmentFits_append hb₀
  have hsize := hsizes tp
  rw [hfind, Option.map_some] at hsize
  obtain ⟨log₀, hfind₀, hsame⟩ := Option.map_eq_some_iff.mp hsize.symm
  have hlen : log₀.activeSegment.size ≤ _ := (hlogs.logs tp log₀ hfind₀).length
  rw [hsame, LogSegment.size] at hlen
  rw [read_eq_scanFrom, Option.map_eq_some_iff] at hread
  obtain ⟨r, -, rfl⟩ := hread
  rw [length_slice]
  omega

/-! ## The view into a log -/

theorem isSome_queryParam_iff {w : ℕ} {parse : Bytes → Option ℤ}
    (hparse : ∀ v, (parse v).isSome ↔ HoldsSigned w v) (req : HttpRequest) (name : String)
    (default : ℤ) : (MessagePeek.queryParam req name default parse).isSome ↔ ParamFits w req name := by
  unfold MessagePeek.queryParam ParamFits
  cases req.queryParams.lookup (ascii name) with
  | none => simp
  | some v => simp [hparse]

/-- INTERNAL: a view of what was read has an outcome if there is nothing or it can be shown. -/
theorem isSome_peek_result_iff {r : ReadResult} {l : ℤ}
    (hlen : ∀ seg, r.data = some seg → seg.length < 2 ^ 31) :
    (MessagePeek.peek r l).isSome ↔ ∀ seg, r.data = some seg → Showable seg l := by
  unfold MessagePeek.peek
  cases hdata : r.data with
  | none => simp
  | some seg => simp [isSome_peek_iff (hlen seg hdata)]

/-- INTERNAL: **the handler of `GET` returns**. -/
theorem isSome_handleGetMessages_iff {b : Broker} (hb : ReachedUpToBytes b) (name : Bytes)
    (req : HttpRequest) :
    (Broker.handleGetMessages name req (some b)).2.isSome ↔
      ParamFits 8 req "offset" ∧ ParamFits 4 req "limit" ∧ ParamFits 4 req "partition" ∧
        RangeFits b name req := by
  rw [← isSome_queryParam_iff isSome_stoll_iff req "offset" 0,
    ← isSome_queryParam_iff isSome_stoi_iff req "limit" 10,
    ← isSome_queryParam_iff isSome_stoi_iff req "partition" 0]
  unfold RangeFits Broker.handleGetMessages
  cases MessagePeek.queryParam req "offset" 0 MessagePeek.stoll with
  | none => simp
  | some offset =>
    cases MessagePeek.queryParam req "limit" 10 stoi with
    | none => simp
    | some limit =>
      cases MessagePeek.queryParam req "partition" 0 stoi with
      | none => simp
      | some partition =>
        simp only [Option.isSome_some, true_and, Option.bind_eq_bind, Option.bind_some]
        cases hfind : b.shardedLogs.find ⟨name, partition⟩ with
        | none =>
          refine ⟨fun _ => ?_, fun _ => rfl⟩
          rintro _ _ _ log seg ⟨⟩ ⟨⟩ ⟨⟩ hlog
          rw [hfind] at hlog
          cases hlog
        | some log =>
          have hpeek := isSome_peek_result_iff (r := log.read offset (MessagePeek.clampLimit limit * 65536))
            (l := MessagePeek.clampLimit limit) fun seg hread => length_read_lt hb hfind hread
          refine Iff.trans ?_ (hpeek.trans ⟨?_, ?_⟩)
          · dsimp only
            cases MessagePeek.peek (log.read offset (MessagePeek.clampLimit limit * 65536))
              (MessagePeek.clampLimit limit) with
            | none => exact Iff.rfl
            | some messages => exact Iff.rfl
          · rintro h _ _ _ log' seg ⟨⟩ ⟨⟩ ⟨⟩ hlog hread
            rw [hfind] at hlog
            obtain rfl := Option.some.inj hlog
            exact h seg hread
          · intro h seg hread
            exact h offset limit partition log seg rfl rfl rfl hfind hread

/-! ## Posted messages -/

theorem length_varintGroups_le (fuel zz : ℕ) : (varintGroups fuel zz).length ≤ fuel + 1 := by
  induction fuel generalizing zz with
  | zero => exact le_rfl
  | succ fuel ih =>
    rw [varintGroups]
    split
    · have hle := ih (zz >>> 7)
      rw [List.length_cons]
      omega
    · rw [List.length_singleton]
      omega

theorem length_encodeRecord_le (i : ℕ) (key value : Bytes) :
    (encodeRecord i key value).length ≤ 71 + key.length + value.length := by
  have hvarint : ∀ v, (writeVarint v).length ≤ 10 := fun v => length_varintGroups_le 9 _
  have hkey : (if key = [] then writeVarint (-1) else writeVarint key.length ++ key).length ≤
      10 + key.length := by
    split
    · exact le_trans (hvarint _) (Nat.le_add_right _ _)
    · rw [List.length_append]
      have hle := hvarint key.length
      omega
  have h₁ := hvarint 0
  have h₂ := hvarint i
  have h₃ := hvarint value.length
  unfold encodeRecord
  dsimp only
  generalize hcontent : [0] ++ writeVarint 0 ++ writeVarint i ++
    (if key = [] then writeVarint (-1) else writeVarint key.length ++ key) ++
    writeVarint value.length ++ value ++ writeVarint 0 = content
  have hlen : content.length ≤ 61 + key.length + value.length := by
    rw [← hcontent]
    simp only [List.length_append, List.length_singleton]
    omega
  have hfront := hvarint content.length
  rw [List.length_append]
  omega

theorem length_jsonStringBody_le (text : Bytes) : (jsonStringBody text).length ≤ text.length := by
  fun_induction jsonStringBody text with
  | case1 => exact le_rfl
  | case2 => exact Nat.zero_le _
  | case3 => exact le_rfl
  | case4 => exact Nat.zero_le _
  | case5 d rest _ ih =>
    simp only [List.length_cons]
    omega
  | case6 c d rest _ _ ih =>
    simp only [List.length_cons] at ih ⊢
    omega

theorem length_jsonExtractString_le (json key : Bytes) :
    (jsonExtractString json key).length ≤ json.length := by
  unfold jsonExtractString
  dsimp only
  split
  · exact Nat.zero_le _
  · rename_i pos _
    generalize hrest : (json.drop (pos + ([0x22] ++ key ++ [0x22]).length)).dropWhile
      (fun c => c = 0x20 ∨ c = 0x3a) = rest
    have hle : rest.length ≤ json.length := by
      rw [← hrest]
      exact le_trans (List.dropWhile_sublist _).length_le (List.drop_sublist _ _).length_le
    cases rest with
    | nil => exact Nat.zero_le _
    | cons c text =>
      rw [List.length_cons] at hle
      have hbody := length_jsonStringBody_le text
      dsimp only
      split
      · omega
      · exact Nat.zero_le _

theorem length_of_mem_jsonObjects {fuel : ℕ} {rest : Bytes} {m : Bytes × Bytes}
    (hm : m ∈ jsonObjects fuel rest) : m.1.length ≤ rest.length ∧ m.2.length ≤ rest.length := by
  induction fuel generalizing rest with
  | zero => cases hm
  | succ fuel ih =>
    rw [jsonObjects] at hm
    split at hm
    · cases hm
    · split at hm
      · cases hm
      · rename_i start _ _ inner _
        rcases List.mem_cons.mp hm with rfl | hm
        · have hobj : (slice rest start (inner + 2)).length ≤ rest.length := by
            rw [length_slice]
            omega
          exact ⟨le_trans (length_jsonExtractString_le _ _) hobj,
            le_trans (length_jsonExtractString_le _ _) hobj⟩
        · have hle : (rest.drop (start + inner + 2)).length ≤ rest.length :=
            (List.drop_sublist _ _).length_le
          exact ⟨le_trans (ih hm).1 hle, le_trans (ih hm).2 hle⟩

theorem length_of_mem_jsonExtractMessages {json : Bytes} {m : Bytes × Bytes}
    (hm : m ∈ jsonExtractMessages json) : m.1.length ≤ json.length ∧ m.2.length ≤ json.length := by
  unfold jsonExtractMessages at hm
  split at hm
  · cases hm
  · rename_i arrStart _
    dsimp only at hm
    split at hm
    · cases hm
    · rename_i bracket _
      have hle : ((json.drop arrStart).drop (bracket + 1)).length ≤ json.length :=
        le_trans (List.drop_sublist _ _).length_le (List.drop_sublist _ _).length_le
      have hmem := length_of_mem_jsonObjects hm
      exact ⟨le_trans hmem.1 hle, le_trans hmem.2 hle⟩

/-- INTERNAL: the messages of a body of at most 1 MiB are appended. -/
theorem isSome_postBatch (b : Broker) {body : Bytes} (hbody : body.length ≤ kMaxBodySize)
    (tp : TopicPartition) (now : ℤ) :
    (b.postBatch (messageBatch tp now (jsonExtractMessages body))).2.isSome := by
  have hrecords : ∀ r ∈ (messageBatch tp now (jsonExtractMessages body)).records,
      r.totalSize < 2 ^ 31 := by
    intro r hr
    obtain ⟨i, hi, rfl⟩ := List.mem_mapIdx.mp hr
    have hm := length_of_mem_jsonExtractMessages (List.getElem_mem hi)
    have hlen := length_encodeRecord_le i (jsonExtractMessages body)[i].1
      (jsonExtractMessages body)[i].2
    have hsize : (recordOf (encodeRecord i (jsonExtractMessages body)[i].1
        (jsonExtractMessages body)[i].2)).totalSize ≤ (encodeRecord i
          (jsonExtractMessages body)[i].1 (jsonExtractMessages body)[i].2).length :=
      (List.take_sublist _ _).length_le
    unfold kMaxBodySize at hbody
    omega
  obtain ⟨out, -, happ⟩ := exists_append_of_totalSize
    (b.getOrCreateLog (messageBatch tp now (jsonExtractMessages body)).topicPartition).1 hrecords
  simp only [Broker.postBatch, happ, Option.isSome_some]

/-- INTERNAL: **the handler of `POST` returns**. -/
theorem isSome_handlePostMessages_iff (b : Broker) (now : ℤ) (name : Bytes) {req : HttpRequest}
    (hbody : req.body.length ≤ kMaxBodySize) :
    (Broker.handlePostMessages now name req (some b)).2.isSome ↔
      (jsonExtractMessages req.body ≠ [] → ParamFits 4 req "partition") := by
  have hparam : (partitionParam req).isSome ↔ ParamFits 4 req "partition" :=
    isSome_queryParam_iff isSome_stoi_iff req "partition" 0
  unfold Broker.handlePostMessages
  dsimp only
  by_cases hempty : req.body = []
  · rw [if_pos hempty, hempty]
    exact ⟨fun _ h => absurd rfl h, fun _ => rfl⟩
  · rw [if_neg hempty]
    by_cases hnone : jsonExtractMessages req.body = []
    · rw [if_pos hnone]
      exact ⟨fun _ h => absurd hnone h, fun _ => rfl⟩
    · rw [if_neg hnone, ← hparam]
      cases partitionParam req with
      | none => exact ⟨fun h => absurd h (by simp), fun h => absurd (h hnone) (by simp)⟩
      | some partition => exact ⟨fun _ _ => rfl, fun _ => isSome_postBatch b hbody _ now⟩

/-! ## Requests -/

/-- INTERNAL: the body is read without an exception if a content length is a number. -/
theorem parseBody_ne_throws_iff (data : Bytes) (headerEnd : ℕ) (req : HttpRequest) :
    parseBody data headerEnd req ≠ .throws ↔
      ∀ v, req.headers.lookup (ascii "content-length") = some v → HoldsUnsigned v := by
  unfold parseBody contentLength
  cases req.headers.lookup (ascii "content-length") with
  | none =>
    refine ⟨fun _ v hv => absurd hv (by simp), fun _ => ?_⟩
    dsimp only
    split
    · exact Parsed.noConfusion
    · split
      · exact Parsed.noConfusion
      · exact Parsed.noConfusion
  | some v =>
    have hparse := isSome_stoull_iff v
    dsimp only
    cases hlength : stoull v with
    | none =>
      rw [hlength] at hparse
      refine ⟨fun h => absurd rfl h, fun h => absurd (hparse.mpr (h v rfl)) (by simp)⟩
    | some length =>
      rw [hlength] at hparse
      refine ⟨fun _ w hw => ?_, fun _ => ?_⟩
      · obtain rfl := Option.some.inj hw
        exact hparse.mp rfl
      · dsimp only
        split
        · exact Parsed.noConfusion
        · split
          · exact Parsed.noConfusion
          · exact Parsed.noConfusion

/-- INTERNAL: so is the request. -/
theorem parseRequest_ne_throws_iff (data : Bytes) :
    parseRequest data ≠ .throws ↔ LengthFits data := by
  unfold parseRequest LengthFits
  cases findSub (crlf ++ crlf) data with
  | none => simp
  | some headerEnd =>
    cases findSub crlf data with
    | none => simp
    | some firstEol =>
      cases hhead : parseHead data headerEnd firstEol with
      | none =>
        refine ⟨fun _ => ?_, fun _ => by simp [hhead]⟩
        rintro _ _ req v ⟨⟩ ⟨⟩ hreq
        rw [hhead] at hreq
        cases hreq
      | some req =>
        dsimp only
        rw [hhead, parseBody_ne_throws_iff]
        constructor
        · rintro h _ _ req' v ⟨⟩ ⟨⟩ hreq
          rw [hhead] at hreq
          obtain rfl := Option.some.inj hreq
          exact h v
        · intro h v
          exact h headerEnd firstEol req v rfl rfl hhead

/-- The body of a complete request is no longer than the limit.
SOURCE: http/http_server.cpp:405-434 -/
theorem length_body_le {data : Bytes} {req : HttpRequest} (h : parseRequest data = .complete req) :
    req.body.length ≤ kMaxBodySize := by
  unfold parseRequest parseBody at h
  split at h
  · cases h
  · split at h
    · cases h
    · split at h
      · cases h
      · split at h
        · cases h
        · split at h
          · cases h
          · split at h
            · cases h
            · obtain rfl := Parsed.complete.inj h
              dsimp only
              rw [length_slice]
              omega

theorem isSome_onDefined {ρ τ : Type} (dflt : τ) (f : ρ → Broker → τ × Broker) (q : ρ)
    (b : Broker) : (Broker.onDefined dflt f q (some b)).2.isSome :=
  rfl

/-- A request that is not about a topic's messages is answered. -/
theorem isSome_elsewhere {env : RestEnv} {req : HttpRequest} {b : Broker}
    {r : HttpResponse × Option Broker}
    (h : Elsewhere (Broker.restHandlers env) req (some b) r) : r.2.isSome := by
  cases h with
  | answer resp => rfl
  | getBroker => exact isSome_onDefined _ _ req b
  | getTopics => exact isSome_onDefined _ _ req b
  | getTopic name => exact isSome_onDefined _ _ req b
  | deleteTopic name =>
    have hhandler : (Broker.restHandlers env).deleteTopic name =
      Broker.onDefined {} (Broker.handleDeleteTopic name) := rfl
    rw [hhandler]
    exact isSome_onDefined _ _ req b
  | getGroups => exact isSome_onDefined _ _ req b
  | getGroup id => exact isSome_onDefined _ _ req b

/-- INTERNAL: routing has an outcome if the numbers and the stored range can be read. -/
theorem isSome_restRoute_iff (env : RestEnv) {b : Broker} (hb : ReachedUpToBytes b)
    {req : HttpRequest} (hbody : req.body.length ≤ kMaxBodySize) :
    (Broker.restRoute env req (some b)).2.isSome ↔ ∀ name, MessagesPath name req.path →
      (req.method = ascii "GET" → ParamFits 8 req "offset" ∧ ParamFits 4 req "limit" ∧
        ParamFits 4 req "partition" ∧ RangeFits b name req) ∧
      (req.method = ascii "POST" → jsonExtractMessages req.body ≠ [] →
        ParamFits 4 req "partition") := by
  rcases routeRequest_cases (Broker.restHandlers env) req (some b) with
    ⟨name, hpath, hroute⟩ | ⟨hnot, helse⟩
  · have hget := isSome_handleGetMessages_iff hb name req
    have hpost := isSome_handlePostMessages_iff b env.now name hbody
    rw [Broker.restRoute, hroute]
    have hname : ∀ name', MessagesPath name' req.path → name' = name := fun name' h =>
      MessagesPath.unique h hpath
    rw [routeMessages]
    split
    case isTrue hmethod =>
      have hother : ascii "GET" ≠ ascii "POST" := by decide
      refine hget.trans ⟨fun h name' hpath' => ?_, fun h => (h name hpath).1 hmethod⟩
      rw [hname name' hpath']
      exact ⟨fun _ => h, fun hpostMethod => absurd (hmethod.symm.trans hpostMethod) hother⟩
    case isFalse hnotGet =>
      split
      case isTrue hmethod =>
        refine hpost.trans ⟨fun h name' _ => ?_, fun h => (h name hpath).2 hmethod⟩
        exact ⟨fun hgetMethod => absurd hgetMethod hnotGet, fun _ => h⟩
      case isFalse hnotPost =>
        exact ⟨fun _ _ _ => ⟨fun h => absurd h hnotGet, fun h => absurd h hnotPost⟩, fun _ => rfl⟩
  · exact ⟨fun _ name h => absurd h (hnot name), fun _ => isSome_elsewhere helse⟩

/-- PROPERTY: **a request to the REST interface is handled without an exception if and only if it
is answerable**: its numbers are numbers where they are read, and the range that holds the messages
it asks for can be shown. The broker may be in any reachable state, with any bytes in its segments,
and the bytes received may be any.
SOURCE: http/http_server.cpp:380-449, 453-549 -/
theorem requests_return_iff (env : RestEnv) {b : Broker} (hb : ReachedUpToBytes b) (data : Bytes) :
    returns env data b ↔ Answerable b data := by
  have hthrows := parseRequest_ne_throws_iff data
  have hwaits : (∀ req, parseRequest data ≠ .complete req) → LengthFits data → Answerable b data :=
    fun hne hlength => ⟨hlength, fun req _ h => absurd h (hne req), fun req _ h => absurd h (hne req)⟩
  unfold returns
  cases hparse : parseRequest data with
  | throws =>
    rw [hparse] at hthrows
    exact ⟨fun h => absurd h Bool.false_ne_true, fun h => absurd rfl (hthrows.mpr h.length)⟩
  | incomplete | badRequestLine | tooLarge =>
    rw [hparse] at hthrows hwaits
    exact ⟨fun _ => hwaits (fun _ => Parsed.noConfusion) (hthrows.mp Parsed.noConfusion),
      fun _ => rfl⟩
  | complete req =>
    rw [hparse] at hthrows
    have hroute := isSome_restRoute_iff env hb (length_body_le hparse)
    refine hroute.trans ⟨fun h => ⟨hthrows.mp Parsed.noConfusion, ?_, ?_⟩, fun h name hpath => ?_⟩
    · intro req' name hreq hpath
      obtain rfl := Parsed.complete.inj (hparse.symm.trans hreq)
      exact (h name hpath).1
    · intro req' name hreq hpath
      obtain rfl := Parsed.complete.inj (hparse.symm.trans hreq)
      exact (h name hpath).2
    · exact ⟨h.get req name hparse hpath, h.post req name hparse hpath⟩

/-- A request for messages from an offset that is not a number. -/
def unreadableOffset : Bytes :=
  ascii "GET /v1/topics/t/messages?offset=x HTTP/1.1" ++ crlf ++ crlf

/-- PROPERTY: an offset that is not a number ends the program, on a broker that has just been
started. -/
theorem unreadable_offset_is_not_answered :
    Reachable {} ∧ returns { now := 0 } unreadableOffset {} = false :=
  ⟨.start, by decide +kernel⟩

/-- A post of two messages to topic `t`. -/
def postOfTwo : HttpRequest :=
  { method := ascii "POST", path := ascii "/v1/topics/t/messages"
    body := ascii "\x7b\"messages\":[\x7b\"value\":\"x\"\x7d,\x7b\"value\":\"yz\"\x7d]\x7d" }

/-- What the post leaves of the broker. -/
def afterPost (b : Broker) : Option Broker :=
  (Broker.restRoute { now := 5 } postOfTwo (some b)).2

/-- The broker that has stored the two messages twice. -/
def storedTwice : Broker :=
  ((afterPost {}).bind afterPost).get (by decide +kernel)

/-- A request for the messages of the second post. -/
def rangeRequest : Bytes :=
  ascii "GET /v1/topics/t/messages?offset=2&limit=5&partition=0 HTTP/1.1" ++ crlf ++ crlf

theorem reachable_storedTwice : Reachable storedTwice := by
  have hstored : (afterPost {}).bind afterPost = some storedTwice := (Option.some_get _).symm
  obtain ⟨b, hfirst, hsecond⟩ := Option.bind_eq_some_iff.mp hstored
  exact .request _ postOfTwo (.request _ postOfTwo .start hfirst) hsecond

/-- The request finds a range of the log, is answered, and is answerable. -/
theorem requests_return_iff_range :
    Reachable storedTwice ∧
      ((storedTwice.shardedLogs.find ⟨ascii "t", 0⟩).bind
        fun log => (log.read 2 (5 * 65536)).data).isSome ∧
      returns { now := 6 } rangeRequest storedTwice ∧ Answerable storedTwice rangeRequest := by
  have hreturns : returns { now := 6 } rangeRequest storedTwice := by decide +kernel
  exact ⟨reachable_storedTwice, by decide +kernel, hreturns,
    (requests_return_iff _ ⟨_, reachable_storedTwice, fun _ => rfl⟩ rangeRequest).mp hreturns⟩

end StrikeMQ.Analysis.RestExceptions
