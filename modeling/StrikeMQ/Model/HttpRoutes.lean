import StrikeMQ.Model.HttpServer
import StrikeMQ.Model.Json
import StrikeMQ.Model.Broker

/-!
# The REST interface's router and its producer

`HttpServer::route_request` with the eight handlers it chooses from, and of the handlers the
one that changes a log: `handle_post_messages`, which builds a batch of encoded records from the
messages in a request's body and appends it. Its clock is an argument. The broker is `none` once
an append has copied past its buffer, as in `Broker`, and also when an exception has ended the
program.
-/

set_option autoImplicit false

namespace StrikeMQ.Model

open StrikeMQ.Lib

/-- SOURCE: http/http_server.h:132-139 -/
structure HttpHandlers (σ : Type) where
  getBroker : HttpRequest → σ → HttpResponse × σ
  getTopics : HttpRequest → σ → HttpResponse × σ
  getTopic : Bytes → HttpRequest → σ → HttpResponse × σ
  deleteTopic : Bytes → HttpRequest → σ → HttpResponse × σ
  getMessages : Bytes → HttpRequest → σ → HttpResponse × σ
  postMessages : Bytes → HttpRequest → σ → HttpResponse × σ
  getGroups : HttpRequest → σ → HttpResponse × σ
  getGroup : Bytes → HttpRequest → σ → HttpResponse × σ

namespace HttpServer

/-- A response whose body is an object with the one field `error`. -/
def errorResponse (statusCode : ℤ) (statusText error : Bytes) : HttpResponse where
  statusCode := statusCode
  statusText := statusText
  body := ((({} : JsonWriter).objectBegin.key (ascii "error")).string error).objectEnd.buf

/-- SOURCE: http/http_server.cpp:461-468, 543-548 -/
def notFound : HttpResponse :=
  errorResponse 404 (ascii "Not Found") (ascii "Not found")

/-- SOURCE: http/http_server.cpp:499-505, 514-520, 533-539 -/
def methodNotAllowed : HttpResponse :=
  errorResponse 405 (ascii "Method Not Allowed") (ascii "Method not allowed")

variable {σ : Type}

/-- What follows `/v1/topics/`; `none` for a path below a topic that is not its messages.
SOURCE: http/http_server.cpp:485-523 -/
def routeTopic (hs : HttpHandlers σ) (after : Bytes) (req : HttpRequest) (s : σ) :
    Option (HttpResponse × σ) :=
  match findSub [0x2f] after with
  | some slash =>
    let name := after.take slash
    if after.drop (slash + 1) = ascii "messages" then
      if req.method = ascii "GET" then some (hs.getMessages name req s)
      else if req.method = ascii "POST" then some (hs.postMessages name req s)
      else some (methodNotAllowed, s)
    else none
  | none =>
    if req.method = ascii "GET" then some (hs.getTopic after req s)
    else if req.method = ascii "DELETE" then some (hs.deleteTopic after req s)
    else some (methodNotAllowed, s)

/-- SOURCE: http/http_server.cpp:525-548 -/
def routeGroups (hs : HttpHandlers σ) (rest : Bytes) (req : HttpRequest) (s : σ) :
    HttpResponse × σ :=
  if rest = ascii "groups" ∧ req.method = ascii "GET" then hs.getGroups req s
  else if rest.take 7 = ascii "groups/" then
    if req.method = ascii "GET" then hs.getGroup (rest.drop 7) req s else (methodNotAllowed, s)
  else (notFound, s)

/-- SOURCE: http/http_server.cpp:453-549 -/
def routeRequest (hs : HttpHandlers σ) (req : HttpRequest) (s : σ) : HttpResponse × σ :=
  let p :=
    if req.path.length > 1 ∧ req.path.getLast? = some 0x2f then req.path.dropLast else req.path
  if p.take 4 ≠ ascii "/v1/" then (notFound, s)
  else
    let rest := p.drop 4
    if rest = ascii "broker" ∧ req.method = ascii "GET" then hs.getBroker req s
    else if rest = ascii "topics" ∧ req.method = ascii "GET" then hs.getTopics req s
    else
      match (if rest.take 7 = ascii "topics/" then routeTopic hs (rest.drop 7) req s else none) with
      | some result => result
      | none => routeGroups hs rest req s

/-- SOURCE: http/http_server.cpp:970, 981 -/
def zigzag (v : ℤ) : ℕ :=
  toUInt64 (2 * v) ^^^ toUInt64 (if v < 0 then -1 else 0)

/-- The loop over a 64-bit value, which has at most ten groups of seven bits.
SOURCE: http/http_server.cpp:971-975, 982-986 -/
def varintGroups : ℕ → ℕ → Bytes
  | 0, zz => [UInt8.ofNat zz]
  | fuel + 1, zz =>
    if zz > 0x7f then UInt8.ofNat (zz &&& 0x7f ||| 0x80) :: varintGroups fuel (zz >>> 7)
    else [UInt8.ofNat zz]

/-- SOURCE: http/http_server.cpp:968-976, 980-987 -/
def writeVarint (v : ℤ) : Bytes :=
  varintGroups 9 (zigzag v)

/-- A message as a record of a batch, `i` being its place there. An empty key is written as a
null key.
SOURCE: http/http_server.cpp:964-1008 -/
def encodeRecord (i : ℕ) (key value : Bytes) : Bytes :=
  let content := [0] ++ writeVarint 0 ++ writeVarint i ++
    (if key = [] then writeVarint (-1) else writeVarint key.length ++ key) ++
    writeVarint value.length ++ value ++ writeVarint 0
  writeVarint content.length ++ content

/-- The record that points to a buffer. Its size is a `uint32_t`.
SOURCE: http/http_server.cpp:1012-1018 -/
def recordOf (buf : Bytes) : Record where
  data := some (buf.take (buf.length % 2 ^ 32))
  size_lt := by
    show (buf.take (buf.length % 2 ^ 32)).length < 2 ^ 32
    rw [List.length_take]
    exact lt_of_le_of_lt (min_le_left _ _) (Nat.mod_lt _ (by norm_num))

/-- SOURCE: http/http_server.cpp:951-1018 -/
def messageBatch (tp : TopicPartition) (now : ℤ) (messages : List (Bytes × Bytes)) :
    RecordBatch where
  topicPartition := tp
  firstTimestamp := now
  maxTimestamp := now
  records := messages.mapIdx fun i m => recordOf (encodeRecord i m.1 m.2)

/-- `std::stoi`: as `stoull`, but signed and in the range of an `int`. -/
def stoi (s : Bytes) : Option ℤ :=
  let s := s.dropWhile isSpace
  let unsigned := if s.head? = some 0x2d ∨ s.head? = some 0x2b then s.tail else s
  let digits := unsigned.takeWhile isDigit
  let magnitude : ℤ := digits.foldl (fun n c => 10 * n + (c.toNat - 0x30)) 0
  let value := if s.head? = some 0x2d then -magnitude else magnitude
  if digits = [] ∨ value ≠ toInt32 value then none else some value

/-- SOURCE: http/http_server.cpp:943-947 -/
def partitionParam (req : HttpRequest) : Option ℤ :=
  match req.queryParams.lookup (ascii "partition") with
  | none => some 0
  | some v => stoi v

/-- SOURCE: http/http_server.cpp:1023-1030 -/
def postedResponse (tp : TopicPartition) (baseOffset : ℤ) (recordCount : ℕ) : HttpResponse where
  body :=
    let j := ({} : JsonWriter).objectBegin
    let j := (j.key (ascii "topic")).string tp.topic
    let j := (j.key (ascii "partition")).number tp.partition
    let j := (j.key (ascii "base_offset")).number baseOffset
    let j := (j.key (ascii "record_count")).number (toInt32 recordCount)
    j.objectEnd.buf

end HttpServer

namespace Broker

/-- SOURCE: http/http_server.cpp:1020-1030 -/
def postBatch (b : Broker) (batch : RecordBatch) : HttpResponse × Option Broker :=
  let tp := batch.topicPartition
  let (log, b) := b.getOrCreateLog tp
  match log.append batch with
  | none => ({}, none)
  | some (log', baseOffset) =>
    (HttpServer.postedResponse tp baseOffset batch.records.length,
      some { b with shardedLogs := b.shardedLogs.put tp log' })

/-- SOURCE: http/http_server.cpp:924-1031 -/
def handlePostMessages (now : ℤ) (name : Bytes) (req : HttpRequest) :
    Option Broker → HttpResponse × Option Broker
  | none => ({}, none)
  | some b =>
    let badRequest := HttpServer.errorResponse 400 (ascii "Bad Request")
    if req.body = [] then (badRequest (ascii "Empty request body"), some b)
    else
      let messages := jsonExtractMessages req.body
      if messages = [] then (badRequest (ascii "No messages found in body"), some b)
      else
        match HttpServer.partitionParam req with
        | none => ({}, none)
        | some partition =>
          b.postBatch (HttpServer.messageBatch ⟨name, partition⟩ now messages)

end Broker

end StrikeMQ.Model
