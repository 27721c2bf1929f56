import StrikeMQ.Model.HttpRoutes

/-!
# The REST interface's view into a log

`HttpServer::handle_get_messages`: a range of stored batches is read from a partition's log and
walked through, batch by batch and record by record. Positions in the range are `uint32_t`
values, and so are the sums of them that the loops compare. A read outside the range and a shift
by the width of the word or more have no meaning in the source: they are the outcome `none`. An
exception that a query parameter throws ends the program, as in `HttpRoutes`.
-/

set_option autoImplicit false

namespace StrikeMQ.Model

open StrikeMQ.Lib

/-- What is reported of one record. `start`, the record's place in the range, is not kept by the
source. -/
structure PeekedMessage where
  start : ℕ
  offset : ℤ
  timestamp : ℤ
  keyStr : Bytes
  valueStr : Bytes
  deriving DecidableEq, Repr

/-- The key as it is written; an empty one is null.
SOURCE: http/http_server.cpp:833-837 -/
def PeekedMessage.key (m : PeekedMessage) : Option Bytes :=
  if m.keyStr = [] then none else some m.keyStr

namespace MessagePeek

/-- `memcpy` and `assign` from the range. -/
def load (seg : Bytes) (pos n : ℕ) : Option Bytes :=
  if pos + n ≤ seg.length then some (slice seg pos n) else none

/-- One round of the record loop: the state is `rpos`, the failure of `OptionT` is the `break`. -/
abbrev RecordM := StateT ℕ (OptionT Option)

/-- `if (rpos >= scan + total) break;` -/
def breakAt (stop : ℕ) : RecordM Unit := do
  let rpos ← get
  if rpos ≥ stop then failure

/-- The loop over the bytes of a varint, `left` of them before the end of the batch. The language
leaves a shift by 64 or more undefined.
SOURCE: http/http_server.cpp:783-790 -/
def varintLoop (seg : Bytes) : ℕ → ℕ → ℕ → ℕ → Option (ℕ × ℕ)
  | 0, _, result, pos => some (result, pos)
  | left + 1, shift, result, pos => do
    let b ← seg[pos]?
    if shift < 64 then
      let result := result ||| toUInt64 ((b.toNat &&& 0x7F) <<< shift : ℕ)
      if b &&& 0x80 = 0 then return (result, pos + 1)
      else varintLoop seg left (shift + 7) result (pos + 1)
    else none

/-- `(n >> 1) ^ -(n & 1)` on `uint64_t`, as an `int64_t`.
SOURCE: http/http_server.cpp:791-793 -/
def unzigzag (n : ℕ) : ℤ :=
  toInt64 ((n >>> 1) ^^^ toUInt64 (-((n &&& 1 : ℕ) : ℤ)) : ℕ)

/-- SOURCE: http/http_server.cpp:782-794 -/
def readVarint (seg : Bytes) (stop : ℕ) : RecordM ℤ := fun rpos => do
  let (result, rpos) ← varintLoop seg (stop - rpos) 0 0 rpos
  return (unzigzag result, rpos)

/-- A key or a value of the length just read. The check sees the length as a `uint32_t`, the
copy takes all of it.
SOURCE: http/http_server.cpp:808-815, 818-825 -/
def readField (seg : Bytes) (stop : ℕ) (length : ℤ) : RecordM Bytes := fun rpos =>
  if length > 0 then
    if toUInt32 (rpos + toUInt32 length : ℕ) ≤ stop then do
      let bytes ← load seg rpos length.toNat
      return (bytes, toUInt32 (rpos + toUInt32 length : ℕ))
    else failure
  else return ([], rpos)

/-- The headers of a record are counted, and not skipped.
SOURCE: http/http_server.cpp:782-840 -/
def peekRecord (seg : Bytes) (stop : ℕ) (batchBase firstTimestamp : ℤ) :
    RecordM PeekedMessage := do
  let start ← get
  let _ ← readVarint seg stop
  breakAt stop
  modify fun rpos => toUInt32 (rpos + 1 : ℕ)
  breakAt stop
  let timestampDelta ← readVarint seg stop
  let offsetDelta ← readVarint seg stop
  let keyLength ← readVarint seg stop
  let keyStr ← readField seg stop keyLength
  let valueLength ← readVarint seg stop
  let valueStr ← readField seg stop valueLength
  let _ ← readVarint seg stop
  return {
    start := start
    offset := toInt64 (batchBase + offsetDelta)
    timestamp := toInt64 (firstTimestamp + timestampDelta)
    keyStr := keyStr
    valueStr := valueStr }

/-- The record loop of one batch, with the number of records that the batch says are left.
SOURCE: http/http_server.cpp:775-841 -/
def peekRecords (seg : Bytes) (stop : ℕ) (batchBase firstTimestamp limit : ℤ) :
    ℕ → ℕ → ℕ → Option (List PeekedMessage)
  | 0, _, _ => some []
  | left + 1, count, rpos =>
    if count < limit ∧ rpos < stop then do
      match ← ((peekRecord seg stop batchBase firstTimestamp).run rpos).run with
      | none => return []
      | some (message, rpos) =>
        let messages ←
          peekRecords seg stop batchBase firstTimestamp limit left (count + 1) rpos
        return message :: messages
    else some []

/-- The records of the batch between `scan` and `stop`.
SOURCE: http/http_server.cpp:765-841 -/
def peekBatch (seg : Bytes) (scan stop : ℕ) (batchBase limit : ℤ) (count : ℕ) :
    Option (List PeekedMessage) := do
  let recordCount := intOfBe (← load seg (scan + 57) 4)
  let firstTimestamp := intOfBe (← load seg (scan + 25) 8)
  peekRecords seg stop batchBase firstTimestamp limit recordCount.toNat count
    (toUInt32 (scan + 61 : ℕ))

/-- The loop over batches. A range that `read` returns holds whole batches, so each round
moves on by more than 12 bytes and as many rounds as bytes are enough.
SOURCE: http/http_server.cpp:743-844 -/
def peekBatches (seg : Bytes) (limit : ℤ) : ℕ → ℕ → ℕ → Option (List PeekedMessage)
  | 0, _, _ => some []
  | fuel + 1, scan, count =>
    if toUInt32 (scan + 12 : ℕ) ≤ seg.length ∧ count < limit then do
      let batchBase := intOfBe (← load seg scan 8)
      let batchLen := intOfBe (← load seg (scan + 8) 4)
      if batchLen ≤ 0 then return []
      else
        let total := 12 + batchLen.toNat
        let stop := toUInt32 (scan + total : ℕ)
        if stop > seg.length then return []
        else if total < 61 then peekBatches seg limit fuel stop count
        else
          let messages ← peekBatch seg scan stop batchBase limit count
          let more ← peekBatches seg limit fuel stop (count + messages.length)
          return messages ++ more
    else some []

/-- SOURCE: http/http_server.cpp:737-845 -/
def peek (result : ReadResult) (limit : ℤ) : Option (List PeekedMessage) :=
  match result.data with
  | none => some []
  | some seg => peekBatches seg limit seg.length 0 0

/-- SOURCE: http/http_server.cpp:830-839 -/
def writeMessage (j : JsonWriter) (m : PeekedMessage) : JsonWriter :=
  let j := (j.objectBegin.key (ascii "offset")).number m.offset
  let j := (j.key (ascii "timestamp")).number m.timestamp
  let j := j.key (ascii "key")
  let j := match m.key with
    | some key => j.string key
    | none => j.null
  ((j.key (ascii "value")).string m.valueStr).objectEnd

/-- SOURCE: http/http_server.cpp:734-735, 847-848 -/
def messagesResponse (messages : List PeekedMessage) : HttpResponse where
  body := (messages.foldl writeMessage ({} : JsonWriter).arrayBegin).arrayEnd.buf

/-- `std::stoll`: as `stoi`, in the range of a `long long`. -/
def stoll (s : Bytes) : Option ℤ :=
  let s := s.dropWhile HttpServer.isSpace
  let unsigned := if s.head? = some 0x2d ∨ s.head? = some 0x2b then s.tail else s
  let digits := unsigned.takeWhile HttpServer.isDigit
  let magnitude : ℤ := digits.foldl (fun n c => 10 * n + (c.toNat - 0x30)) 0
  let value := if s.head? = some 0x2d then -magnitude else magnitude
  if digits = [] ∨ value ≠ toInt64 value then none else some value

/-- SOURCE: http/http_server.cpp:705-714 -/
def queryParam (req : HttpRequest) (name : String) (default : ℤ) (parse : Bytes → Option ℤ) :
    Option ℤ :=
  match req.queryParams.lookup (ascii name) with
  | none => some default
  | some v => parse v

/-- SOURCE: http/http_server.cpp:716-717 -/
def clampLimit (limit : ℤ) : ℤ :=
  let limit := if limit ≤ 0 then 10 else limit
  if limit > 1000 then 1000 else limit

end MessagePeek

open MessagePeek in
/-- SOURCE: http/http_server.cpp:704-848 -/
def Broker.handleGetMessages (name : Bytes) (req : HttpRequest) :
    Option Broker → HttpResponse × Option Broker
  | none => ({}, none)
  | some b =>
    let response := do
      let offset ← queryParam req "offset" 0 stoll
      let limit ← queryParam req "limit" 10 HttpServer.stoi
      let partition ← queryParam req "partition" 0 HttpServer.stoi
      let limit := clampLimit limit
      match b.shardedLogs.find ⟨name, partition⟩ with
      | none =>
        return HttpServer.errorResponse 404 (ascii "Not Found") (ascii "Topic/partition not found")
      | some log =>
        let messages ← peek (log.read offset (limit * 65536)) limit
        return messagesResponse messages
    match response with
    | none => ({}, none)
    | some response => (response, some b)

end StrikeMQ.Model
