import StrikeMQ.Interface.NumberText
import StrikeMQ.Interface.RangeLayout
import StrikeMQ.Interface.BrokerRuns

/-!
# Requests that the REST interface can answer

What a request must look like so that handling it does not end the program: the numbers in it
are numbers of the types that they are read as, where they are read at all, and the range of
messages that it asks for is laid out so that it can be shown.
-/

set_option autoImplicit false

namespace StrikeMQ.Interface

open StrikeMQ.Lib StrikeMQ.Model StrikeMQ.Model.HttpServer

/-- The path of a topic's messages, with or without a slash at the end. -/
def MessagesPath (name path : Bytes) : Prop :=
  (0x2f : UInt8) ∉ name ∧
    (path = ascii "/v1/topics/" ++ name ++ ascii "/messages" ∨
      path = ascii "/v1/topics/" ++ name ++ ascii "/messages/")

/-- The parameter starts with a number of `w` bytes, if it is given. -/
def ParamFits (w : ℕ) (req : HttpRequest) (name : String) : Prop :=
  ∀ v, req.queryParams.lookup (ascii name) = some v → HoldsSigned w v

/-- The length of the body starts with a number, if it is given. -/
def LengthFits (data : Bytes) : Prop :=
  ∀ headerEnd firstEol req v, findSub (crlf ++ crlf) data = some headerEnd →
    findSub crlf data = some firstEol → parseHead data headerEnd firstEol = some req →
      req.headers.lookup (ascii "content-length") = some v → HoldsUnsigned v

/-- The range of messages that the request asks for can be shown. -/
def RangeFits (b : Broker) (name : Bytes) (req : HttpRequest) : Prop :=
  ∀ offset limit partition log seg,
    MessagePeek.queryParam req "offset" 0 MessagePeek.stoll = some offset →
    MessagePeek.queryParam req "limit" 10 stoi = some limit →
    MessagePeek.queryParam req "partition" 0 stoi = some partition →
    b.shardedLogs.find ⟨name, partition⟩ = some log →
    (log.read offset (MessagePeek.clampLimit limit * 65536)).data = some seg →
      Showable seg (MessagePeek.clampLimit limit)

/-- What the bytes received so far must be like. -/
structure Answerable (b : Broker) (data : Bytes) : Prop where
  length : LengthFits data
  get : ∀ req name, parseRequest data = .complete req → MessagesPath name req.path →
    req.method = ascii "GET" →
      ParamFits 8 req "offset" ∧ ParamFits 4 req "limit" ∧ ParamFits 4 req "partition" ∧
        RangeFits b name req
  post : ∀ req name, parseRequest data = .complete req → MessagesPath name req.path →
    req.method = ascii "POST" → jsonExtractMessages req.body ≠ [] → ParamFits 4 req "partition"

/-- `process_request` returns: it waits for more, closes the connection or queues a response,
and nothing that it calls throws or reads where it must not. -/
def returns (env : RestEnv) (data : Bytes) (b : Broker) : Bool :=
  match parseRequest data with
  | .throws => false
  | .complete req => (Broker.restRoute env req (some b)).2.isSome
  | .incomplete | .badRequestLine | .tooLarge => true

end StrikeMQ.Interface
