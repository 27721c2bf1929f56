import StrikeMQ.Lib.WireFormat
import StrikeMQ.Model.MessagePeek

/-!
# What was posted to a partition

The REST interface takes lists of messages, each a key and a value, and shows messages again with
their offset and timestamp. In these terms a partition is the list of all messages posted to
it, numbered in order, each with the time of its post; an empty key counts as no key. Requests
that carry no message are refused and leave no trace in it.
-/

set_option autoImplicit false

namespace StrikeMQ.Interface

open StrikeMQ.Lib StrikeMQ.Model

/-- A list of messages, and the time at which they are taken. -/
structure Post where
  now : Word 8
  messages : List (Bytes × Bytes)

/-- A message as it is shown. -/
structure ShownMessage where
  offset : ℤ
  timestamp : ℤ
  key : Option Bytes
  value : Bytes
  deriving DecidableEq

namespace Post

def batch (tp : TopicPartition) (p : Post) : RecordBatch :=
  HttpServer.messageBatch tp p.now p.messages

/-- The number of bytes that the batch of a post takes with its header. -/
def size (p : Post) : ℕ :=
  61 + ((p.messages.mapIdx fun i m => HttpServer.encodeRecord i m.1 m.2).map List.length).sum

/-- The messages of a post, numbered from `o` on. -/
def shown (stamp : Post → ℤ) (o : ℤ) (p : Post) : List ShownMessage :=
  p.messages.mapIdx fun i m => ⟨o + i, stamp p, if m.1 = [] then none else some m.1, m.2⟩

/-- The messages of consecutive posts, numbered from `o` on, with the timestamp that `stamp`
gives each post. -/
def history (stamp : Post → ℤ) : ℤ → List Post → List ShownMessage
  | _, [] => []
  | o, p :: ps => p.shown stamp o ++ history stamp (o + p.messages.length) ps

/-- The number of messages in posts. -/
def count (ps : List Post) : ℕ :=
  (ps.map fun p => p.messages.length).sum

/-- The posts that the first `n` messages come from. -/
def firstPosts : ℕ → List Post → List Post
  | _, [] => []
  | n, p :: ps => (if n = 0 ∨ p.messages = [] then [] else [p]) ++ firstPosts (n - p.messages.length) ps

end Post

/-- What a parsed record tells its reader. -/
def ShownMessage.ofPeeked (m : PeekedMessage) : ShownMessage :=
  ⟨m.offset, m.timestamp, m.key, m.valueStr⟩

/-- A request to the REST producer, and the time at which it is handled. -/
structure PostRequest where
  now : Word 8
  req : HttpRequest

namespace PostRequest

def post (r : PostRequest) : Post :=
  ⟨r.now, jsonExtractMessages r.req.body⟩

/-- The request is for this partition of its topic. -/
def IsFor (tp : TopicPartition) (r : PostRequest) : Prop :=
  HttpServer.partitionParam r.req = some tp.partition

def handle (tp : TopicPartition) (r : PostRequest) (s : Option Broker) :
    HttpResponse × Option Broker :=
  Broker.handlePostMessages r.now tp.topic r.req s

/-- The broker after a sequence of requests. -/
def handleAll (tp : TopicPartition) (rs : List PostRequest) (s : Option Broker) : Option Broker :=
  rs.foldl (fun s r => (r.handle tp s).2) s

end PostRequest

end StrikeMQ.Interface
