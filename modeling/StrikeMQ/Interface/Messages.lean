import StrikeMQ.Model.HttpServer
import StrikeMQ.Model.TcpServer

/-!
# The messages that clients send

What the two protocols put on the wire: frames of a 32-bit size and so many bytes, and HTTP
messages of a head, an empty line and a body. A client may send its bytes in any pieces.
-/

set_option autoImplicit false

namespace StrikeMQ.Interface

open StrikeMQ.Lib StrikeMQ.Model StrikeMQ.Model.HttpServer

/-- A frame on the wire. -/
def frameBytes (frame : Bytes) : Bytes :=
  beInt 4 frame.length ++ frame

/-- A sequence of frames on the wire. -/
def framesWire (frames : List Bytes) : Bytes :=
  (frames.map frameBytes).flatten

/-- The frames of a sequence that are complete when its first `n` bytes have arrived. -/
def completedFrames : List Bytes → ℕ → List Bytes
  | [], _ => []
  | f :: fs, n => if 4 + f.length ≤ n then f :: completedFrames fs (n - (4 + f.length)) else []

/-- No frame of a sequence ends among the `k` bytes behind its first `n`. -/
def EndsNone (frames : List Bytes) (n k : ℕ) : Prop :=
  ∀ done, done <+: frames → (framesWire done).length ≤ n + k → (framesWire done).length ≤ n

/-- An HTTP message. The head is the request line and the header lines; the empty line after
it is the first one. -/
structure HttpMessage where
  head : Bytes
  body : Bytes
  head_ends : findSub (crlf ++ crlf) (head ++ (crlf ++ crlf)) = some head.length

namespace HttpMessage

def wire (m : HttpMessage) : Bytes :=
  m.head ++ (crlf ++ crlf) ++ m.body

/-- What the server makes of the head: the request, still without its body. -/
def headRequest (m : HttpMessage) : Option HttpRequest := do
  let firstEol ← findSub crlf (m.head ++ (crlf ++ crlf))
  parseHead (m.head ++ (crlf ++ crlf)) m.head.length firstEol

/-- The server reads the head as a request line and headers, and finds in them the length of
the body. -/
def Understood (m : HttpMessage) (req : HttpRequest) : Prop :=
  m.headRequest = some req ∧ contentLength req.headers = some m.body.length

end HttpMessage

/-- An event in which the client is still there: no call on its socket fails. -/
def Live : Event → Prop
  | .readable _ ending => ending = .wouldBlock
  | .writable _ ending => ending = .wouldBlock
  | .hangup => False

end StrikeMQ.Interface
