import StrikeMQ.Model.Connection

/-!
# The Kafka server's connections

`WorkerThread` of `network/tcp_server.cpp`, epoll build: frames of a 32-bit size and so many
bytes are taken from the read buffer and handed to the router, and what the router returns is
queued. The router is a function of the frame and of the state behind it.
-/

set_option autoImplicit false

namespace StrikeMQ.Model

open StrikeMQ.Lib

namespace TcpServer

variable {σ : Type}

/-- SOURCE: network/tcp_server.h:101 -/
def kMaxFrameSize : ℕ := 104857600

/-- The bytes of the frame behind its size: in place where the ring holds them in one piece,
copied together where they wrap.
SOURCE: network/tcp_server.cpp:222-242 -/
def frameData (b : FixedCircularBuffer) (frameSize : ℕ) : Bytes :=
  let total := 4 + frameSize
  let (pos, contig) := b.readHead
  if contig ≥ total then copyOut b.data (pos + 4) frameSize else (b.peek total).drop 4

/-- SOURCE: network/tcp_server.cpp:244-255 -/
def answerFrame (route : Bytes → σ → Bytes × σ) (s : Session Bytes σ) (frame : Bytes) :
    Session Bytes σ :=
  let (resp, s) := s.routeTo route frame
  if resp.length > 0 then s.queueWrite resp else s

/-- One round: the frame is answered, then taken from the buffer.
SOURCE: network/tcp_server.cpp:222-257 -/
def processFrame (route : Bytes → σ → Bytes × σ) (s : Session Bytes σ) (frameSize : ℕ) :
    Session Bytes σ :=
  let s := answerFrame route s (frameData s.conn.readBuf frameSize)
  { s with conn := { s.conn with readBuf := s.conn.readBuf.advanceTail (4 + frameSize) } }

/-- Each round takes at least the four bytes of a size from the buffer, so as many rounds as
there are bytes are enough.
SOURCE: network/tcp_server.cpp:206-259 -/
def processFrames (route : Bytes → σ → Bytes × σ) : ℕ → Session Bytes σ → Session Bytes σ
  | 0, s => s
  | fuel + 1, s =>
    if s.conn.readBuf.size ≥ 4 then
      let frameSize := beNat (s.conn.readBuf.peek 4)
      if frameSize > kMaxFrameSize then s.close
      else if s.conn.readBuf.size < 4 + frameSize then s
      else processFrames route fuel (processFrame route s frameSize)
    else s

end TcpServer

/-- SOURCE: network/tcp_server.cpp:54-322 -/
def tcpServer {σ : Type} (route : Bytes → σ → Bytes × σ) : Server Bytes σ where
  process s := TcpServer.processFrames route s.conn.readBuf.size s
  drained s := { s with writeEnabled := false }

end StrikeMQ.Model
