import StrikeMQ.Model.CircularBuffer

/-!
# A client connection and its events

`Connection` of `network/tcp_server.h` and what both servers do with one around their
processing of the read buffer: `handle_read`, `handle_write` and the dispatch of events. The
sockets' part is given by the event: the bytes that each `recv` returned, the number of bytes
that each `send` took, and whether the loop ended because the call would block or because it
failed. An event that no socket could give has no outcome.

A session is a connection together with what its server needs for it (whether it is still
registered, whether it waits for the socket to become writable, the state of the program
behind it) and with a history that no function reads: the bytes received, the requests handed
to the router, the responses passed to `queue_write`, each with the space that was free, and
the bytes sent.
-/

set_option autoImplicit false

namespace StrikeMQ.Model

open StrikeMQ.Lib

/-- SOURCE: network/tcp_server.h:36-52 -/
structure Connection where
  readBuf : FixedCircularBuffer := .new 131072
  writeBuf : FixedCircularBuffer := .new 131072

structure Session (ρ σ : Type) where
  conn : Connection := {}
  isOpen : Bool := true
  writeEnabled : Bool := false
  state : σ
  received : Bytes := []
  routed : List ρ := []
  queued : List (Bytes × ℕ) := []
  sent : Bytes := []

/-- How a loop of socket calls ended; `failed` also stands for a `recv` that returned 0. -/
inductive IoEnd where
  | wouldBlock
  | failed
  deriving DecidableEq, Repr

/-- What the event loop can be told about a connection.
SOURCE: network/tcp_server.cpp:168-176, http/http_server.cpp:247-255 -/
inductive Event where
  | readable (recvs : List Bytes) (ending : IoEnd)
  | writable (sends : List ℕ) (ending : IoEnd)
  | hangup
  deriving DecidableEq, Repr

namespace Session

variable {ρ σ : Type}

def close (s : Session ρ σ) : Session ρ σ :=
  { s with isOpen := false }

/-- `queue_write` and the `enable_write` after it. What does not fit is lost: the count that
`write` returns is not looked at.
SOURCE: network/tcp_server.h:45-47 -/
def queueWrite (s : Session ρ σ) (resp : Bytes) : Session ρ σ :=
  { s with
    conn := { s.conn with writeBuf := (s.conn.writeBuf.write resp).1 }
    writeEnabled := true
    queued := s.queued ++ [(resp, s.conn.writeBuf.freeSpace)] }

/-- The call of the router for a request. -/
def routeTo {τ : Type} (s : Session ρ σ) (route : ρ → σ → τ × σ) (request : ρ) :
    τ × Session ρ σ :=
  let (result, state) := route request s.state
  (result, { s with state := state, routed := s.routed ++ [request] })

def recv (s : Session ρ σ) (bs : Bytes) : Option (Session ρ σ) := do
  let b ← s.conn.readBuf.fill bs
  return { s with conn := { s.conn with readBuf := b }, received := s.received ++ bs }

def send (s : Session ρ σ) (n : ℕ) : Option (Session ρ σ) := do
  let (bs, b) ← s.conn.writeBuf.drain n
  return { s with conn := { s.conn with writeBuf := b }, sent := s.sent ++ bs }

end Session

/-- What the two servers do differently: the processing of the read buffer, and what follows
when everything has been sent. -/
structure Server (ρ σ : Type) where
  process : Session ρ σ → Session ρ σ
  drained : Session ρ σ → Session ρ σ

namespace Server

variable {ρ σ : Type}

/-- The loop reads until the buffer is full or the call would block, and both end in the
processing of what is there. A full buffer is noticed before the next call can fail.
SOURCE: network/tcp_server.cpp:182-204, http/http_server.cpp:292-315 -/
def handleRead (srv : Server ρ σ) (s : Session ρ σ) (recvs : List Bytes) (ending : IoEnd) :
    Option (Session ρ σ) := do
  let s ← recvs.foldlM Session.recv s
  match ending with
  | .wouldBlock => return srv.process s
  | .failed => if 0 < s.conn.readBuf.writeHead.2 then return s.close else none

/-- SOURCE: network/tcp_server.cpp:261-282, http/http_server.cpp:317-339 -/
def handleWrite (srv : Server ρ σ) (s : Session ρ σ) (sends : List ℕ) (ending : IoEnd) :
    Option (Session ρ σ) := do
  let s ← sends.foldlM Session.send s
  match ending with
  | .wouldBlock => return if s.conn.writeBuf.empty then srv.drained s else s
  | .failed => if s.conn.writeBuf.empty then none else return s.close

/-- A closed connection is no longer found; a connection that does not wait for the socket to
become writable is not told so. -/
def step (srv : Server ρ σ) (s : Session ρ σ) (e : Event) : Option (Session ρ σ) :=
  if s.isOpen then
    match e with
    | .readable recvs ending => srv.handleRead s recvs ending
    | .writable sends ending => if s.writeEnabled then srv.handleWrite s sends ending else none
    | .hangup => some s.close
  else some s

def run (srv : Server ρ σ) (s : Session ρ σ) (es : List Event) : Option (Session ρ σ) :=
  es.foldlM srv.step s

end Server

end StrikeMQ.Model
