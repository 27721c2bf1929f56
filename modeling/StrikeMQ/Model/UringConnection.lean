import StrikeMQ.Model.TcpServer

/-!
# A connection of the io_uring build

`WorkerThread::run_io_uring` of `network/tcp_server.cpp`. In each round of its loop the worker
submits for every connection a receive into the place that the read buffer offers and a send of what
the write buffer offers. Then it handles the completions that are there, or goes on without any when
a millisecond has passed. It keeps no note of operations under way.

The kernel completes a submitted operation at any later time, in the memory that the submission
named, and the worker handles the completion later still. A send that is completed takes its bytes
at that moment. Of the operations, those on a connection are modelled; a connection that is closed
is no longer found.
-/

set_option autoImplicit false

namespace StrikeMQ.Model

open StrikeMQ.Lib

/-- The operations on a connection.
SOURCE: network/io_uring_defs.h:8-13 -/
inductive UringOp where
  | recv
  | send
  deriving DecidableEq, Repr

/-- A completion; `res` is 0 where the source has a number that is not positive. -/
structure Cqe where
  op : UringOp
  res : ℕ
  deriving DecidableEq, Repr

/-- A session with the operations that the kernel has not completed, each with the position and
the length that it was submitted with, and the completions that the worker has not handled. -/
structure UringConnection (σ : Type) where
  session : Session Bytes σ
  recvs : List (ℕ × ℕ) := []
  sends : List (ℕ × ℕ) := []
  cqes : List Cqe := []

/-- What can happen next: the worker comes to the connection in its loop, with or without a free
entry for each submission; the kernel completes an operation, or has it fail; the worker handles a
completion. -/
inductive UringStep where
  | submit (recvSqe sendSqe : Bool)
  | recvDone (i : ℕ) (bs : Bytes)
  | sendDone (i n : ℕ)
  | recvFailed (i : ℕ)
  | sendFailed (i : ℕ)
  | reap
  deriving DecidableEq, Repr

namespace UringConnection

variable {σ : Type}

/-- SOURCE: network/tcp_server.cpp:421-429 -/
def submitRecv (u : UringConnection σ) : UringConnection σ :=
  let (pos, avail) := u.session.conn.readBuf.writeHead
  if avail > 0 then { u with recvs := u.recvs ++ [(pos, avail)] } else u

/-- SOURCE: network/tcp_server.cpp:430-440 -/
def submitSend (u : UringConnection σ) : UringConnection σ :=
  if u.session.conn.writeBuf.empty then u
  else
    let (pos, avail) := u.session.conn.writeBuf.readHead
    if avail > 0 then { u with sends := u.sends ++ [(pos, avail)] } else u

/-- SOURCE: network/tcp_server.cpp:420-441 -/
def submit (u : UringConnection σ) (recvSqe sendSqe : Bool) : UringConnection σ :=
  let u := if recvSqe then u.submitRecv else u
  if sendSqe then u.submitSend else u

/-- The kernel puts the next bytes of the stream where the submission said. -/
def recvDone (u : UringConnection σ) (i : ℕ) (bs : Bytes) : Option (UringConnection σ) := do
  let (pos, len) ← u.recvs[i]?
  let b := u.session.conn.readBuf
  if 0 < bs.length ∧ bs.length ≤ len then
    some { u with
      session := { u.session with
        conn := { u.session.conn with readBuf := { b with data := copyIn b.data pos bs } }
        received := u.session.received ++ bs }
      recvs := u.recvs.eraseIdx i
      cqes := u.cqes ++ [⟨.recv, bs.length⟩] }
  else none

/-- The kernel takes the first bytes from where the submission said. -/
def sendDone (u : UringConnection σ) (i n : ℕ) : Option (UringConnection σ) := do
  let (pos, len) ← u.sends[i]?
  if 0 < n ∧ n ≤ len then
    some { u with
      session := { u.session with
        sent := u.session.sent ++ copyOut u.session.conn.writeBuf.data pos n }
      sends := u.sends.eraseIdx i
      cqes := u.cqes ++ [⟨.send, n⟩] }
  else none

def recvFailed (u : UringConnection σ) (i : ℕ) : Option (UringConnection σ) := do
  let _ ← u.recvs[i]?
  return { u with recvs := u.recvs.eraseIdx i, cqes := u.cqes ++ [⟨.recv, 0⟩] }

def sendFailed (u : UringConnection σ) (i : ℕ) : Option (UringConnection σ) := do
  let _ ← u.sends[i]?
  return { u with sends := u.sends.eraseIdx i, cqes := u.cqes ++ [⟨.send, 0⟩] }

/-- SOURCE: network/tcp_server.cpp:357-367 -/
def handleRecvCompletion (route : Bytes → σ → Bytes × σ) (s : Session Bytes σ) (res : ℕ) :
    Session Bytes σ :=
  if res = 0 then s.close
  else
    let s := { s with conn := { s.conn with readBuf := s.conn.readBuf.advanceHead res } }
    TcpServer.processFrames route s.conn.readBuf.size s

/-- SOURCE: network/tcp_server.cpp:369-378 -/
def handleSendCompletion (s : Session Bytes σ) (res : ℕ) : Session Bytes σ :=
  if res = 0 then s.close
  else { s with conn := { s.conn with writeBuf := s.conn.writeBuf.advanceTail res } }

/-- SOURCE: network/tcp_server.cpp:452-478 -/
def reap (route : Bytes → σ → Bytes × σ) (u : UringConnection σ) : Option (UringConnection σ) :=
  match u.cqes with
  | [] => none
  | c :: cqes => some { u with
      session :=
        match c.op with
        | .recv => handleRecvCompletion route u.session c.res
        | .send => handleSendCompletion u.session c.res
      cqes := cqes }

/-- SOURCE: network/tcp_server.cpp:415-480 -/
def step (route : Bytes → σ → Bytes × σ) (u : UringConnection σ) (a : UringStep) :
    Option (UringConnection σ) :=
  if u.session.isOpen then
    match a with
    | .submit recvSqe sendSqe => some (u.submit recvSqe sendSqe)
    | .recvDone i bs => u.recvDone i bs
    | .sendDone i n => u.sendDone i n
    | .recvFailed i => u.recvFailed i
    | .sendFailed i => u.sendFailed i
    | .reap => u.reap route
  else some u

def run (route : Bytes → σ → Bytes × σ) (u : UringConnection σ) (steps : List UringStep) :
    Option (UringConnection σ) :=
  steps.foldlM (step route) u

end UringConnection

end StrikeMQ.Model
