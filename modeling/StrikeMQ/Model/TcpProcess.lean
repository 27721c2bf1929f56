import Mathlib.Data.List.AList
import StrikeMQ.Model.TcpServer
import StrikeMQ.Model.WorkerThread

/-!
# The Kafka server as a process

`TcpServer` with all its workers, epoll build. The acceptor hands each accepted descriptor to a
worker in turn; a worker's event loop takes a batch of reports from `epoll_wait` and handles one
after the other, each on the connection that its map holds for the descriptor. Descriptors are
numbers that the system gives out again as soon as they have been closed, and `close_connection`
closes the descriptor before it erases the connection from the map. So the steps of a thread are
cut where another thread can see the difference.

What the router answers while an event is handled depends on what all the other threads do to the
state behind it. Here the answers come with the event.

A worker also keeps a history that no function reads: what has been handled on each descriptor
since it was registered. The acceptor keeps to whom it gave the connections.
-/

set_option autoImplicit false

namespace StrikeMQ.Model

open StrikeMQ.Lib

/-- What the router returns for the frames of one event, in order. -/
abbrev RouterAnswers : Type := List Bytes

/-- The router as a connection sees it. -/
def routeAnswers (_frame : Bytes) (answers : RouterAnswers) : Bytes × RouterAnswers :=
  (answers.headD [], answers.tail)

/-- What `epoll_wait` says of a descriptor. -/
inductive Readiness where
  | readable
  | writable
  | hangup
  deriving DecidableEq, Repr

def Event.readiness : Event → Readiness
  | .readable _ _ => .readable
  | .writable _ _ => .writable
  | .hangup => .hangup

inductive Report where
  | wakeup
  | client (fd : ℤ) (readiness : Readiness)
  deriving DecidableEq, Repr

/-- The descriptors that a batch has reports of. -/
def clientFds (batch : List Report) : List ℤ :=
  batch.filterMap fun
    | .wakeup => none
    | .client fd _ => some fd

/-- Where a worker is in its event loop, with the reports that are still to be handled.
`draining`: the pipe has been read, the ring not yet. `erasing`: the descriptor has been closed,
the connection is still in the map. -/
inductive WorkerAt where
  | handling (batch : List Report)
  | draining (batch : List Report)
  | erasing (fd : ℤ) (batch : List Report)

/-- SOURCE: network/tcp_server.h:85-95 -/
structure Worker where
  thread : WorkerThread
  connections : AList fun _ : ℤ => Session Bytes RouterAnswers := ∅
  epoll : List ℤ := []
  position : WorkerAt := .handling []
  history : ℤ → List (Event × RouterAnswers) := fun _ => []

namespace Worker

/-- SOURCE: network/tcp_server.h:102 -/
def kMaxEvents : ℕ := 64

/-- The descriptor is registered for what is reported of it. -/
def reports (w : Worker) : Report → Bool
  | .wakeup => 0 < w.thread.wakeupPipe
  | .client fd .writable =>
    decide (fd ∈ w.epoll) && (w.connections.lookup fd).any Session.writeEnabled
  | .client fd _ => fd ∈ w.epoll

/-- `epoll_wait` reports each descriptor at most once.
SOURCE: network/tcp_server.cpp:154-156 -/
def poll (w : Worker) (batch : List Report) : Option Worker :=
  match w.position with
  | .handling [] =>
    if batch.length ≤ kMaxEvents ∧ batch.Nodup ∧ (clientFds batch).Nodup ∧
        ∀ r ∈ batch, w.reports r = true then
      some { w with position := .handling batch }
    else none
  | _ => none

/-- SOURCE: network/tcp_server.cpp:94-98, 163-166 -/
def drain (w : Worker) : Option Worker :=
  match w.position with
  | .handling (.wakeup :: batch) =>
    some { w with thread := w.thread.drainPipe, position := .draining batch }
  | _ => none

/-- One descriptor from the ring. `emplace` leaves a connection alone that is there already.
SOURCE: network/tcp_server.cpp:104-119 -/
def registerFd (w : Worker) (fd : ℤ) : Worker :=
  { w with
    connections :=
      if fd ∈ w.connections then w.connections else w.connections.insert fd { state := [] }
    epoll := w.epoll ++ [fd]
    history := Function.update w.history fd [] }

/-- SOURCE: network/tcp_server.cpp:100-121 -/
def register (w : Worker) : Option Worker :=
  match w.position with
  | .draining batch =>
    some ((w.thread.newFds.tryPopBatch 64).1.foldl registerFd
      { w with thread := w.thread.registerFds, position := .handling batch })
  | _ => none

/-- The first half of `close_connection`, as far as the worker is concerned.
SOURCE: network/tcp_server.cpp:292 -/
def closeFd (w : Worker) (fd : ℤ) (batch : List Report) : Worker :=
  { w with epoll := w.epoll.erase fd, position := .erasing fd batch }

/-- A client's report. The descriptor that this closes, if any, comes with the worker. A
descriptor without a connection is only closed, and only if it is reported as hung up.
SOURCE: network/tcp_server.cpp:167-176, 182-185, 261-264 -/
def handle (w : Worker) (e : Event) (answers : RouterAnswers) : Option (Worker × Option ℤ) :=
  match w.position with
  | .handling (.client fd readiness :: batch) =>
    if e.readiness = readiness then
      match w.connections.lookup fd with
      | none =>
        match e with
        | .hangup => some (w.closeFd fd batch, some fd)
        | _ => some ({ w with position := .handling batch }, none)
      | some s => do
        let s ← (tcpServer routeAnswers).step { s with state := answers } e
        let w := { w with
          connections := w.connections.insert fd s
          history := Function.update w.history fd (w.history fd ++ [(e, answers)]) }
        return if s.isOpen then ({ w with position := .handling batch }, none)
          else (w.closeFd fd batch, some fd)
    else none
  | _ => none

/-- The second half of `close_connection`.
SOURCE: network/tcp_server.cpp:295 -/
def erase (w : Worker) : Option Worker :=
  match w.position with
  | .erasing fd batch =>
    some { w with connections := w.connections.erase fd, position := .handling batch }
  | _ => none

end Worker

/-- Where the acceptor is: between two attempts to hand over a descriptor, or between the two
halves of `assign_connection`. -/
inductive AcceptorAt (n : ℕ) where
  | accepting
  | assigning (fd : ℤ) (start attempt : ℕ)
  | waking (worker : Fin n)

/-- The server with `n` workers, and the clients' descriptors that are open.
SOURCE: network/tcp_server.h:120-127 -/
structure TcpProcess (n : ℕ) where
  workers : Fin n → Worker
  nextWorker : ℕ := 0
  acceptor : AcceptorAt n := .accepting
  openFds : List ℤ := []
  assigned : List (Fin n) := []

inductive ProcessStep (n : ℕ) where
  | accept (fd : ℤ)
  | assign
  | wake
  | poll (k : Fin n) (batch : List Report)
  | drain (k : Fin n)
  | register (k : Fin n)
  | handle (k : Fin n) (e : Event) (answers : RouterAnswers)
  | erase (k : Fin n)

namespace TcpProcess

variable {n : ℕ}

def setWorker (p : TcpProcess n) (k : Fin n) (w : Worker) : TcpProcess n :=
  { p with workers := Function.update p.workers k w }

/-- The system gives a descriptor that is not open.
SOURCE: network/tcp_server.cpp:639-648 -/
def accept (p : TcpProcess n) (fd : ℤ) : Option (TcpProcess n) :=
  match p.acceptor with
  | .accepting =>
    if fd ∈ p.openFds then none
    else some { p with acceptor := .assigning fd p.nextWorker 0, openFds := fd :: p.openFds }
  | _ => none

/-- The worker that an attempt is made with.
SOURCE: network/tcp_server.cpp:660 -/
def workerIdx (start : ℕ) {attempt : ℕ} (h : attempt < n) : Fin n :=
  ⟨(start + attempt) % n, Nat.mod_lt _ (Nat.zero_lt_of_lt h)⟩

/-- One round of the loop over the workers, or what follows when no worker has taken the
descriptor.
SOURCE: network/tcp_server.cpp:656-672 -/
def assign (p : TcpProcess n) : Option (TcpProcess n) :=
  match p.acceptor with
  | .assigning fd start attempt =>
    if h : attempt < n then
      let idx := workerIdx start h
      let w := p.workers idx
      match w.thread.pushFd fd with
      | (thread, true) =>
        some { p.setWorker idx { w with thread := thread } with
          acceptor := .waking idx
          assigned := p.assigned ++ [idx] }
      | (thread, false) =>
        some { p.setWorker idx { w with thread := thread } with
          acceptor := .assigning fd start (attempt + 1) }
    else some { p with acceptor := .accepting, openFds := p.openFds.erase fd }
  | _ => none

/-- SOURCE: network/tcp_server.cpp:89-91, 662-664 -/
def wake (p : TcpProcess n) : Option (TcpProcess n) :=
  match p.acceptor with
  | .waking idx =>
    let w := p.workers idx
    some { p.setWorker idx { w with thread := w.thread.wake } with
      acceptor := .accepting
      nextWorker := (idx + 1) % n }
  | _ => none

/-- A report that closes a descriptor gives it back to the system.
SOURCE: network/tcp_server.cpp:294 -/
def handle (p : TcpProcess n) (k : Fin n) (e : Event) (answers : RouterAnswers) :
    Option (TcpProcess n) := do
  let (w, closed) ← (p.workers k).handle e answers
  let p := p.setWorker k w
  return match closed with
    | none => p
    | some fd => { p with openFds := p.openFds.erase fd }

def step (p : TcpProcess n) : ProcessStep n → Option (TcpProcess n)
  | .accept fd => p.accept fd
  | .assign => p.assign
  | .wake => p.wake
  | .poll k batch => ((p.workers k).poll batch).map (p.setWorker k)
  | .drain k => (p.workers k).drain.map (p.setWorker k)
  | .register k => (p.workers k).register.map (p.setWorker k)
  | .handle k e answers => p.handle k e answers
  | .erase k => (p.workers k).erase.map (p.setWorker k)

/-- The server as `run` starts it, with the room that the system gives each wakeup pipe.
SOURCE: network/tcp_server.cpp:569-576 -/
def start (n : ℕ) (pipeCapacity : Fin n → ℕ) : TcpProcess n where
  workers k := { thread := { pipeCapacity := pipeCapacity k } }

def run (p : TcpProcess n) (steps : List (ProcessStep n)) : Option (TcpProcess n) :=
  steps.foldlM step p

end TcpProcess

end StrikeMQ.Model
