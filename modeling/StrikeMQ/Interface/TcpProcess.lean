import StrikeMQ.Lib.Holders
import StrikeMQ.Interface.StreamIntegrity
import StrikeMQ.Model.TcpProcess

/-!
# Who has a descriptor

An open descriptor is in the acceptor's hand, in the ring of a worker, or the key of a connection
that its worker has not closed. What a connection must not depend on are the other connections: it
is what the events on its own descriptor, since this was registered, make of a new connection.
-/

set_option autoImplicit false

namespace StrikeMQ.Interface

open StrikeMQ.Lib StrikeMQ.Model

/-- The descriptor that a worker has closed and not yet erased. -/
def closing (w : Worker) : Option ℤ :=
  match w.position with
  | .handling _ => none
  | .draining _ => none
  | .erasing fd _ => some fd

/-- The reports that a worker has still to handle. -/
def pendingReports (w : Worker) : List Report :=
  match w.position with
  | .handling batch => batch
  | .draining batch => batch
  | .erasing _ batch => batch

/-- The descriptors in a worker's ring. -/
def waitingFds (w : Worker) : List ℤ :=
  (w.thread.newFds.tryPopBatch 1024).1

/-- The descriptors of the connections that a worker has not closed. -/
def liveFds (w : Worker) : List ℤ :=
  w.connections.keys.filter fun fd => closing w ≠ some fd

def heldFds (w : Worker) : List ℤ :=
  waitingFds w ++ liveFds w

variable {n : ℕ}

/-- The descriptor that the acceptor has not handed over. -/
def handFds (p : TcpProcess n) : List ℤ :=
  match p.acceptor with
  | .accepting => []
  | .assigning fd _ _ => [fd]
  | .waking _ => []

/-- `held`: every descriptor that is open is in one place, and nothing else is in any. `watched`:
the event loop of a worker watches its own connections. `reported`: what it has still to handle is
about them. -/
structure DescriptorsOwned (p : TcpProcess n) : Prop where
  held : (handFds p ++ allHeld fun k => heldFds (p.workers k)).Perm p.openFds
  nodup : p.openFds.Nodup
  watched : ∀ k, (p.workers k).epoll.Perm (liveFds (p.workers k))
  reported : ∀ k, ∀ fd ∈ clientFds (pendingReports (p.workers k)), fd ∈ liveFds (p.workers k)

/-- At some moment since the acceptor began to assign this descriptor, the ring of worker
`k` was full. -/
def FullDuring (pipeCapacity : Fin n → ℕ) (steps : List (ProcessStep n)) (fd : ℤ) (start : ℕ)
    (k : Fin n) : Prop :=
  ∃ before, before <+: steps ∧
    (∃ q, (TcpProcess.start n pipeCapacity).run before = some q ∧
      (waitingFds (q.workers k)).length = 1024) ∧
    ∀ mid, before <+: mid → mid <+: steps →
      ∃ q attempt, (TcpProcess.start n pipeCapacity).run mid = some q ∧
        q.acceptor = .assigning fd start attempt

/-- One event on a connection that is alone. -/
def replayStep (s : Session Bytes RouterAnswers) (x : Event × RouterAnswers) :
    Option (Session Bytes RouterAnswers) :=
  (tcpServer routeAnswers).step { s with state := x.2 } x.1

/-- What events make of a new connection. -/
def replay (history : List (Event × RouterAnswers)) : Option (Session Bytes RouterAnswers) :=
  history.foldlM replayStep { state := [] }

end StrikeMQ.Interface
