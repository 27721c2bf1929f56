import StrikeMQ.Model.WorkerThread

/-!
# Interleavings of the acceptor and a worker

The acceptor runs `assign_connection` again and again, the worker `drain_new_connections`
whenever its event loop reports the wakeup pipe, and each of the two consists of two steps that
the steps of the other may separate. Beside what the two share, a state says which of them is
between its steps, and keeps the descriptors that the acceptor was able to hand over.
-/

set_option autoImplicit false

namespace StrikeMQ.Interface

open StrikeMQ.Lib StrikeMQ.Model

structure Handoff where
  worker : WorkerThread
  assigning : Bool := false
  draining : Bool := false
  accepted : List ℤ := []

inductive HandoffStep where
  | push (fd : ℤ)
  | wake
  | drain
  | register
  deriving DecidableEq

namespace Handoff

/-- One step; `none` if the thread that takes it is not at that point. The event loop reports
the pipe only while it holds a byte. -/
def step (h : Handoff) : HandoffStep → Option Handoff
  | .push fd =>
    if h.assigning then none
    else
      match h.worker.pushFd fd with
      | (worker, true) =>
        some { h with worker := worker, assigning := true, accepted := h.accepted ++ [fd] }
      | (worker, false) => some { h with worker := worker }
  | .wake => if h.assigning then some { h with worker := h.worker.wake, assigning := false } else none
  | .drain =>
    if h.draining = false ∧ 0 < h.worker.wakeupPipe then
      some { h with worker := h.worker.drainPipe, draining := true }
    else none
  | .register =>
    if h.draining then some { h with worker := h.worker.registerFds, draining := false } else none

/-- The states after the given steps, from an idle worker without connections. -/
def run (pipeCapacity : ℕ) (steps : List HandoffStep) : Option Handoff :=
  steps.foldlM step { worker := { pipeCapacity := pipeCapacity } }

/-- When nobody is between two steps, descriptors in the ring are announced by a byte in the
pipe. -/
def Announced (h : Handoff) : Prop :=
  h.assigning = false → h.draining = false → h.worker.newFds.emptyApprox = false →
    0 < h.worker.wakeupPipe

/-- The worker is about to pop all that is in the ring, or will be woken again: by a byte that
is there since it read the pipe, or by the one that the acceptor is about to write. -/
def PopsAll (h : Handoff) : Prop :=
  h.worker.newFds.sizeApprox ≤ 64 ∨ 0 < h.worker.wakeupPipe ∨ h.assigning = true

end Handoff

end StrikeMQ.Interface
