import StrikeMQ.Model.RingBuffer

/-!
# How a worker gets its connections

`WorkerThread` of `network/tcp_server.cpp`, epoll and kqueue builds: the acceptor pushes a
descriptor into the worker's ring and writes a byte to its wakeup pipe, and the worker, when
its event loop reports the pipe, reads the pipe until it is empty and pops descriptors from the
ring. Both ends of the pipe are non-blocking, so a byte that finds it full is lost; how many
bytes it takes is up to the system.
-/

set_option autoImplicit false

namespace StrikeMQ.Model

open StrikeMQ.Lib

/-- What the acceptor and the worker share, and the descriptors that the worker has registered
with its event loop, in the order in which it did.
SOURCE: network/tcp_server.h:85-95 -/
structure WorkerThread where
  newFds : SpscRingBuffer ℤ 1024 := SpscRingBuffer.new 0
  pipeCapacity : ℕ
  wakeupPipe : ℕ := 0
  registered : List ℤ := []

namespace WorkerThread

/-- The first half of `assign_connection`, which ends it if the ring is full.
SOURCE: network/tcp_server.cpp:88 -/
def pushFd (w : WorkerThread) (fd : ℤ) : WorkerThread × Bool :=
  let (newFds, pushed) := w.newFds.tryPush fd
  ({ w with newFds := newFds }, pushed)

/-- The second half of `assign_connection`.
SOURCE: network/tcp_server.cpp:89-91 -/
def wake (w : WorkerThread) : WorkerThread :=
  { w with wakeupPipe := min (w.wakeupPipe + 1) w.pipeCapacity }

/-- The first half of `drain_new_connections`.
SOURCE: network/tcp_server.cpp:96-98 -/
def drainPipe (w : WorkerThread) : WorkerThread :=
  { w with wakeupPipe := 0 }

/-- The second half of `drain_new_connections`.
SOURCE: network/tcp_server.cpp:100-120 -/
def registerFds (w : WorkerThread) : WorkerThread :=
  let (fds, newFds) := w.newFds.tryPopBatch 64
  { w with newFds := newFds, registered := w.registered ++ fds }

end WorkerThread

end StrikeMQ.Model
