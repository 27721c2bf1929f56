import StrikeMQ.Analysis.DescriptorOwnership
import StrikeMQ.Analysis.WriteInterest

/-!
# Connections do not see each other

However many connections a process has, on whichever workers, and whatever numbers their
descriptors had before: a connection is at every moment what the events on its own descriptor make
of a new connection. So what holds of a connection that is alone holds of each of them. The frames
handed to the router and the bytes still in its read buffer are what its client has sent, and what
it has sent and what still waits are the answers to these frames.
-/

set_option autoImplicit false

namespace StrikeMQ.Analysis.ConnectionIsolation

open StrikeMQ.Lib StrikeMQ.Model StrikeMQ.Interface StrikeMQ.Analysis.SessionRuns
open StrikeMQ.Analysis.ResponseStream StrikeMQ.Analysis.UringStreams
open StrikeMQ.Analysis.WriteInterest StrikeMQ.Analysis.DescriptorOwnership

/-! ## A connection that is alone -/

/-- INTERNAL: what the steps of a connection keep, whatever the router answers. -/
theorem replay_invariant {P : Session Bytes RouterAnswers → Prop} (hnew : P { state := [] })
    (hstep : ∀ s e s', P s → (tcpServer routeAnswers).step s e = some s' → P s')
    (hstate : ∀ s answers, P s → P { s with state := answers })
    {history : List (Event × RouterAnswers)}
    {s : Session Bytes RouterAnswers} (h : replay history = some s) : P s :=
  foldlM_invariant (fun t x t' ht hreplay => hstep _ x.1 t' (hstate t x.2 ht) hreplay) hnew h

/-- INTERNAL: all that was received is handed on or still in the buffer. -/
theorem kept_reading {σ : Type} (route : Bytes → σ → Bytes × σ) :
    Kept (tcpServer route) (Reading []) where
  recv s bs s' h hrecv := by
    obtain ⟨q, hq, -, hreceived⟩ := h
    rw [List.append_nil] at hreceived
    obtain ⟨b, hfill, rfl⟩ := recv_eq_some_iff.mp hrecv
    refine reading_nil (hq.fill hfill).1 ?_
    show s.received ++ bs = framesWire s.routed ++ (q ++ bs)
    rw [hreceived, List.append_assoc]
  send s n s' h hsend := by
    obtain ⟨bs, b, -, rfl⟩ := send_eq_some_iff.mp hsend
    exact h
  process s h := reading_processFrames route s.conn.readBuf.size h
  drained s h := h
  close s h := h

/-- INTERNAL: what holds of every connection that is alone. -/
theorem reading_replay {history : List (Event × RouterAnswers)} {s : Session Bytes RouterAnswers}
    (h : replay history = some s) : Reading [] s := by
  refine replay_invariant (P := Reading []) ?_ (fun t e t' ht hstep => ?_) (fun t answers ht => ht)
    h
  · exact reading_nil (ByteQueue.holdsQueue_new (by norm_num) nextPowerOf2_connection) rfl
  · exact (kept_reading routeAnswers).step ht hstep

theorem watched_replay {history : List (Event × RouterAnswers)} {s : Session Bytes RouterAnswers}
    (h : replay history = some s) : WriteInv s ∧ WatchedWhilePending s := by
  refine replay_invariant (P := fun t => WriteInv t ∧ WatchedWhilePending t) (watched_new [])
    (fun t e t' ht hstep => ?_) (fun t answers ht => ht) h
  exact (keepsWatch_tcp routeAnswers).step ht hstep

/-! ## A connection among others -/

variable {n : ℕ} {p : TcpProcess n}

/-- PROPERTY: in every interleaving of the acceptor and the workers, each connection is what the
events on its own descriptor since its registration make of a new connection. So what its client
has sent is the frames handed to the router for it and what its read buffer holds, and what it has
sent and what waits are the answers to these frames, each cut to the room that it found.
SOURCE: network/tcp_server.cpp:94-121, 153-297 -/
theorem connections_isolated {pipeCapacity : Fin n → ℕ} {steps : List (ProcessStep n)}
    (hrun : (TcpProcess.start n pipeCapacity).run steps = some p) (k : Fin n) (fd : ℤ)
    (s : Session Bytes RouterAnswers) (hs : (p.workers k).connections.lookup fd = some s) :
    replay ((p.workers k).history fd) = some s ∧
      s.received = framesWire s.routed ++ s.conn.readBuf.peek s.conn.readBuf.size ∧
      s.sent ++ s.conn.writeBuf.peek s.conn.writeBuf.size = acceptedBytes s := by
  have hreplay := ((owned_run hrun).sound k).replayed fd s hs
  obtain ⟨q, hq, -, hreceived⟩ := reading_replay hreplay
  obtain ⟨⟨r, hr, -, hstream⟩, -⟩ := watched_replay hreplay
  refine ⟨hreplay, ?_, ?_⟩
  · rw [hreceived, hq.peek, hq.size_eq, List.take_length, List.append_nil]
  · rw [hr.peek, hr.size_eq, List.take_length, hstream]
    rfl

/-- Two clients one after the other on the same descriptor: the first one leaves in the middle of a
frame, and its number is given out again before its connection is erased. -/
def sameNumber (k : Fin 1) : List (ProcessStep 1) :=
  [.accept 7, .assign, .wake, .poll k [.wakeup], .drain k, .register k,
    .poll k [.client 7 .readable], .handle k (.readable [[0, 0, 0, 2, 5]] .wouldBlock) [],
    .poll k [.client 7 .hangup], .handle k .hangup [], .accept 7, .assign, .wake, .erase k,
    .poll k [.wakeup], .drain k, .register k, .poll k [.client 7 .readable],
    .handle k (.readable [[0, 0, 0, 1, 9]] .wouldBlock) [[8]]]

theorem connections_isolated_same_number :
    ∃ p s, (TcpProcess.start 1 fun _ => 65536).run (sameNumber 0) = some p ∧
      (p.workers 0).connections.lookup 7 = some s ∧ s.routed = [[9]] ∧
      replay [(.readable [[0, 0, 0, 1, 9]] .wouldBlock, [[8]])] = some s := by
  have hstate : ((TcpProcess.start 1 fun _ => 65536).run (sameNumber 0)).map (fun p =>
      (((p.workers 0).connections.lookup 7).map Session.routed, (p.workers 0).history 7)) =
        some (some [[9]], [(.readable [[0, 0, 0, 1, 9]] .wouldBlock, [[8]])]) := by
    decide +kernel
  obtain ⟨p, hrun, hfacts⟩ := Option.map_eq_some_iff.mp hstate
  obtain ⟨hconn, hhistory⟩ := Prod.mk.inj hfacts
  obtain ⟨s, hs, hrouted⟩ := Option.map_eq_some_iff.mp hconn
  refine ⟨p, s, hrun, hs, hrouted, ?_⟩
  rw [← hhistory]
  exact (connections_isolated hrun 0 7 s hs).1

end StrikeMQ.Analysis.ConnectionIsolation
