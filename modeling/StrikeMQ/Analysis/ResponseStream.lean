import StrikeMQ.Analysis.FrameProcessing
import StrikeMQ.Analysis.ResponseSize

/-!
# The stream of responses

`queue_write` keeps of a response what the write buffer has room for. So the bytes sent and
the bytes waiting are, at every moment, the responses cut to the room each of them found, and
they are the responses themselves exactly when each found room. Both servers reach the write
buffer only through `queue_write` and `send`, so this is shown once for both.
-/

set_option autoImplicit false

namespace StrikeMQ.Analysis.ResponseStream

open StrikeMQ.Lib StrikeMQ.Model StrikeMQ.Analysis.ByteQueue StrikeMQ.Analysis.SessionRuns
open StrikeMQ.Interface StrikeMQ.Analysis.FrameProcessing StrikeMQ.Analysis.ResponseSize

variable {ρ σ : Type}

/-- What was sent and what still waits are the responses, whole and in order. -/
def Intact (s : Session ρ σ) : Prop :=
  s.sent ++ s.conn.writeBuf.peek s.conn.writeBuf.size = (s.queued.map Prod.fst).flatten

/-- Each response found room for all its bytes when it was queued. -/
def AllFit (s : Session ρ σ) : Prop :=
  ∀ p ∈ s.queued, p.1.length ≤ p.2

/-- INTERNAL: the write side of a session: what was sent and what waits are the responses,
each cut to the room it found. -/
def WriteInv (s : Session ρ σ) : Prop :=
  ∃ q, HoldsQueue s.conn.writeBuf q ∧ s.conn.writeBuf.capacity = 131072 ∧
    s.sent ++ q = (s.queued.map fun p => p.1.take p.2).flatten

theorem length_flatten_take_le (l : List (Bytes × ℕ)) :
    (l.map fun p => p.1.take p.2).flatten.length ≤ (l.map Prod.fst).flatten.length := by
  induction l with
  | nil => exact le_refl _
  | cons p l ih =>
    simp only [List.map_cons, List.flatten_cons, List.length_append, List.length_take]
    omega

/-- INTERNAL: lists cut to given lengths concatenate to the whole only if nothing was cut. -/
theorem flatten_take_eq_iff (l : List (Bytes × ℕ)) :
    (l.map fun p => p.1.take p.2).flatten = (l.map Prod.fst).flatten ↔
      ∀ p ∈ l, p.1.length ≤ p.2 := by
  induction l with
  | nil => simp
  | cons p l ih =>
    rw [List.forall_mem_cons]
    simp only [List.map_cons, List.flatten_cons]
    constructor
    · intro heq
      -- neither part can be shorter than what it was cut from
      have hlen := congrArg List.length heq
      have hle := length_flatten_take_le l
      rw [List.length_append, List.length_append, List.length_take] at hlen
      have hp : p.1.length ≤ p.2 := by omega
      rw [List.take_of_length_le hp] at heq
      exact ⟨hp, ih.mp (List.append_cancel_left heq)⟩
    · rintro ⟨hp, hl⟩
      rw [List.take_of_length_le hp, ih.mpr hl]

theorem WriteInv.intact_iff {s : Session ρ σ} (h : WriteInv s) : Intact s ↔ AllFit s := by
  obtain ⟨q, hq, -, hstream⟩ := h
  rw [Intact, hq.peek, hq.size_eq, List.take_length, hstream]
  exact flatten_take_eq_iff s.queued

theorem writeInv_new (state : σ) : WriteInv ({ state := state } : Session ρ σ) :=
  ⟨[], holdsQueue_new (by norm_num) nextPowerOf2_connection, nextPowerOf2_connection, rfl⟩

namespace WriteInv

variable {s : Session ρ σ}

theorem queueWrite (h : WriteInv s) (resp : Bytes) : WriteInv (s.queueWrite resp) := by
  obtain ⟨q, hq, hcap, hstream⟩ := h
  refine ⟨_, hq.write resp, (HoldsQueue.capacity_write _ resp).trans hcap, ?_⟩
  show s.sent ++ (q ++ _) = (List.map _ (s.queued ++ [(resp, s.conn.writeBuf.freeSpace)])).flatten
  rw [← List.append_assoc, hstream, hq.freeSpace_eq, List.map_append, List.flatten_append]
  simp

theorem send (h : WriteInv s) {n : ℕ} {s' : Session ρ σ} (hsend : s.send n = some s') :
    WriteInv s' := by
  obtain ⟨q, hq, hcap, hstream⟩ := h
  obtain ⟨bs, b, hdrain, rfl⟩ := send_eq_some_iff.mp hsend
  obtain ⟨rfl, hb, hsame⟩ := hq.drain hdrain
  refine ⟨_, hb, hsame.trans hcap, ?_⟩
  show (s.sent ++ q.take n) ++ q.drop n = _
  rw [List.append_assoc, List.take_append_drop, hstream]

end WriteInv

theorem writeInv_answerFrame (route : Bytes → σ → Bytes × σ) {s : Session Bytes σ}
    (h : WriteInv s) (frame : Bytes) : WriteInv (TcpServer.answerFrame route s frame) := by
  have hrouted : WriteInv (s.routeTo route frame).2 := h
  simp only [TcpServer.answerFrame]
  split
  · exact hrouted.queueWrite _
  · exact hrouted

theorem writeInv_processRequest (route : HttpRequest → σ → HttpResponse × σ)
    {s : Session HttpRequest σ} (h : WriteInv s) :
    WriteInv (HttpServer.processRequest route s) := by
  unfold HttpServer.processRequest
  split
  · exact h
  · exact h
  · exact h
  · exact h.queueWrite _
  · rename_i req _
    have hrouted : WriteInv (s.routeTo route req).2 := h
    exact hrouted.queueWrite _

theorem kept_tcp (route : Bytes → σ → Bytes × σ) : Kept (tcpServer route) WriteInv where
  recv s bs s' h hrecv := by
    obtain ⟨b, -, rfl⟩ := recv_eq_some_iff.mp hrecv
    exact h
  send s n s' h hsend := h.send hsend
  process s h := processFrames_invariant route (P := WriteInv)
    (fun t _ ht _ _ => writeInv_answerFrame route ht _) (fun _ ht => ht) _ h
  drained s h := h
  close s h := h

theorem kept_http (route : HttpRequest → σ → HttpResponse × σ) :
    Kept (httpServer route) WriteInv where
  recv s bs s' h hrecv := by
    obtain ⟨b, -, rfl⟩ := recv_eq_some_iff.mp hrecv
    exact h
  send s n s' h hsend := h.send hsend
  process s h := writeInv_processRequest route h
  drained s h := h
  close s h := h

/-- PROPERTY: after any events on a connection of either server, with any router, any
segmentation and any partial sends, the bytes sent and waiting are all the responses in order
if and only if each response found room in the write buffer when it was queued.
SOURCE: network/tcp_server.h:45-47, utils/circular_buffer.h:93-106 -/
theorem response_stream_intact_iff_all_fit (state : σ) (es : List Event) :
    (∀ (route : Bytes → σ → Bytes × σ) (s : Session Bytes σ),
        (tcpServer route).run { state := state } es = some s → (Intact s ↔ AllFit s)) ∧
      ∀ (route : HttpRequest → σ → HttpResponse × σ) (s : Session HttpRequest σ),
        (httpServer route).run { state := state } es = some s → (Intact s ↔ AllFit s) := by
  constructor
  · intro route s hrun
    exact ((kept_tcp route).run (writeInv_new state) hrun).intact_iff
  · intro route s hrun
    exact ((kept_http route).run (writeInv_new state) hrun).intact_iff

theorem response_stream_intact_iff_all_fit_echo :
    ∃ s, (tcpServer fun f (_ : Unit) => (f, ())).run { state := () }
        [.readable [[0, 0, 0, 2, 5, 6]] .wouldBlock, .writable [1] .wouldBlock] = some s ∧
      s.queued = [([5, 6], 131072)] ∧ Intact s := by
  have hqueued : ((tcpServer fun f (_ : Unit) => (f, ())).run { state := () }
      [.readable [[0, 0, 0, 2, 5, 6]] .wouldBlock, .writable [1] .wouldBlock]).map
        Session.queued = some [([5, 6], 131072)] := by decide +kernel
  obtain ⟨s, hrun, hs⟩ := Option.map_eq_some_iff.mp hqueued
  refine ⟨s, hrun, hs, ((response_stream_intact_iff_all_fit () _).1 _ s hrun).mpr ?_⟩
  rw [AllFit, hs]
  decide

/-! ## Three responses to frames sent at once -/

/-- INTERNAL: what is intact is no longer than what was sent and what the buffer holds. -/
theorem WriteInv.length_le_of_intact {s : Session ρ σ} (h : WriteInv s) (hintact : Intact s) :
    (s.queued.map Prod.fst).flatten.length ≤ s.sent.length + 131072 := by
  obtain ⟨q, hq, hcap, -⟩ := h
  have hlen := hq.length_le
  rw [Intact, hq.peek, hq.size_eq, List.take_length] at hintact
  rw [← hintact, List.length_append]
  omega

/-- INTERNAL: complete frames that arrive at once on a new connection are answered before
anything is sent. -/
theorem run_frames (route : Bytes → σ → Bytes × σ) (state : σ) {fs : List Bytes}
    (hpos : 0 < (framesWire fs).length) (hle : (framesWire fs).length ≤ 131072)
    (hmax : ∀ f ∈ fs, f.length ≤ TcpServer.kMaxFrameSize) :
    ∃ s, (tcpServer route).run { state := state } [.readable [framesWire fs] .wouldBlock] =
        some s ∧
      s.queued.map Prod.fst = replies route fs state ∧ s.sent = [] := by
  obtain ⟨s₁, hrecv, -⟩ := recv_new Bytes state (framesWire fs) hpos hle
  have hrun := run_receive (tcpServer route) List.foldlM_nil rfl hrecv
  refine ⟨_, hrun, ?_⟩
  obtain ⟨b, hfill, hs₁⟩ := recv_eq_some_iff.mp hrecv
  have hqueue : HoldsQueue s₁.conn.readBuf (framesWire fs) := by
    rw [hs₁]
    exact ((holdsQueue_new (by norm_num) nextPowerOf2_connection).fill hfill).1
  have htaken := taken_processFrames_all route hmax hqueue
  refine ⟨htaken.queued_eq.trans ?_, htaken.sent_eq.trans ?_⟩
  · rw [hs₁]
    rfl
  · rw [hs₁]

/-- INTERNAL: a fetch does not change the broker. -/
theorem route_fetchFrame (b : Broker) :
    Broker.route .plain fetchFrame (some b) =
      ((RequestRouter.dispatch (Broker.handlers .plain) 65536 fetchRequest (some b)).response,
        some b) := by
  have hlen : fetchFrame.length = 49 := rfl
  rw [Broker.route, hlen, RequestRouter.routeRequest,
    show (Broker.handlers .plain).metadata.isSome = true from rfl, decode_fetchFrame]
  rfl

/-- Three fetches of a batch of 65497 bytes that arrive together: each response fits into the
response buffer, all three of them do not fit into the write buffer. -/
theorem pipelined_fetch_response_truncated :
    ∃ b, (RequestRouter.dispatch (Broker.handlers .plain) 65536
        ⟨1, 3, .produce { batches := [emptyRecords 9348] }⟩ (some {})).state = some b ∧
      ∃ s, (tcpServer (Broker.route .plain)).run { state := some b }
          [.readable [framesWire [fetchFrame, fetchFrame, fetchFrame]] .wouldBlock] = some s ∧
        (∀ p ∈ s.queued, p.1.length ≤ 65536) ∧ ¬ Intact s := by
  obtain ⟨b, hb, hread⟩ := readSize_after_produce (show 0 < 9348 by norm_num) (by norm_num)
  refine ⟨b, (state_dispatch_produce _ _ _ _ _ _).trans hb, ?_⟩
  have hframe : fetchFrame.length = 49 := rfl
  have hwire : (framesWire [fetchFrame, fetchFrame, fetchFrame]).length = 159 := by
    simp only [framesWire_cons, framesWire_nil, List.length_append, List.length_nil,
      length_frameBytes, hframe]
  obtain ⟨s, hrun, hqueued, hsent⟩ := run_frames (Broker.route .plain) (some b)
    (show 0 < (framesWire [fetchFrame, fetchFrame, fetchFrame]).length by omega) (by omega)
    (by simp [hframe, TcpServer.kMaxFrameSize])
  have hroute := route_fetchFrame b
  generalize hresp : (RequestRouter.dispatch (Broker.handlers .plain) 65536 fetchRequest
    (some b)).response = resp at hroute
  have hlen : resp.length = 65534 := by
    rw [← hresp, length_response, responseWidth_fetchRequest hread]
  have hreplies : s.queued.map Prod.fst = [resp, resp, resp] := by
    rw [hqueued]
    simp [replies, reply, hroute, hlen]
  refine ⟨s, hrun, ?_, ?_⟩
  · intro p hp
    have hmem : p.1 ∈ [resp, resp, resp] := by
      rw [← hreplies]
      exact List.mem_map_of_mem hp
    simp only [List.mem_cons, List.not_mem_nil, or_false, or_self] at hmem
    rw [hmem, hlen]
    norm_num
  · intro hintact
    have hinv : WriteInv s := (kept_tcp (Broker.route .plain)).run (writeInv_new (some b)) hrun
    have hle := hinv.length_le_of_intact hintact
    rw [hreplies, hsent] at hle
    simp only [List.flatten_cons, List.flatten_nil, List.length_append, List.length_nil, hlen] at hle
    omega

end StrikeMQ.Analysis.ResponseStream
