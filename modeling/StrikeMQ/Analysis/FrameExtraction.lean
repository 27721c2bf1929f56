import StrikeMQ.Analysis.FrameProcessing
import StrikeMQ.Analysis.QueueRefinement

/-!
# Frames do not depend on how their bytes arrive

A connection whose read buffer is empty, its counters standing anywhere, is sent a sequence of
frames that each fit into the buffer. After every event the router has been handed exactly the
frames whose last byte has arrived, whatever the pieces in which the bytes came and wherever
the buffer wrapped. That the frame may be passed in place or as a copy makes no difference: as
long as it lies in one piece, the two are the same bytes.
-/

set_option autoImplicit false

namespace StrikeMQ.Analysis.FrameExtraction

open StrikeMQ.Lib StrikeMQ.Model StrikeMQ.Model.TcpServer StrikeMQ.Interface
open StrikeMQ.Analysis.ByteQueue StrikeMQ.Analysis.SessionRuns
open StrikeMQ.Analysis.FrameProcessing StrikeMQ.Analysis.QueueRefinement

variable {σ : Type}

/-- INTERNAL: a part of the next frame completes nothing. -/
theorem completedFrames_of_isPartial {later : List Bytes} {q : Bytes} (h : IsPartial later q) :
    completedFrames later q.length = [] := by
  cases later with
  | nil => rfl
  | cons f later =>
    have hlt : q.length < 4 + f.length := h.2
    rw [completedFrames, if_neg (by omega)]

/-- INTERNAL: the bytes of whole frames complete these. -/
theorem completedFrames_append (now later : List Bytes) (n : ℕ) :
    completedFrames (now ++ later) ((framesWire now).length + n) =
      now ++ completedFrames later n := by
  induction now with
  | nil => simp
  | cons f now ih =>
    have hrest : (framesWire (f :: now)).length + n - (4 + f.length) =
        (framesWire now).length + n := by
      rw [framesWire_cons, List.length_append, length_frameBytes]
      omega
    rw [List.cons_append, completedFrames, if_pos, hrest, ih, List.cons_append]
    rw [framesWire_cons, List.length_append, length_frameBytes]
    omega

/-- INTERNAL: between events, the frames routed are those that are complete. -/
theorem routed_eq_completedFrames {fs later : List Bytes} {s : Session Bytes σ} {q : Bytes}
    (h : Receiving fs s later q) (hpart : IsPartial later q) :
    s.routed = completedFrames fs s.received.length := by
  rw [h.received_eq, List.length_append]
  conv_rhs => rw [h.frames_eq]
  rw [completedFrames_append, completedFrames_of_isPartial hpart, List.append_nil]

theorem le_kMaxFrameSize {fs : List Bytes} (hfit : ∀ f ∈ fs, 4 + f.length ≤ 131072) :
    ∀ f ∈ fs, f.length ≤ kMaxFrameSize := by
  intro f hf
  have hle := hfit f hf
  unfold kMaxFrameSize
  omega

/-- INTERNAL: a connection with an empty read buffer is about to receive all of `fs`. -/
theorem receiving_empty (fs : List Bytes) (state : σ) {t : ℕ} (ht : t < 2 ^ 64)
    (data : ℕ → UInt8) :
    Receiving fs
      ({ conn := { readBuf := { capacity := 131072, data := data, head := t, tail := t } },
         state := state } : Session Bytes σ) fs [] :=
  ⟨rfl, rfl, rfl, holdsQueue_empty (k := 17) (by norm_num) ht data, rfl⟩

/-- INTERNAL: where a frame lies in one piece, the pointer into the ring and the copy give the
same bytes. -/
theorem copyOut_eq_drop_peek {b : FixedCircularBuffer} {q : Bytes} (h : HoldsQueue b q) {n : ℕ}
    (hn : 4 + n ≤ b.readHead.2) :
    copyOut b.data (b.readHead.1 + 4) n = (b.peek (4 + n)).drop 4 := by
  have hle : b.readHead.2 ≤ q.length := by
    simp only [FixedCircularBuffer.readHead, h.size_eq]
    omega
  have hinPlace : frameData b n = copyOut b.data (b.readHead.1 + 4) n := if_pos hn
  rw [← hinPlace, frameData_eq h (by omega), h.peek, List.drop_take, Nat.add_sub_cancel_left]

/-- INTERNAL: the buffer holds a queue at every moment of the processing. -/
theorem exists_holdsQueue_processFrames (route : Bytes → σ → Bytes × σ) (fuel : ℕ)
    {s : Session Bytes σ} (h : ∃ q, HoldsQueue s.conn.readBuf q) :
    ∃ q, HoldsQueue (processFrames route fuel s).conn.readBuf q := by
  refine processFrames_invariant route (P := fun s => ∃ q, HoldsQueue s.conn.readBuf q) ?_
    (fun s hs => hs) fuel h
  rintro s n ⟨q, hq⟩ hn -
  rw [hq.size_eq] at hn
  refine ⟨q.drop (4 + n), ?_⟩
  show HoldsQueue ((answerFrame route s _).conn.readBuf.advanceTail (4 + n)) _
  rw [(answerFrame_fields route s _).1]
  exact hq.advanceTail hn

theorem exists_holdsQueue_recvs {s s' : Session Bytes σ} {recvs : List Bytes}
    (h : ∃ q, HoldsQueue s.conn.readBuf q) (hrecvs : recvs.foldlM Session.recv s = some s') :
    ∃ q, HoldsQueue s'.conn.readBuf q := by
  refine foldlM_invariant (P := fun s : Session Bytes σ => ∃ q, HoldsQueue s.conn.readBuf q) ?_ h
    hrecvs
  rintro t bs t' ⟨q, hq⟩ hrecv
  obtain ⟨b, hfill, rfl⟩ := recv_eq_some_iff.mp hrecv
  exact ⟨q ++ bs, (hq.fill hfill).1⟩

/-- PROPERTY: when frames that each fit into the read buffer arrive in any pieces at a
connection whose buffer counters stand anywhere, the byte strings passed to the router are
after every event exactly the bodies of the frames completed so far, in order. At any moment
of the processing, a frame that lies in one piece is the same bytes in place and copied.
SOURCE: network/tcp_server.cpp:182-259 -/
theorem frames_extracted_in_order (route : Bytes → σ → Bytes × σ) (state : σ) {t : ℕ}
    (ht : t < 2 ^ 64) (data : ℕ → UInt8) (fs : List Bytes)
    (hfit : ∀ f ∈ fs, 4 + f.length ≤ 131072) (es : List Event) (hlive : ∀ e ∈ es, Live e)
    (s : Session Bytes σ)
    (hrun : (tcpServer route).run
      { conn := { readBuf := { capacity := 131072, data := data, head := t, tail := t } },
        state := state } es = some s)
    (hpre : s.received <+: framesWire fs) :
    s.routed = completedFrames fs s.received.length ∧
      ∀ (recvs : List Bytes) (s₁ : Session Bytes σ) (rounds n : ℕ),
        recvs.foldlM Session.recv s = some s₁ →
        4 + n ≤ (processFrames route rounds s₁).conn.readBuf.readHead.2 →
        copyOut (processFrames route rounds s₁).conn.readBuf.data
            ((processFrames route rounds s₁).conn.readBuf.readHead.1 + 4) n =
          ((processFrames route rounds s₁).conn.readBuf.peek (4 + n)).drop 4 := by
  obtain ⟨later, q, h, hpart⟩ :=
    (receiving_empty fs state ht data).run route (le_kMaxFrameSize hfit) hlive hrun hpre
  refine ⟨routed_eq_completedFrames h hpart, ?_⟩
  intro recvs s₁ rounds n hrecvs hn
  obtain ⟨q₁, hq₁⟩ := exists_holdsQueue_processFrames route rounds
    (exists_holdsQueue_recvs ⟨q, h.queue⟩ hrecvs)
  exact copyOut_eq_drop_peek hq₁ hn

/-- A connection whose read buffer wraps, and whose counters pass `2 ^ 64`, after three bytes. -/
def nearWrap : Session Bytes Unit where
  conn := { readBuf :=
    { capacity := 131072, data := fun _ => 0, head := 2 ^ 64 - 3, tail := 2 ^ 64 - 3 } }
  state := ()

/-- Two frames in three pieces, of which the second one ends inside the second size. -/
def threePieces : List Event :=
  [.readable [[0, 0, 0], [2, 1, 2, 0, 0]] .wouldBlock, .readable [[0, 1, 3]] .wouldBlock]

theorem frames_extracted_in_order_wrapping :
    ∃ s, (tcpServer fun f (_ : Unit) => (f, ())).run nearWrap threePieces = some s ∧
      s.routed = completedFrames [[1, 2], [3]] s.received.length := by
  have hreceived : ((tcpServer fun f (_ : Unit) => (f, ())).run nearWrap threePieces).map
      Session.received = some (framesWire [[1, 2], [3]]) := by decide +kernel
  obtain ⟨s, hrun, hs⟩ := Option.map_eq_some_iff.mp hreceived
  refine ⟨s, hrun, (frames_extracted_in_order _ () (t := 2 ^ 64 - 3) (by norm_num) _ [[1, 2], [3]]
    (by decide) threePieces ?_ s hrun (by rw [hs])).1⟩
  intro e he
  cases he with
  | head => rfl
  | tail _ he => exact List.mem_singleton.mp he ▸ rfl

end StrikeMQ.Analysis.FrameExtraction
