import StrikeMQ.Analysis.FrameExtraction

/-!
# Frames that arrive together with the end of the stream

`handle_read` processes the read buffer only behind its loop, and a `recv` that returns 0 leaves the
loop by closing the connection. So what the calls before it in the same event returned is not looked
at: the frames routed are those that were complete before the event, and nothing is lost exactly if
none ends in it. When the stream is whole frames, this means that the end comes in an event of its
own.
-/

set_option autoImplicit false

namespace StrikeMQ.Analysis.FramesAtClose

open StrikeMQ.Lib StrikeMQ.Model StrikeMQ.Model.TcpServer StrikeMQ.Interface
open StrikeMQ.Analysis.ByteQueue StrikeMQ.Analysis.SessionRuns
open StrikeMQ.Analysis.FrameProcessing StrikeMQ.Analysis.FrameExtraction

variable {σ : Type} {frames : List Bytes}

/-! ## The complete frames of a beginning -/

theorem completedFrames_isPrefix (frames : List Bytes) (n : ℕ) :
    completedFrames frames n <+: frames := by
  induction frames generalizing n with
  | nil => exact List.nil_prefix
  | cons f frames ih =>
    rw [completedFrames]
    split
    · exact (List.prefix_cons_inj f).mpr (ih _)
    · exact List.nil_prefix

theorem length_framesWire_completedFrames_le (frames : List Bytes) (n : ℕ) :
    (framesWire (completedFrames frames n)).length ≤ n := by
  induction frames generalizing n with
  | nil => exact Nat.zero_le n
  | cons f frames ih =>
    rw [completedFrames]
    split
    · have hrest := ih (n - (4 + f.length))
      rw [framesWire_cons, List.length_append, length_frameBytes]
      omega
    · exact Nat.zero_le n

/-- INTERNAL: all frames whose bytes fit in are complete. -/
theorem isPrefix_completedFrames {done : List Bytes} {n : ℕ} (hdone : done <+: frames)
    (hle : (framesWire done).length ≤ n) : done <+: completedFrames frames n := by
  obtain ⟨later, rfl⟩ := hdone
  have hsplit := completedFrames_append done later (n - (framesWire done).length)
  rw [Nat.add_sub_cancel' hle] at hsplit
  rw [hsplit]
  exact List.prefix_append _ _

/-- INTERNAL: more bytes complete no more frames exactly if none ends in them. -/
theorem completedFrames_add_eq_iff (frames : List Bytes) (n k : ℕ) :
    completedFrames frames n = completedFrames frames (n + k) ↔ EndsNone frames n k := by
  constructor
  · intro heq done hdone hle
    have hpre := isPrefix_completedFrames hdone hle
    rw [← heq] at hpre
    obtain ⟨more, hmore⟩ := hpre
    have hlength := length_framesWire_completedFrames_le frames n
    rw [← hmore, framesWire_append, List.length_append] at hlength
    omega
  · intro hnone
    have hback : completedFrames frames (n + k) <+: completedFrames frames n :=
      isPrefix_completedFrames (completedFrames_isPrefix frames (n + k))
        (hnone _ (completedFrames_isPrefix frames (n + k))
          (length_framesWire_completedFrames_le frames (n + k)))
    have hforth : completedFrames frames n <+: completedFrames frames (n + k) :=
      isPrefix_completedFrames (completedFrames_isPrefix frames n)
        (le_trans (length_framesWire_completedFrames_le frames n) (Nat.le_add_right n k))
    exact hforth.eq_of_length_le hback.length_le

/-! ## The last event -/

/-- INTERNAL: receiving bytes routes nothing. -/
theorem recvs_fields {s s' : Session Bytes σ} {recvs : List Bytes}
    (h : recvs.foldlM Session.recv s = some s') :
    s'.routed = s.routed ∧ s'.received = s.received ++ recvs.flatten := by
  induction recvs generalizing s with
  | nil =>
    obtain rfl : s = s' := by simpa using h
    exact ⟨rfl, (List.append_nil _).symm⟩
  | cons bs recvs ih =>
    obtain ⟨s₁, hrecv, hrest⟩ := foldlM_cons_eq_some_iff.mp h
    obtain ⟨b, -, rfl⟩ := recv_eq_some_iff.mp hrecv
    obtain ⟨hrouted, hreceived⟩ := ih hrest
    refine ⟨hrouted, ?_⟩
    rw [hreceived, List.flatten_cons, List.append_assoc]

/-- INTERNAL: at the end of the stream the connection is closed, and nothing else is done. -/
theorem close_fields {route : Bytes → σ → Bytes × σ} {s s' : Session Bytes σ}
    {recvs : List Bytes} (h : (tcpServer route).handleRead s recvs .failed = some s') :
    s'.isOpen = false ∧ s'.routed = s.routed ∧ s'.received = s.received ++ recvs.flatten := by
  obtain ⟨s₁, hrecvs, hclose⟩ := Option.bind_eq_some_iff.mp h
  simp only at hclose
  split at hclose
  · obtain rfl := Option.some.inj hclose
    obtain ⟨hrouted, hreceived⟩ := recvs_fields hrecvs
    exact ⟨rfl, hrouted, hreceived⟩
  · cases hclose

section Run

variable {route : Bytes → σ → Bytes × σ} {state : σ} {es : List Event} {recvs : List Bytes}
  {s s' : Session Bytes σ}

/-- INTERNAL: **what is routed when the connection closes was complete before the last event.** -/
theorem routed_at_close (hfit : ∀ f ∈ frames, 4 + f.length ≤ 131072)
    (hlive : ∀ e ∈ es, Live e) (hrun : (tcpServer route).run { state := state } es = some s)
    (hclose : (tcpServer route).handleRead s recvs .failed = some s')
    (hpre : s'.received <+: framesWire frames) :
    s'.routed = completedFrames frames s.received.length := by
  obtain ⟨-, hrouted, hreceived⟩ := close_fields hclose
  have hbefore : s.received <+: framesWire frames := by
    refine List.IsPrefix.trans ?_ hpre
    rw [hreceived]
    exact List.prefix_append _ _
  obtain ⟨later, q, h, hpart⟩ :=
    (receiving_new frames state).run route (le_kMaxFrameSize hfit) hlive hrun hbefore
  rw [hrouted, routed_eq_completedFrames h hpart]

/-- PROPERTY: **frames received before the end of the stream are served exactly if none ends in the
event that brings the end.** The client has sent the beginning of `frames`, in any pieces.
SOURCE: network/tcp_server.cpp:182-259, 284-296 -/
theorem served_before_close_iff (hfit : ∀ f ∈ frames, 4 + f.length ≤ 131072)
    (hlive : ∀ e ∈ es, Live e) (hrun : (tcpServer route).run { state := state } es = some s)
    (hclose : (tcpServer route).handleRead s recvs .failed = some s')
    (hpre : s'.received <+: framesWire frames) :
    s'.isOpen = false ∧
      (s'.routed = completedFrames frames s'.received.length ↔
        EndsNone frames s.received.length recvs.flatten.length) := by
  obtain ⟨hclosed, -, hreceived⟩ := close_fields hclose
  refine ⟨hclosed, ?_⟩
  rw [routed_at_close hfit hlive hrun hclose hpre, hreceived, List.length_append]
  exact completedFrames_add_eq_iff frames _ _

end Run

/-- The end of the stream comes in an event of its own. -/
theorem served_before_close_iff_alone :
    ∃ s s' : Session Bytes Unit,
      (tcpServer fun f _ => (f, ())).run { state := () } [.readable [frameBytes [7]] .wouldBlock] =
        some s ∧
      (tcpServer fun f _ => (f, ())).handleRead s [] .failed = some s' ∧
      s'.isOpen = false ∧ s'.routed = completedFrames [[7]] s'.received.length := by
  have hevents : (((tcpServer fun f (_ : Unit) => (f, ())).run { state := () }
      [.readable [frameBytes [7]] .wouldBlock]).bind fun s =>
        ((tcpServer fun f _ => (f, ())).handleRead s [] .failed).map Session.received) =
      some (framesWire [[7]]) := by decide +kernel
  obtain ⟨s, hrun, hlast⟩ := Option.bind_eq_some_iff.mp hevents
  obtain ⟨s', hclose, hreceived⟩ := Option.map_eq_some_iff.mp hlast
  have hlive : ∀ e ∈ [Event.readable [frameBytes [7]] .wouldBlock], Live e := by
    intro e he
    rw [List.mem_singleton.mp he]
    rfl
  have hfit : ∀ f ∈ [[(7 : UInt8)]], 4 + f.length ≤ 131072 := by decide
  obtain ⟨hclosed, hserved⟩ :=
    served_before_close_iff hfit hlive hrun hclose (by rw [hreceived])
  exact ⟨s, s', hrun, hclose, hclosed, hserved.mpr fun _ _ hle => hle⟩

/-- The end of the stream comes in the same event as a frame. -/
theorem frame_dropped_at_close :
    ∃ s' : Session Bytes Unit,
      (tcpServer fun f _ => (f, ())).handleRead { state := () } [frameBytes [7]] .failed = some s' ∧
      s'.received = framesWire [[7]] ∧ s'.isOpen = false ∧ s'.routed = [] := by
  obtain ⟨s', hclose, hfields⟩ := Option.map_eq_some_iff.mp
    (show ((tcpServer fun f (_ : Unit) => (f, ())).handleRead { state := () } [frameBytes [7]]
        .failed).map (fun s' => (s'.received, s'.isOpen, s'.routed)) =
      some (framesWire [[7]], false, []) by decide +kernel)
  obtain ⟨hreceived, hrest⟩ := Prod.mk.inj hfields
  obtain ⟨hclosed, hrouted⟩ := Prod.mk.inj hrest
  exact ⟨s', hclose, hreceived, hclosed, hrouted⟩

end StrikeMQ.Analysis.FramesAtClose
