import StrikeMQ.Interface.StreamIntegrity
import StrikeMQ.Analysis.ResponseStream

/-!
# Waiting for the socket to become writable

A connection's descriptor is watched for writing from the moment a response is queued until
everything has been sent, and at no other time. So the event loop is told about a socket that can
take more whenever there is more to take, and is not told when there is nothing. What waits lies in
the ring in at most two pieces, so one report is enough to send it all.
-/

set_option autoImplicit false

namespace StrikeMQ.Analysis.WriteInterest

open StrikeMQ.Lib StrikeMQ.Model StrikeMQ.Interface StrikeMQ.Analysis.ByteQueue
open StrikeMQ.Analysis.SessionRuns StrikeMQ.Analysis.FrameProcessing
open StrikeMQ.Analysis.ResponseStream

variable {ρ σ : Type}

/-- The descriptor of an open connection is watched for writing exactly while bytes wait. -/
def WatchedWhilePending (s : Session ρ σ) : Prop :=
  s.isOpen = true → (s.writeEnabled = true ↔ s.conn.writeBuf.empty = false)

theorem empty_iff {b : FixedCircularBuffer} {q : Bytes} (h : HoldsQueue b q) :
    b.empty = true ↔ q = [] := by
  have hlen := h.length_le
  have hcap := h.ring.capacity_le
  have htail := h.tail_lt
  have hhead := h.head_eq
  rw [FixedCircularBuffer.empty, decide_eq_true_iff, ← List.length_eq_zero_iff, hhead]
  unfold toUInt64
  omega

theorem empty_eq_false_iff {b : FixedCircularBuffer} {q : Bytes} (h : HoldsQueue b q) :
    b.empty = false ↔ q ≠ [] := by
  rw [← Bool.not_eq_true, empty_iff h]

/-! ## What the operations on a session keep -/

/-- INTERNAL: a response with bytes in it leaves something to send, whatever room there is. -/
theorem watched_queueWrite {s : Session ρ σ} (h : WriteInv s) {resp : Bytes}
    (hresp : 0 < resp.length) : WatchedWhilePending (s.queueWrite resp) := by
  obtain ⟨q, hq, hcap, -⟩ := h
  intro _
  have hsome : q ++ resp.take (s.conn.writeBuf.capacity - q.length) ≠ [] := by
    rw [← List.length_pos_iff, List.length_append, List.length_take]
    omega
  exact iff_of_true rfl ((empty_eq_false_iff (hq.write resp)).mpr hsome)

theorem watched_close (s : Session ρ σ) : WatchedWhilePending s.close := by
  intro hopen
  cases hopen

/-- INTERNAL: what a server has to do so that its connections are watched while bytes wait. -/
structure KeepsWatch (srv : Server ρ σ) : Prop where
  kept : Kept srv WriteInv
  process : ∀ s, WriteInv s → WatchedWhilePending s → WatchedWhilePending (srv.process s)
  drained : ∀ s, WriteInv s → s.conn.writeBuf.empty = true → WatchedWhilePending (srv.drained s)

theorem keepsWatch_tcp (route : Bytes → σ → Bytes × σ) : KeepsWatch (tcpServer route) where
  kept := kept_tcp route
  process s hinv hwatched := by
    refine (processFrames_invariant route
      (P := fun t : Session Bytes σ => WriteInv t ∧ WatchedWhilePending t) ?_ ?_
      s.conn.readBuf.size ⟨hinv, hwatched⟩).2
    · rintro t n ⟨ht, hwatch⟩ - -
      refine ⟨writeInv_answerFrame route ht _, ?_⟩
      have hrouted : WriteInv (t.routeTo route (TcpServer.frameData t.conn.readBuf n)).2 := ht
      -- taking the frame from the read buffer touches nothing of the write side
      show WatchedWhilePending (TcpServer.answerFrame route t _)
      simp only [TcpServer.answerFrame]
      split
      · rename_i hresp
        exact watched_queueWrite hrouted hresp
      · exact hwatch
    · rintro t ⟨ht, -⟩
      exact ⟨ht, watched_close t⟩
  drained s _ hempty := by
    intro _
    show false = true ↔ s.conn.writeBuf.empty = false
    rw [hempty]
    simp

theorem length_statusLine_pos (resp : HttpResponse) :
    0 < (HttpServer.statusLine resp).length := by
  have hfirst : 0 < (ascii "HTTP/1.1 ").length := by decide
  rw [HttpServer.statusLine]
  simp only [List.length_append]
  omega

theorem keepsWatch_http (route : HttpRequest → σ → HttpResponse × σ) :
    KeepsWatch (httpServer route) where
  kept := kept_http route
  process s hinv hwatched := by
    show WatchedWhilePending (HttpServer.processRequest route s)
    unfold HttpServer.processRequest
    split
    · exact hwatched
    · exact watched_close s
    · exact watched_close s
    · refine watched_queueWrite hinv ?_
      simp only [HttpServer.payloadTooLarge, List.length_append, List.append_assoc]
      exact Nat.add_pos_left (length_statusLine_pos _) _
    · rename_i req _
      have hrouted : WriteInv (s.routeTo route req).2 := hinv
      refine watched_queueWrite hrouted ?_
      simp only [HttpServer.serializeResponse, List.length_append, List.append_assoc]
      exact Nat.add_pos_left (length_statusLine_pos _) _
  drained s _ _ := watched_close s

/-! ## Steps and runs -/

theorem writeInv_sends {s s' : Session ρ σ} (h : WriteInv s) {sends : List ℕ}
    (hsends : sends.foldlM Session.send s = some s') : WriteInv s' :=
  foldlM_invariant (fun _ _ _ ht hsend => WriteInv.send ht hsend) h hsends

theorem writeEnabled_sends {s s' : Session ρ σ} {sends : List ℕ}
    (hsends : sends.foldlM Session.send s = some s') : s'.writeEnabled = s.writeEnabled := by
  refine foldlM_invariant (P := fun t : Session ρ σ => t.writeEnabled = s.writeEnabled) ?_ rfl
    hsends
  intro t n t' ht hsend
  obtain ⟨bs, b, -, rfl⟩ := send_eq_some_iff.mp hsend
  exact ht

/-- INTERNAL: receiving touches nothing of the write side. -/
theorem watched_recvs {s s' : Session ρ σ} {recvs : List Bytes}
    (h : WriteInv s ∧ WatchedWhilePending s) (hrecvs : recvs.foldlM Session.recv s = some s') :
    WriteInv s' ∧ WatchedWhilePending s' := by
  refine foldlM_invariant
    (P := fun t : Session ρ σ => WriteInv t ∧ WatchedWhilePending t) ?_ h hrecvs
  intro t bs t' ht hrecv
  obtain ⟨b, -, rfl⟩ := recv_eq_some_iff.mp hrecv
  exact ht

/-- INTERNAL: after a report that the socket is writable, the descriptor is watched on only if
something is left. -/
theorem KeepsWatch.handleWrite {srv : Server ρ σ} (h : KeepsWatch srv) {s s' : Session ρ σ}
    {sends : List ℕ} {ending : IoEnd} (hinv : WriteInv s) (henabled : s.writeEnabled = true)
    (hwrite : srv.handleWrite s sends ending = some s') : WatchedWhilePending s' := by
  obtain ⟨s₁, hsends, hrest⟩ := Option.bind_eq_some_iff.mp hwrite
  have hinv₁ := writeInv_sends hinv hsends
  have henabled₁ := (writeEnabled_sends hsends).trans henabled
  cases ending with
  | wouldBlock =>
    obtain rfl := Option.some.inj hrest
    cases hempty : s₁.conn.writeBuf.empty with
    | true => exact h.drained s₁ hinv₁ hempty
    | false => exact fun _ => iff_of_true henabled₁ hempty
  | failed =>
    simp only at hrest
    split at hrest
    · cases hrest
    · obtain rfl := Option.some.inj hrest
      exact watched_close s₁

/-- INTERNAL: **the step lemma**. -/
theorem KeepsWatch.step {srv : Server ρ σ} (h : KeepsWatch srv) {s s' : Session ρ σ} {e : Event}
    (hs : WriteInv s ∧ WatchedWhilePending s) (hstep : srv.step s e = some s') :
    WriteInv s' ∧ WatchedWhilePending s' := by
  refine ⟨h.kept.step hs.1 hstep, ?_⟩
  unfold Server.step at hstep
  split at hstep
  · cases e with
    | readable recvs ending =>
      obtain ⟨s₁, hrecvs, hrest⟩ := Option.bind_eq_some_iff.mp hstep
      obtain ⟨hinv, hwatched⟩ := watched_recvs hs hrecvs
      cases ending with
      | wouldBlock =>
        obtain rfl := Option.some.inj hrest
        exact h.process s₁ hinv hwatched
      | failed =>
        simp only at hrest
        split at hrest
        · obtain rfl := Option.some.inj hrest
          exact watched_close s₁
        · cases hrest
    | writable sends ending =>
      simp only at hstep
      split at hstep
      · rename_i henabled
        exact h.handleWrite hs.1 henabled hstep
      · cases hstep
    | hangup =>
      obtain rfl := Option.some.inj hstep
      exact watched_close s
  · obtain rfl := Option.some.inj hstep
    exact hs.2

theorem watched_new (state : σ) :
    WriteInv ({ state := state } : Session ρ σ) ∧
      WatchedWhilePending ({ state := state } : Session ρ σ) := by
  have hempty : (FixedCircularBuffer.new 131072).empty = true := by decide
  refine ⟨writeInv_new state, fun _ => ?_⟩
  show false = true ↔ (FixedCircularBuffer.new 131072).empty = false
  rw [hempty]
  simp

/-- INTERNAL: **the run lemma**. -/
theorem KeepsWatch.run {srv : Server ρ σ} (h : KeepsWatch srv) {state : σ} {es : List Event}
    {s : Session ρ σ} (hrun : srv.run { state := state } es = some s) :
    WriteInv s ∧ WatchedWhilePending s :=
  foldlM_invariant (P := fun t : Session ρ σ => WriteInv t ∧ WatchedWhilePending t)
    (fun _ _ _ hs hstep => h.step hs hstep) (watched_new state) hrun

/-! ## Sending all that waits -/

/-- INTERNAL: the socket may take all that is offered. -/
theorem send_offered {s : Session ρ σ} {q : Bytes} (h : HoldsQueue s.conn.writeBuf q)
    (hq : q ≠ []) {n : ℕ} (hn : s.conn.writeBuf.readHead.2 = n) :
    ∃ s', s.send n = some s' ∧ s'.sent = s.sent ++ q.take n ∧
      s'.conn.writeBuf = s.conn.writeBuf.advanceTail n := by
  have hpos := h.readHead_pos_iff.mpr hq
  have hle : n ≤ s.conn.writeBuf.readHead.2 := le_of_eq hn.symm
  obtain ⟨-, hfront⟩ := h.copyOut_readHead hle
  have hdrain : s.conn.writeBuf.drain n = some (q.take n, s.conn.writeBuf.advanceTail n) := by
    simp only [FixedCircularBuffer.drain]
    rw [if_pos ⟨by omega, hle⟩, hfront]
  exact ⟨_, send_eq_some_iff.mpr ⟨_, _, hdrain, rfl⟩, rfl, rfl⟩

/-- INTERNAL: where the bytes offered are not all, they end where the ring does, and all the others
are offered next. -/
theorem offered_after_wrap {b : FixedCircularBuffer} {q : Bytes} (h : HoldsQueue b q) {n : ℕ}
    (hn : b.readHead.2 = n) (hless : n < q.length) :
    (b.advanceTail n).readHead.2 = (q.drop n).length := by
  have hmod := Nat.mod_lt b.tail h.capacity_pos
  have hlen := h.length_le
  have hoffered : n = b.capacity - b.tail % b.capacity := by
    simp only [FixedCircularBuffer.readHead, h.size_eq, h.and_mask] at hn
    omega
  have hwhole : b.tail + n = b.capacity * (b.tail / b.capacity + 1) := by
    have hdiv := Nat.div_add_mod b.tail b.capacity
    rw [Nat.mul_add, Nat.mul_one]
    omega
  have hstart : (b.advanceTail n).tail % b.capacity = 0 := by
    show toUInt64 ((b.tail : ℤ) + (n : ℕ)) % b.capacity = 0
    rw [← Nat.cast_add, h.ring.toUInt64_mod, hwhole, Nat.mul_mod_right]
  have hnext := h.advanceTail (le_of_lt hless)
  have hmask := hnext.and_mask (b.advanceTail n).tail
  have hcap : (b.advanceTail n).capacity = b.capacity := rfl
  rw [hcap, hstart] at hmask
  simp only [FixedCircularBuffer.readHead, hnext.size_eq, hmask, hcap, List.length_drop]
  omega

/-- INTERNAL: **two calls of `send` are enough.** -/
theorem exists_sends {s : Session ρ σ} {q : Bytes} (h : HoldsQueue s.conn.writeBuf q) :
    ∃ (sends : List ℕ) (s' : Session ρ σ), sends.length ≤ 2 ∧
      sends.foldlM Session.send s = some s' ∧ s'.sent = s.sent ++ q ∧
      HoldsQueue s'.conn.writeBuf [] := by
  by_cases hq : q = []
  · subst hq
    exact ⟨[], s, Nat.zero_le 2, rfl, (List.append_nil _).symm, h⟩
  · obtain ⟨n, hn⟩ : ∃ n, s.conn.writeBuf.readHead.2 = n := ⟨_, rfl⟩
    have hle : n ≤ q.length := (h.copyOut_readHead (le_of_eq hn.symm)).1
    obtain ⟨s₁, hsend, hsent, hbuf⟩ := send_offered h hq hn
    have hrest := h.advanceTail hle
    rw [← hbuf] at hrest
    by_cases hall : q.length ≤ n
    · -- the bytes lie in one piece
      refine ⟨[n], s₁, Nat.le_succ 1, foldlM_cons_eq_some_iff.mpr ⟨s₁, hsend, rfl⟩, ?_, ?_⟩
      · rw [hsent, List.take_of_length_le hall]
      · rwa [List.drop_eq_nil_of_le hall] at hrest
    · have hmore : q.drop n ≠ [] := by
        rw [← List.length_pos_iff, List.length_drop]
        omega
      have hoffered := offered_after_wrap h hn (Nat.lt_of_not_le hall)
      rw [← hbuf] at hoffered
      obtain ⟨s₂, hsend₂, hsent₂, hbuf₂⟩ := send_offered hrest hmore hoffered
      refine ⟨[n, (q.drop n).length], s₂, le_refl 2, foldlM_cons_eq_some_iff.mpr ⟨s₁, hsend,
        foldlM_cons_eq_some_iff.mpr ⟨s₂, hsend₂, rfl⟩⟩, ?_, ?_⟩
      · rw [hsent₂, hsent, List.take_length, List.append_assoc, List.take_append_drop]
      · have hnone := hrest.advanceTail (le_refl (q.drop n).length)
        rwa [← hbuf₂, List.drop_length] at hnone

/-- INTERNAL: an open connection with bytes to send is watched, and one report is enough. -/
theorem exists_flush {srv : Server ρ σ} {s : Session ρ σ}
    (hs : WriteInv s ∧ WatchedWhilePending s) (hopen : s.isOpen = true)
    (hpending : s.conn.writeBuf.empty = false)
    (hdrained : ∀ t : Session ρ σ, (srv.drained t).sent = t.sent ∧
      (srv.drained t).conn = t.conn) :
    ∃ sends s', sends.length ≤ 2 ∧ srv.step s (.writable sends .wouldBlock) = some s' ∧
      s'.sent = acceptedBytes s ∧ s'.conn.writeBuf.empty = true := by
  obtain ⟨⟨q, hq, -, hstream⟩, hwatched⟩ := hs
  obtain ⟨sends, s₁, hlen, hsends, hsent, hnone⟩ := exists_sends hq
  have hempty : s₁.conn.writeBuf.empty = true := (empty_iff hnone).mpr rfl
  refine ⟨sends, srv.drained s₁, hlen, ?_, ?_, ?_⟩
  · have henabled := (hwatched hopen).mpr hpending
    simp [Server.step, Server.handleWrite, hopen, henabled, hsends, hempty]
  · rw [(hdrained s₁).1, hsent, hstream]
    rfl
  · rw [(hdrained s₁).2]
    exact hempty

/-- PROPERTY: after any events on a connection of either server, with any router, the descriptor is
watched for writing if and only if bytes wait to be sent, as long as the connection is open; and
where bytes wait, one report that the socket is writable suffices to send all of them, in at most
two calls.
SOURCE: network/tcp_server.cpp:244-282, 299-322, http/http_server.cpp:317-378 -/
theorem watched_for_writing_iff_pending (state : σ) (es : List Event) :
    (∀ (route : Bytes → σ → Bytes × σ) (s : Session Bytes σ),
        (tcpServer route).run { state := state } es = some s → s.isOpen = true →
          (s.writeEnabled = true ↔ s.conn.writeBuf.empty = false) ∧
          (s.conn.writeBuf.empty = false → ∃ sends s', sends.length ≤ 2 ∧
            (tcpServer route).step s (.writable sends .wouldBlock) = some s' ∧
            s'.sent = acceptedBytes s ∧ s'.conn.writeBuf.empty = true)) ∧
      ∀ (route : HttpRequest → σ → HttpResponse × σ) (s : Session HttpRequest σ),
        (httpServer route).run { state := state } es = some s → s.isOpen = true →
          (s.writeEnabled = true ↔ s.conn.writeBuf.empty = false) ∧
          (s.conn.writeBuf.empty = false → ∃ sends s', sends.length ≤ 2 ∧
            (httpServer route).step s (.writable sends .wouldBlock) = some s' ∧
            s'.sent = acceptedBytes s ∧ s'.conn.writeBuf.empty = true) := by
  constructor
  · intro route s hrun hopen
    have hs := (keepsWatch_tcp route).run hrun
    exact ⟨hs.2 hopen, fun hpending => exists_flush hs hopen hpending fun _ => ⟨rfl, rfl⟩⟩
  · intro route s hrun hopen
    have hs := (keepsWatch_http route).run hrun
    exact ⟨hs.2 hopen, fun hpending => exists_flush hs hopen hpending fun _ => ⟨rfl, rfl⟩⟩

/-- A frame that is answered with its own bytes, of which the socket has taken one. -/
def halfSent : List Event :=
  [.readable [[0, 0, 0, 2, 5, 6]] .wouldBlock, .writable [1] .wouldBlock]

theorem watched_for_writing_iff_pending_half_sent :
    ∃ s, (tcpServer fun f (_ : Unit) => (f, ())).run { state := () } halfSent = some s ∧
      s.conn.writeBuf.empty = false ∧ s.writeEnabled = true := by
  have hstate : ((tcpServer fun f (_ : Unit) => (f, ())).run { state := () } halfSent).map
      (fun s => (s.isOpen, s.conn.writeBuf.empty)) = some (true, false) := by
    decide +kernel
  obtain ⟨s, hrun, hfacts⟩ := Option.map_eq_some_iff.mp hstate
  obtain ⟨hopen, hpending⟩ := Prod.mk.inj hfacts
  exact ⟨s, hrun, hpending,
    (((watched_for_writing_iff_pending () halfSent).1 _ s hrun hopen).1).mpr hpending⟩

end StrikeMQ.Analysis.WriteInterest
