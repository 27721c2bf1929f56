import StrikeMQ.Interface.StreamIntegrity
import StrikeMQ.Analysis.FrameProcessing

/-!
# Operations under way

Each direction of a connection goes through three phases: nothing is under way, one operation is
with the kernel, one completion waits for the worker. As long as no second operation of a kind is
submitted, the place that the kernel uses is the one that the buffer offers: a receive ends where
the head stands, a send starts where the tail stands. Handling the completion then moves the counter
over bytes that are already in place.

With a second operation under way this is lost. It was submitted with the same place as the first,
so the bytes of one overwrite those of the other, or are transmitted again.
-/

set_option autoImplicit false

namespace StrikeMQ.Analysis.UringStreams

open StrikeMQ.Lib StrikeMQ.Model StrikeMQ.Model.TcpServer StrikeMQ.Model.UringConnection
open StrikeMQ.Interface StrikeMQ.Analysis.ByteQueue StrikeMQ.Analysis.SessionRuns
open StrikeMQ.Analysis.FrameProcessing

variable {σ : Type}

/-! ## Phases -/

/-- The operations of one kind with the kernel, the results that wait for the worker, the place that
the buffer offers, and by how much its counter is behind. -/
inductive Phase : List (ℕ × ℕ) → List ℕ → ℕ × ℕ → ℕ → Prop
  | idle (place : ℕ × ℕ) : Phase [] [] place 0
  | submitted {place : ℕ × ℕ} {len : ℕ} : len ≤ place.2 → Phase [(place.1, len)] [] place 0
  | completed (place : ℕ × ℕ) (k : ℕ) : Phase [] [k] place k

namespace Phase

variable {ops : List (ℕ × ℕ)} {done : List ℕ} {place : ℕ × ℕ} {k : ℕ}

theorem eq_zero (h : Phase ops [] place k) : k = 0 := by
  cases h with
  | idle => rfl
  | submitted => rfl

/-- INTERNAL: an operation that is with the kernel is alone, and at the place that is offered. -/
theorem of_getElem? (h : Phase ops done place k) {i pos len : ℕ} (hi : ops[i]? = some (pos, len)) :
    ops.eraseIdx i = [] ∧ done = [] ∧ pos = place.1 ∧ len ≤ place.2 ∧ k = 0 := by
  cases h with
  | idle => exact absurd hi (by simp)
  | submitted hle =>
    cases i with
    | zero =>
      obtain ⟨rfl, rfl⟩ := Prod.mk.inj (Option.some.inj hi)
      exact ⟨rfl, rfl, rfl, hle, rfl⟩
    | succ i => exact absurd hi (by simp)
  | completed => exact absurd hi (by simp)

theorem of_cons {n : ℕ} (h : Phase ops (n :: done) place k) : ops = [] ∧ done = [] ∧ n = k := by
  cases h
  exact ⟨rfl, rfl, rfl⟩

theorem sum_eq (h : Phase ops done place k) : done.sum = k := by
  cases h with
  | idle => rfl
  | submitted => rfl
  | completed => exact Nat.add_zero k

/-- INTERNAL: a place that starts where it did and has not become shorter. -/
theorem mono (h : Phase ops done place k) {place' : ℕ × ℕ} (hpos : place'.1 = place.1)
    (hlen : place.2 ≤ place'.2) : Phase ops done place' k := by
  cases h with
  | idle => exact idle place'
  | submitted hle =>
    rw [← hpos]
    exact submitted (le_trans hle hlen)
  | completed => exact completed place' k

end Phase

theorem results_append (s : Session Bytes σ) (recvs sends : List (ℕ × ℕ)) (cqes : List Cqe)
    (c : Cqe) (op : UringOp) :
    results ⟨s, recvs, sends, cqes ++ [c]⟩ op =
      results ⟨s, recvs, sends, cqes⟩ op ++ if c.op = op then [c.res] else [] := by
  simp only [results, List.filter_append, List.map_append]
  congr 1
  by_cases hop : c.op = op
  · simp [hop]
  · simp [hop]

/-! ## The two sides of a session -/

/-- INTERNAL: the read side: the frames handed on, the bytes of the read buffer, and behind its head
the bytes `bs` that its counter does not count yet. -/
def Reading (bs : Bytes) (s : Session Bytes σ) : Prop :=
  ∃ q, HoldsQueue s.conn.readBuf q ∧
    HoldsQueue (s.conn.readBuf.advanceHead bs.length) (q ++ bs) ∧
    s.received = framesWire s.routed ++ (q ++ bs)

/-- INTERNAL: the write side: of the bytes of the write buffer, the first `k` have been
transmitted. -/
def Sending (k : ℕ) (s : Session Bytes σ) : Prop :=
  ∃ q, HoldsQueue s.conn.writeBuf q ∧ k ≤ q.length ∧ s.sent ++ q.drop k = acceptedBytes s

theorem reading_nil {s : Session Bytes σ} {q : Bytes} (hq : HoldsQueue s.conn.readBuf q)
    (hreceived : s.received = framesWire s.routed ++ q) : Reading [] s := by
  refine ⟨q, hq, ?_, ?_⟩
  · rw [List.length_nil, hq.advanceHead_zero, List.append_nil]
    exact hq
  · rw [List.append_nil]
    exact hreceived

/-- INTERNAL: the bytes of a complete frame are those that its routing takes. -/
theorem frameBytes_frameData {b : FixedCircularBuffer} {q : Bytes} (h : HoldsQueue b q) {n : ℕ}
    (hn : 4 + n ≤ q.length) (hsize : n = beNat (b.peek 4)) :
    frameBytes (frameData b n) = q.take (4 + n) := by
  have hfour : (q.take 4).length = 4 := by
    rw [List.length_take]
    omega
  have hlength : (frameData b n).length = n := by
    rw [frameData_eq h hn, List.length_take, List.length_drop]
    omega
  have hheader : beInt 4 n = q.take 4 := by
    have hlt := beNat_lt (q.take 4)
    have hbytes := beBytes_beNat (q.take 4)
    rw [hfour] at hlt hbytes
    have hvalue : ((beNat (q.take 4) : ℤ) % (256 ^ 4 : ℕ)).toNat = beNat (q.take 4) := by omega
    rw [hsize, h.peek, beInt, hvalue, hbytes]
  rw [frameBytes, hlength, hheader, frameData_eq h hn, ← List.take_add]

/-- INTERNAL: **`process_frames` hands on what it takes**, and leaves the rest in the buffer. -/
theorem reading_processFrames (route : Bytes → σ → Bytes × σ) (fuel : ℕ) {s : Session Bytes σ}
    (h : Reading [] s) : Reading [] (processFrames route fuel s) := by
  refine processFrames_invariant route ?_ (fun _ ht => ht) fuel h
  rintro t n ⟨q, hq, -, hreceived⟩ hn hsize
  rw [List.append_nil] at hreceived
  rw [hq.size_eq] at hn
  obtain ⟨hbuf, hrouted, hreceived', -, -⟩ := answerFrame_fields route t (frameData t.conn.readBuf n)
  refine reading_nil (q := q.drop (4 + n)) ?_ ?_
  · show HoldsQueue ((answerFrame route t _).conn.readBuf.advanceTail (4 + n)) _
    rw [hbuf]
    exact hq.advanceTail hn
  · show (answerFrame route t _).received = framesWire (answerFrame route t _).routed ++ _
    rw [hreceived', hrouted, hreceived, framesWire_append, framesWire_cons, framesWire_nil,
      List.append_nil, frameBytes_frameData hq hn hsize, List.append_assoc, List.take_append_drop]

theorem sending_queueWrite {k : ℕ} {s : Session Bytes σ} (h : Sending k s) (resp : Bytes) :
    Sending k (s.queueWrite resp) := by
  obtain ⟨q, hq, hk, hsent⟩ := h
  refine ⟨_, hq.write resp, ?_, ?_⟩
  · rw [List.length_append]
    omega
  · show s.sent ++ _ = (List.map _ (s.queued ++ [(resp, s.conn.writeBuf.freeSpace)])).flatten
    rw [List.drop_append_of_le_length hk, ← List.append_assoc, hsent, hq.freeSpace_eq,
      List.map_append, List.flatten_append, acceptedBytes]
    simp

section Write

variable {ops : List (ℕ × ℕ)} {done : List ℕ}

/-- INTERNAL: the write side with the operations under way on it. -/
def SendPhase (ops : List (ℕ × ℕ)) (done : List ℕ) (s : Session Bytes σ) : Prop :=
  ∃ k, Sending k s ∧ Phase ops done s.conn.writeBuf.readHead k

/-- INTERNAL: responses that are queued go behind the bytes of a send that is under way. -/
theorem sendPhase_processFrames (route : Bytes → σ → Bytes × σ) (fuel : ℕ) {s : Session Bytes σ}
    (h : SendPhase ops done s) : SendPhase ops done (processFrames route fuel s) := by
  refine processFrames_invariant route ?_ (fun _ ht => ht) fuel h
  rintro t n ⟨k, hsending, hphase⟩ - -
  show SendPhase ops done (answerFrame route t (frameData t.conn.readBuf n))
  have hrouted : Sending k (t.routeTo route (frameData t.conn.readBuf n)).2 := hsending
  simp only [answerFrame]
  split
  · obtain ⟨q, hq, -, -⟩ := hsending
    obtain ⟨hpos, hlen⟩ := hq.readHead_write (route (frameData t.conn.readBuf n) t.state).1
    exact ⟨k, sending_queueWrite hrouted _, hphase.mono hpos hlen⟩
  · exact ⟨k, hrouted, hphase⟩

end Write

/-! ## Steps and runs -/

/-- INTERNAL: both directions are in one of their phases. -/
structure InPhase (u : UringConnection σ) : Prop where
  reading : ∃ bs, Reading bs u.session ∧
    Phase u.recvs (results u .recv) u.session.conn.readBuf.writeHead bs.length
  sending : SendPhase u.sends (results u .send) u.session

theorem inPhase_new (state : σ) : InPhase ({ session := { state := state } } : UringConnection σ) := by
  have hq : HoldsQueue (FixedCircularBuffer.new 131072) [] :=
    holdsQueue_new (by norm_num) nextPowerOf2_connection
  exact ⟨⟨[], reading_nil hq rfl, Phase.idle _⟩, ⟨0, ⟨[], hq, le_refl _, rfl⟩, Phase.idle _⟩⟩

theorem InPhase.streamsIntact {u : UringConnection σ} (h : InPhase u) : StreamsIntact u := by
  obtain ⟨⟨bs, ⟨q, hq, -, hreceived⟩, hphase⟩, k, ⟨r, hr, -, hsent⟩, hphase'⟩ := h
  refine ⟨⟨bs, hphase.sum_eq.symm, ?_⟩, ?_⟩
  · rw [hq.peek, hq.size_eq, List.take_length]
    exact hreceived
  · rw [hphase'.sum_eq, hr.peek, hr.size_eq, List.take_length]
    exact hsent

theorem InPhase.submitRecv {u : UringConnection σ} (h : InPhase u) (hrecvs : u.recvs = [])
    (hresults : results u .recv = []) : InPhase u.submitRecv := by
  obtain ⟨⟨bs, hreading, hphase⟩, hsending⟩ := h
  have hzero : bs.length = 0 := by
    rw [hresults] at hphase
    exact hphase.eq_zero
  unfold UringConnection.submitRecv
  dsimp only
  split
  · refine ⟨⟨bs, hreading, ?_⟩, hsending⟩
    show Phase (u.recvs ++ _) (results u .recv) _ _
    rw [hrecvs, hresults, hzero]
    exact Phase.submitted (le_refl _)
  · exact ⟨⟨bs, hreading, hphase⟩, hsending⟩

theorem InPhase.submitSend {u : UringConnection σ} (h : InPhase u) (hsends : u.sends = [])
    (hresults : results u .send = []) : InPhase u.submitSend := by
  obtain ⟨hreading, k, hsending, hphase⟩ := h
  have hzero : k = 0 := by
    rw [hresults] at hphase
    exact hphase.eq_zero
  unfold UringConnection.submitSend
  split
  · exact ⟨hreading, k, hsending, hphase⟩
  · dsimp only
    split
    · refine ⟨hreading, k, hsending, ?_⟩
      show Phase (u.sends ++ _) (results u .send) _ _
      rw [hsends, hresults, hzero]
      exact Phase.submitted (le_refl _)
    · exact ⟨hreading, k, hsending, hphase⟩

theorem submitRecv_fields (u : UringConnection σ) :
    u.submitRecv.sends = u.sends ∧ u.submitRecv.cqes = u.cqes := by
  unfold UringConnection.submitRecv
  dsimp only
  split
  · exact ⟨rfl, rfl⟩
  · exact ⟨rfl, rfl⟩

/-- INTERNAL: the worker comes to the connection, with nothing of the kind under way. -/
theorem InPhase.submit {u : UringConnection σ} (h : InPhase u) {recvSqe sendSqe : Bool}
    (halone : Alone u (.submit recvSqe sendSqe)) : InPhase (u.submit recvSqe sendSqe) := by
  obtain ⟨hrecv, hsend⟩ := halone
  obtain ⟨hsends, hcqes⟩ := submitRecv_fields u
  unfold UringConnection.submit
  cases recvSqe with
  | false =>
    cases sendSqe with
    | false => exact h
    | true => exact h.submitSend (hsend rfl).1 (hsend rfl).2
  | true =>
    have hfirst := h.submitRecv (hrecv rfl).1 (hrecv rfl).2
    cases sendSqe with
    | false => exact hfirst
    | true =>
      refine hfirst.submitSend (hsends.trans (hsend rfl).1) ?_
      rw [results, hcqes]
      exact (hsend rfl).2

/-- INTERNAL: the kernel puts the bytes behind the head. -/
theorem InPhase.recvDone {u v : UringConnection σ} (h : InPhase u) {i : ℕ} {bs : Bytes}
    (hdone : u.recvDone i bs = some v) : InPhase v := by
  obtain ⟨⟨pos, len⟩, hi, hrest⟩ := Option.bind_eq_some_iff.mp hdone
  dsimp only at hrest
  split at hrest
  · next hlen =>
    obtain rfl := Option.some.inj hrest
    obtain ⟨⟨old, ⟨q, hq, -, hreceived⟩, hphase⟩, hsending⟩ := h
    obtain ⟨herase, hresults, rfl, hle, hzero⟩ := hphase.of_getElem? hi
    obtain rfl := List.length_eq_zero_iff.mp hzero
    rw [List.append_nil] at hreceived
    obtain ⟨-, hafter⟩ := hq.offered (le_trans hlen.2 hle)
    refine ⟨⟨bs, ⟨q, hq.before_advanceHead hafter, hafter, ?_⟩, ?_⟩, ?_⟩
    · show u.session.received ++ bs = _
      rw [hreceived, List.append_assoc]
    · rw [results_append]
      show Phase (u.recvs.eraseIdx i) (results u .recv ++ [bs.length]) _ _
      rw [herase, hresults]
      exact Phase.completed _ _
    · show SendPhase u.sends (results _ .send) _
      rw [results_append]
      show SendPhase u.sends (results u .send ++ []) _
      rw [List.append_nil]
      exact hsending
  · cases hrest

/-- INTERNAL: the kernel transmits the front of the queue. -/
theorem InPhase.sendDone {u v : UringConnection σ} (h : InPhase u) {i n : ℕ}
    (hdone : u.sendDone i n = some v) : InPhase v := by
  obtain ⟨⟨pos, len⟩, hi, hrest⟩ := Option.bind_eq_some_iff.mp hdone
  dsimp only at hrest
  split at hrest
  · next hlen =>
    obtain rfl := Option.some.inj hrest
    obtain ⟨hreading, k, ⟨q, hq, -, hsent⟩, hphase⟩ := h
    obtain ⟨herase, hresults, rfl, hle, rfl⟩ := hphase.of_getElem? hi
    obtain ⟨hn, hfront⟩ := hq.copyOut_readHead (le_trans hlen.2 hle)
    refine ⟨?_, n, ⟨q, hq, hn, ?_⟩, ?_⟩
    · rw [results_append]
      show ∃ bs, Reading bs _ ∧ Phase u.recvs (results u .recv ++ []) _ _
      rw [List.append_nil]
      exact hreading
    · show u.session.sent ++ copyOut _ _ n ++ q.drop n = acceptedBytes u.session
      rw [hfront, List.append_assoc, List.take_append_drop]
      exact hsent
    · rw [results_append]
      show Phase (u.sends.eraseIdx i) (results u .send ++ [n]) _ _
      rw [herase, hresults]
      exact Phase.completed _ _
  · cases hrest

theorem InPhase.recvFailed {u v : UringConnection σ} (h : InPhase u) {i : ℕ}
    (hfailed : u.recvFailed i = some v) : InPhase v := by
  obtain ⟨⟨pos, len⟩, hi, hrest⟩ := Option.bind_eq_some_iff.mp hfailed
  obtain rfl := Option.some.inj hrest
  obtain ⟨⟨bs, hreading, hphase⟩, hsending⟩ := h
  obtain ⟨herase, hresults, -, -, hzero⟩ := hphase.of_getElem? hi
  refine ⟨⟨bs, hreading, ?_⟩, ?_⟩
  · rw [results_append]
    show Phase (u.recvs.eraseIdx i) (results u .recv ++ [0]) _ _
    rw [herase, hresults, hzero]
    exact Phase.completed _ 0
  · rw [results_append]
    show SendPhase u.sends (results u .send ++ []) _
    rw [List.append_nil]
    exact hsending

theorem InPhase.sendFailed {u v : UringConnection σ} (h : InPhase u) {i : ℕ}
    (hfailed : u.sendFailed i = some v) : InPhase v := by
  obtain ⟨⟨pos, len⟩, hi, hrest⟩ := Option.bind_eq_some_iff.mp hfailed
  obtain rfl := Option.some.inj hrest
  obtain ⟨hreading, k, hsending, hphase⟩ := h
  obtain ⟨herase, hresults, -, -, hzero⟩ := hphase.of_getElem? hi
  refine ⟨?_, k, hsending, ?_⟩
  · rw [results_append]
    show ∃ bs, Reading bs _ ∧ Phase u.recvs (results u .recv ++ []) _ _
    rw [List.append_nil]
    exact hreading
  · rw [results_append]
    show Phase (u.sends.eraseIdx i) (results u .send ++ [0]) _ _
    rw [herase, hresults, hzero]
    exact Phase.completed _ 0

/-- INTERNAL: **handling a receive moves the head over bytes that are in place.** -/
theorem reading_handleRecvCompletion (route : Bytes → σ → Bytes × σ) {s : Session Bytes σ}
    {bs : Bytes} (h : Reading bs s) : Reading [] (handleRecvCompletion route s bs.length) := by
  obtain ⟨q, hq, hafter, hreceived⟩ := h
  unfold handleRecvCompletion
  split
  · next hzero =>
    obtain rfl := List.length_eq_zero_iff.mp hzero
    rw [List.append_nil] at hreceived
    exact reading_nil hq hreceived
  · exact reading_processFrames route _ (reading_nil hafter hreceived)

theorem sendPhase_handleRecvCompletion (route : Bytes → σ → Bytes × σ) {s : Session Bytes σ}
    {ops : List (ℕ × ℕ)} {done : List ℕ} (h : SendPhase ops done s) (res : ℕ) :
    SendPhase ops done (handleRecvCompletion route s res) := by
  unfold handleRecvCompletion
  split
  · exact h
  · exact sendPhase_processFrames route _ h

/-- INTERNAL: **handling a send moves the tail over bytes that have been transmitted.** -/
theorem sending_handleSendCompletion {s : Session Bytes σ} {k : ℕ} (h : Sending k s) :
    Sending 0 (handleSendCompletion s k) := by
  obtain ⟨q, hq, hk, hsent⟩ := h
  unfold handleSendCompletion
  split
  · next hzero =>
    rw [hzero] at hsent
    exact ⟨q, hq, Nat.zero_le _, hsent⟩
  · exact ⟨q.drop k, hq.advanceTail hk, Nat.zero_le _, hsent⟩

theorem readSide_handleSendCompletion (s : Session Bytes σ) (res : ℕ) :
    (handleSendCompletion s res).conn.readBuf = s.conn.readBuf ∧
      (handleSendCompletion s res).received = s.received ∧
      (handleSendCompletion s res).routed = s.routed := by
  unfold handleSendCompletion
  split
  · exact ⟨rfl, rfl, rfl⟩
  · exact ⟨rfl, rfl, rfl⟩

/-- INTERNAL: the worker handles a completion. -/
theorem InPhase.reap {u v : UringConnection σ} (route : Bytes → σ → Bytes × σ) (h : InPhase u)
    (hreap : u.reap route = some v) : InPhase v := by
  obtain ⟨s, recvs, sends, cqes⟩ := u
  obtain ⟨⟨bs, hreading, hphase⟩, hsending⟩ := h
  cases cqes with
  | nil => cases hreap
  | cons c cqes =>
    obtain rfl := Option.some.inj hreap
    obtain ⟨op, res⟩ := c
    cases op with
    | recv =>
      have hphase' : Phase recvs (res :: results ⟨s, recvs, sends, cqes⟩ .recv) _ _ := hphase
      obtain ⟨hrecvs, hresults, rfl⟩ := hphase'.of_cons
      refine ⟨⟨[], reading_handleRecvCompletion route hreading, ?_⟩, ?_⟩
      · show Phase recvs (results ⟨s, recvs, sends, cqes⟩ .recv) _ _
        rw [hresults, hrecvs]
        exact Phase.idle _
      · exact sendPhase_handleRecvCompletion route hsending bs.length
    | send =>
      obtain ⟨k, hsent, hphaseSend⟩ := hsending
      have hphase' : Phase sends (res :: results ⟨s, recvs, sends, cqes⟩ .send) _ _ := hphaseSend
      obtain ⟨hsends, hresults, rfl⟩ := hphase'.of_cons
      obtain ⟨hbuf, hreceived, hrouted⟩ := readSide_handleSendCompletion s res
      refine ⟨⟨bs, ?_, ?_⟩, 0, sending_handleSendCompletion hsent, ?_⟩
      · obtain ⟨q, hq, hafter, heq⟩ := hreading
        refine ⟨q, ?_, ?_, ?_⟩
        · rw [hbuf]
          exact hq
        · rw [hbuf]
          exact hafter
        · rw [hreceived, hrouted]
          exact heq
      · show Phase recvs _ (handleSendCompletion s res).conn.readBuf.writeHead _
        rw [hbuf]
        exact hphase
      · show Phase sends (results ⟨s, recvs, sends, cqes⟩ .send) _ _
        rw [hresults, hsends]
        exact Phase.idle _

/-- INTERNAL: **a step that submits nothing beside another operation keeps the phases.** -/
theorem InPhase.step {u v : UringConnection σ} (route : Bytes → σ → Bytes × σ) (h : InPhase u)
    {a : UringStep} (halone : Alone u a) (hstep : u.step route a = some v) : InPhase v := by
  unfold UringConnection.step at hstep
  split at hstep
  · cases a with
    | submit recvSqe sendSqe =>
      obtain rfl := Option.some.inj hstep
      exact h.submit halone
    | recvDone i bs => exact h.recvDone hstep
    | sendDone i n => exact h.sendDone hstep
    | recvFailed i => exact h.recvFailed hstep
    | sendFailed i => exact h.sendFailed hstep
    | reap => exact h.reap route hstep
  · obtain rfl := Option.some.inj hstep
    exact h

/-- INTERNAL: the phases are kept along a run. The induction is on the steps still to come. -/
theorem InPhase.run {u v : UringConnection σ} (route : Bytes → σ → Bytes × σ) (h : InPhase u)
    {steps : List UringStep} (halone : SubmitsAlone route u steps)
    (hrun : u.run route steps = some v) : InPhase v := by
  induction steps generalizing u with
  | nil =>
    obtain rfl := Option.some.inj hrun
    exact h
  | cons a steps ih =>
    obtain ⟨w, hstep, hrest⟩ := foldlM_cons_eq_some_iff.mp hrun
    obtain ⟨hfirst, hlater⟩ := halone
    rw [hstep] at hlater
    exact ih (h.step route hfirst hstep) hlater hrest

/-- A frame comes in and is answered, each operation in a round of its own. -/
def oneAtATime : List UringStep :=
  [.submit true true, .recvDone 0 (frameBytes [7]), .reap, .submit true true, .sendDone 0 1, .reap]

/-- The first receive takes longer than a round of the loop, so a second one is submitted, into the
same place. -/
def slowRecv : List UringStep :=
  [.submit true true, .submit true true, .recvDone 0 [1], .recvDone 0 [2], .reap, .reap]

/-- The send of a response takes longer than a round of the loop, so it is submitted again. -/
def slowSend : List UringStep :=
  [.submit true true, .recvDone 0 (frameBytes [7]), .reap, .submit true true, .submit true true,
    .sendDone 0 1, .sendDone 0 1, .reap, .reap]

end StrikeMQ.Analysis.UringStreams
