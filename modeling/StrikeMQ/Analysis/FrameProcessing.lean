import StrikeMQ.Interface.Messages
import StrikeMQ.Analysis.SessionRuns

/-!
# Taking frames from the read buffer

What `process_frames` does with a read buffer that holds the beginning of a sequence of
frames: it hands every frame that is there completely to the router, in order, and leaves
the beginning of the next one. The induction is on the frames still to come; one round takes
the first of them.
-/

set_option autoImplicit false

namespace StrikeMQ.Analysis.FrameProcessing

open StrikeMQ.Lib StrikeMQ.Model StrikeMQ.Model.TcpServer StrikeMQ.Interface
open StrikeMQ.Analysis.ByteQueue StrikeMQ.Analysis.SessionRuns

variable {σ : Type}

@[simp]
theorem length_frameBytes (f : Bytes) : (frameBytes f).length = 4 + f.length := by
  rw [frameBytes, List.length_append, length_beInt]

@[simp]
theorem framesWire_nil : framesWire [] = [] :=
  rfl

@[simp]
theorem framesWire_cons (f : Bytes) (fs : List Bytes) :
    framesWire (f :: fs) = frameBytes f ++ framesWire fs :=
  rfl

theorem framesWire_append (fs gs : List Bytes) :
    framesWire (fs ++ gs) = framesWire fs ++ framesWire gs := by
  rw [framesWire, List.map_append, List.flatten_append]
  rfl

/-- INTERNAL: the first four bytes of a frame tell its length. -/
theorem beNat_take_four {f q : Bytes} (hf : f.length < 2 ^ 32) (hq : q <+: frameBytes f)
    (hlen : 4 ≤ q.length) : beNat (q.take 4) = f.length := by
  have htake : q.take 4 = beInt 4 f.length := by
    obtain ⟨rest, hrest⟩ := hq
    have hfront := congrArg (List.take 4) hrest
    rw [List.take_append_of_le_length hlen, frameBytes,
      List.take_left' (length_beInt 4 f.length)] at hfront
    exact hfront
  rw [htake, beInt, beNat_beBytes]
  omega

/-- INTERNAL: in place or copied, the router is given the bytes behind the size. -/
theorem frameData_eq {b : FixedCircularBuffer} {q : Bytes} (h : HoldsQueue b q) {n : ℕ}
    (hn : 4 + n ≤ q.length) : frameData b n = (q.drop 4).take n := by
  have hlen := h.length_le
  have hback : (q.take (4 + n)).drop 4 = (q.drop 4).take n := by
    rw [List.drop_take, Nat.add_sub_cancel_left]
  simp only [frameData, FixedCircularBuffer.readHead, h.and_mask, h.size_eq]
  split
  · rename_i hcontig
    rw [← drop_copyOut, copyOut_eq_ringOut _ (by omega), ← hback, h.take_eq,
      min_eq_left (by omega)]
  · rw [h.peek, hback]

section Answer

variable (route : Bytes → σ → Bytes × σ) (s : Session Bytes σ) (f : Bytes)

/-- INTERNAL: answering a frame leaves the read side alone but for the router having seen it. -/
theorem answerFrame_fields :
    (answerFrame route s f).conn.readBuf = s.conn.readBuf ∧
      (answerFrame route s f).routed = s.routed ++ [f] ∧
      (answerFrame route s f).received = s.received ∧
      (answerFrame route s f).isOpen = s.isOpen ∧
      (answerFrame route s f).state = (route f s.state).2 := by
  simp only [answerFrame]
  split
  · exact ⟨rfl, rfl, rfl, rfl, rfl⟩
  · exact ⟨rfl, rfl, rfl, rfl, rfl⟩

/-- The response to a frame, if there is one. -/
def reply (f : Bytes) (state : σ) : List Bytes :=
  if (route f state).1.length > 0 then [(route f state).1] else []

theorem answerFrame_queued :
    (answerFrame route s f).queued.map Prod.fst =
        s.queued.map Prod.fst ++ reply route f s.state ∧
      (answerFrame route s f).sent = s.sent := by
  by_cases hsome : (route f s.state).1.length > 0
  · have hanswer : answerFrame route s f =
        (s.routeTo route f).2.queueWrite (route f s.state).1 := if_pos hsome
    rw [hanswer, reply, if_pos hsome]
    exact ⟨List.map_append, rfl⟩
  · have hanswer : answerFrame route s f = (s.routeTo route f).2 := if_neg hsome
    rw [hanswer, reply, if_neg hsome]
    exact ⟨(List.append_nil _).symm, rfl⟩

/-- The responses to a sequence of frames. -/
def replies : List Bytes → σ → List Bytes
  | [], _ => []
  | f :: fs, state => reply route f state ++ replies fs (route f state).2

end Answer

/-- INTERNAL: what answering a frame, taking it and closing keep, `process_frames` keeps. -/
theorem processFrames_invariant (route : Bytes → σ → Bytes × σ) {P : Session Bytes σ → Prop}
    (hframe : ∀ s n, P s → 4 + n ≤ s.conn.readBuf.size → n = beNat (s.conn.readBuf.peek 4) →
      P (processFrame route s n))
    (hclose : ∀ s, P s → P s.close)
    (fuel : ℕ) {s : Session Bytes σ} (hs : P s) : P (processFrames route fuel s) := by
  induction fuel generalizing s with
  | zero => exact hs
  | succ fuel ih =>
    rw [processFrames]
    split
    · simp only
      split
      · exact hclose s hs
      · split
        · exact hs
        · rename_i hsize
          exact ih (hframe s _ hs (by omega) rfl)
    · exact hs

theorem received_processFrames (route : Bytes → σ → Bytes × σ) (fuel : ℕ) (s : Session Bytes σ) :
    (processFrames route fuel s).received = s.received := by
  refine processFrames_invariant route (P := fun t => t.received = s.received) ?_ ?_ fuel rfl
  · intro t n ht _ _
    exact (answerFrame_fields route t _).2.2.1.trans ht
  · intro t ht
    exact ht

/-- What `process_frames` makes of a session from whose read buffer it takes the frames `fs`,
leaving the bytes `q`: the frames are routed, and the responses to them queued, in order. -/
structure Taken (route : Bytes → σ → Bytes × σ) (s s' : Session Bytes σ) (fs : List Bytes)
    (q : Bytes) : Prop where
  queue : HoldsQueue s'.conn.readBuf q
  capacity_eq : s'.conn.readBuf.capacity = s.conn.readBuf.capacity
  routed_eq : s'.routed = s.routed ++ fs
  received_eq : s'.received = s.received
  open_eq : s'.isOpen = s.isOpen
  state_eq : s'.state = fs.foldl (fun state f => (route f state).2) s.state
  queued_eq : s'.queued.map Prod.fst = s.queued.map Prod.fst ++ replies route fs s.state
  sent_eq : s'.sent = s.sent

theorem replies_append (route : Bytes → σ → Bytes × σ) (fs gs : List Bytes) (state : σ) :
    replies route (fs ++ gs) state =
      replies route fs state ++
        replies route gs (fs.foldl (fun state f => (route f state).2) state) := by
  induction fs generalizing state with
  | nil => rfl
  | cons f fs ih =>
    rw [List.cons_append, replies, ih, replies, List.append_assoc]
    rfl

theorem Taken.refl (route : Bytes → σ → Bytes × σ) {s : Session Bytes σ} {q : Bytes}
    (h : HoldsQueue s.conn.readBuf q) : Taken route s s [] q :=
  ⟨h, rfl, (List.append_nil _).symm, rfl, rfl, rfl, (List.append_nil _).symm, rfl⟩

theorem taken_processFrame (route : Bytes → σ → Bytes × σ) {s : Session Bytes σ} {f q : Bytes}
    (h : HoldsQueue s.conn.readBuf (frameBytes f ++ q)) :
    Taken route s (processFrame route s f.length) [f] q := by
  have hdata : frameData s.conn.readBuf f.length = f := by
    rw [frameData_eq h (by rw [List.length_append, length_frameBytes]; omega), frameBytes,
      List.append_assoc, List.drop_left' (length_beInt 4 f.length), List.take_left]
  obtain ⟨hbuf, hrouted, hreceived, hopen, hstate⟩ := answerFrame_fields route s f
  obtain ⟨hqueued, hsent⟩ := answerFrame_queued route s f
  have hdrop : (frameBytes f ++ q).drop (4 + f.length) = q :=
    List.drop_left' (length_frameBytes f)
  have hadvance := h.advanceTail (n := 4 + f.length) (by simp)
  rw [hdrop] at hadvance
  simp only [processFrame, hdata]
  refine ⟨?_, ?_, hrouted, hreceived, hopen, hstate, ?_, hsent⟩
  · show HoldsQueue ((answerFrame route s f).conn.readBuf.advanceTail (4 + f.length)) q
    rw [hbuf]
    exact hadvance
  · show (answerFrame route s f).conn.readBuf.capacity = s.conn.readBuf.capacity
    rw [hbuf]
  · show (answerFrame route s f).queued.map Prod.fst = _
    rw [hqueued, replies, replies, List.append_nil]

theorem Taken.trans {route : Bytes → σ → Bytes × σ} {s s₁ s₂ : Session Bytes σ}
    {fs gs : List Bytes} {q r : Bytes} (h : Taken route s s₁ fs q)
    (h' : Taken route s₁ s₂ gs r) : Taken route s s₂ (fs ++ gs) r where
  queue := h'.queue
  capacity_eq := h'.capacity_eq.trans h.capacity_eq
  routed_eq := by rw [h'.routed_eq, h.routed_eq, List.append_assoc]
  received_eq := h'.received_eq.trans h.received_eq
  open_eq := h'.open_eq.trans h.open_eq
  state_eq := by rw [h'.state_eq, h.state_eq, List.foldl_append]
  queued_eq := by
    rw [h'.queued_eq, h.queued_eq, h.state_eq, replies_append, List.append_assoc]
  sent_eq := h'.sent_eq.trans h.sent_eq

/-- INTERNAL: a frame that is there completely is taken in one round. -/
theorem processFrames_frame (route : Bytes → σ → Bytes × σ) (fuel : ℕ) {s : Session Bytes σ}
    {f q : Bytes} (hf : f.length ≤ kMaxFrameSize)
    (h : HoldsQueue s.conn.readBuf (frameBytes f ++ q)) :
    processFrames route (fuel + 1) s = processFrames route fuel (processFrame route s f.length) := by
  have hmax : f.length < 2 ^ 32 := lt_of_le_of_lt hf (by decide)
  have hsize : s.conn.readBuf.size = 4 + f.length + q.length := by
    rw [h.size_eq, List.length_append, length_frameBytes]
  have hannounced : beNat (s.conn.readBuf.peek 4) = f.length := by
    rw [h.peek, List.take_append_of_le_length (by rw [length_frameBytes]; omega)]
    exact beNat_take_four hmax (List.prefix_refl _) (by rw [length_frameBytes]; omega)
  rw [processFrames, if_pos (by omega)]
  simp only [hannounced]
  rw [if_neg (by omega), if_neg (by omega)]

/-- INTERNAL: an incomplete frame stays in the buffer. -/
theorem processFrames_incomplete (route : Bytes → σ → Bytes × σ) (fuel : ℕ) {s : Session Bytes σ}
    {f q : Bytes} (hf : f.length ≤ kMaxFrameSize) (h : HoldsQueue s.conn.readBuf q)
    (hq : q <+: frameBytes f) (hlt : q.length < 4 + f.length) :
    processFrames route fuel s = s := by
  cases fuel with
  | zero => rfl
  | succ fuel =>
    rw [processFrames, h.size_eq]
    by_cases hlen : 4 ≤ q.length
    · have hannounced : beNat (s.conn.readBuf.peek 4) = f.length := by
        rw [h.peek]
        exact beNat_take_four (lt_of_le_of_lt hf (by decide)) hq hlen
      rw [if_pos hlen]
      simp only [hannounced]
      rw [if_neg (by omega), if_pos hlt]
    · rw [if_neg hlen]

/-- What is left in the buffer is the beginning of the next frame, and not all of it. -/
def IsPartial : List Bytes → Bytes → Prop
  | [], q => q = []
  | f :: _, q => q <+: frameBytes f ∧ q.length < 4 + f.length

/-- INTERNAL: **every complete frame is handed over**, and a part of the next one is left. -/
theorem taken_processFrames (route : Bytes → σ → Bytes × σ) {todo : List Bytes}
    (hmax : ∀ f ∈ todo, f.length ≤ kMaxFrameSize) {fuel : ℕ} {s : Session Bytes σ} {q : Bytes}
    (h : HoldsQueue s.conn.readBuf q) (hq : q <+: framesWire todo) (hfuel : q.length ≤ fuel) :
    ∃ now later q', todo = now ++ later ∧ q = framesWire now ++ q' ∧ IsPartial later q' ∧
      Taken route s (processFrames route fuel s) now q' := by
  induction todo generalizing fuel s q with
  | nil =>
    obtain rfl := List.prefix_nil.mp hq
    have hsame : processFrames route fuel s = s :=
      processFrames_incomplete route fuel (f := []) (Nat.zero_le _) h List.nil_prefix (by simp)
    refine ⟨[], [], [], rfl, rfl, rfl, ?_⟩
    rw [hsame]
    exact Taken.refl route h
  | cons f todo ih =>
    have hf := hmax f List.mem_cons_self
    rw [framesWire_cons] at hq
    by_cases hlen : q.length < 4 + f.length
    · -- the first frame is not complete yet
      have hpart : q <+: frameBytes f :=
        List.prefix_of_prefix_length_le hq (List.prefix_append _ _) (by simp; omega)
      refine ⟨[], f :: todo, q, rfl, rfl, ⟨hpart, hlen⟩, ?_⟩
      rw [processFrames_incomplete route fuel hf h hpart hlen]
      exact Taken.refl route h
    · have hwhole : frameBytes f <+: q :=
        List.prefix_of_prefix_length_le (List.prefix_append _ _) hq (by simp; omega)
      obtain ⟨q₁, rfl⟩ := hwhole
      have hq₁ : q₁ <+: framesWire todo := (List.prefix_append_right_inj _).mp hq
      rw [List.length_append, length_frameBytes] at hfuel
      obtain ⟨fuel, rfl⟩ := Nat.exists_eq_succ_of_ne_zero (show fuel ≠ 0 by omega)
      have hfirst := taken_processFrame route h
      obtain ⟨now, later, q', rfl, rfl, hpart, hrest⟩ :=
        ih (fun g hg => hmax g (List.mem_cons_of_mem f hg)) hfirst.queue hq₁
          (show q₁.length ≤ fuel by omega)
      refine ⟨f :: now, later, q', rfl, ?_, hpart, ?_⟩
      · rw [framesWire_cons, List.append_assoc]
      · rw [processFrames_frame route fuel hf h]
        exact hfirst.trans hrest

/-- INTERNAL: when the buffer holds complete frames only, all of them are taken. -/
theorem taken_processFrames_all (route : Bytes → σ → Bytes × σ) {fs : List Bytes}
    (hmax : ∀ f ∈ fs, f.length ≤ kMaxFrameSize) {s : Session Bytes σ}
    (h : HoldsQueue s.conn.readBuf (framesWire fs)) :
    Taken route s (processFrames route s.conn.readBuf.size s) fs [] := by
  obtain ⟨now, later, q, rfl, hwire, hpart, htaken⟩ :=
    taken_processFrames route hmax h (List.prefix_refl _) (le_of_eq h.size_eq.symm)
  rw [framesWire_append] at hwire
  obtain rfl := List.append_cancel_left hwire
  cases later with
  | nil => rwa [List.append_nil]
  | cons f later =>
    -- a frame that is left would be there completely
    have hlt := hpart.2
    rw [framesWire_cons, List.length_append, length_frameBytes] at hlt
    omega

/-! ## Frames along a run -/

/-- The frames `fs` are being received: those routed are the first of them, and the buffer
holds what has arrived since. -/
structure Receiving (fs : List Bytes) (s : Session Bytes σ) (later : List Bytes) (q : Bytes) :
    Prop where
  open_eq : s.isOpen = true
  frames_eq : fs = s.routed ++ later
  received_eq : s.received = framesWire s.routed ++ q
  queue : HoldsQueue s.conn.readBuf q
  capacity_eq : s.conn.readBuf.capacity = 131072

variable {fs : List Bytes}

theorem receiving_new (fs : List Bytes) (state : σ) :
    Receiving fs ({ state := state } : Session Bytes σ) fs [] :=
  ⟨rfl, rfl, rfl, holdsQueue_new (by norm_num) nextPowerOf2_connection, nextPowerOf2_connection⟩

/-- INTERNAL: processing takes the frames that are complete. -/
theorem Receiving.processFrames (route : Bytes → σ → Bytes × σ)
    (hmax : ∀ f ∈ fs, f.length ≤ kMaxFrameSize) {s : Session Bytes σ} {later : List Bytes}
    {q : Bytes} (h : Receiving fs s later q) (hpre : s.received <+: framesWire fs) :
    ∃ later' q', Receiving fs (processFrames route s.conn.readBuf.size s) later' q' ∧
      IsPartial later' q' := by
  have hq : q <+: framesWire later := by
    rw [h.received_eq, h.frames_eq, framesWire_append, List.prefix_append_right_inj] at hpre
    exact hpre
  have hlater : ∀ f ∈ later, f.length ≤ kMaxFrameSize := by
    intro f hf
    exact hmax f (by rw [h.frames_eq]; exact List.mem_append_right _ hf)
  obtain ⟨now, later', q', rfl, rfl, hpart, htaken⟩ :=
    taken_processFrames route hlater h.queue hq (le_of_eq h.queue.size_eq.symm)
  refine ⟨later', q', ?_, hpart⟩
  constructor
  · rw [htaken.open_eq, h.open_eq]
  · rw [htaken.routed_eq, h.frames_eq, List.append_assoc]
  · rw [htaken.received_eq, h.received_eq, htaken.routed_eq, framesWire_append, List.append_assoc]
  · exact htaken.queue
  · rw [htaken.capacity_eq, h.capacity_eq]

/-- INTERNAL: as long as what arrives is the beginning of `fs`, the connection stays open and
no complete frame waits after an event. -/
theorem keptLive_receiving (route : Bytes → σ → Bytes × σ)
    (hmax : ∀ f ∈ fs, f.length ≤ kMaxFrameSize) :
    KeptLive (tcpServer route)
      (fun s => s.received <+: framesWire fs → ∃ later q, Receiving fs s later q ∧
        IsPartial later q)
      (fun s => s.received <+: framesWire fs → ∃ later q, Receiving fs s later q) where
  enter s hs hpre := by
    obtain ⟨later, q, h, -⟩ := hs hpre
    exact ⟨later, q, h⟩
  recv s bs s' hs hrecv hpre := by
    obtain ⟨b, hfill, rfl⟩ := recv_eq_some_iff.mp hrecv
    obtain ⟨later, q, h⟩ := hs ((List.prefix_append _ _).trans hpre)
    obtain ⟨hqueue, hcap, -, -⟩ := h.queue.fill hfill
    refine ⟨later, q ++ bs, h.open_eq, h.frames_eq, ?_, hqueue, hcap.trans h.capacity_eq⟩
    show s.received ++ bs = framesWire s.routed ++ (q ++ bs)
    rw [h.received_eq, List.append_assoc]
  process s hs hpre := by
    have hsame : s.received <+: framesWire fs := by
      rw [← received_processFrames route s.conn.readBuf.size s]
      exact hpre
    obtain ⟨later, q, h⟩ := hs hsame
    exact h.processFrames route hmax hsame
  send s n s' hs _ hsend hpre := by
    obtain ⟨bs, b, -, rfl⟩ := send_eq_some_iff.mp hsend
    obtain ⟨later, q, h, hpart⟩ := hs hpre
    exact ⟨later, q, ⟨h.open_eq, h.frames_eq, h.received_eq, h.queue, h.capacity_eq⟩, hpart⟩
  drained s hs _ hpre := by
    obtain ⟨later, q, h, hpart⟩ := hs hpre
    exact ⟨later, q, ⟨h.open_eq, h.frames_eq, h.received_eq, h.queue, h.capacity_eq⟩, hpart⟩

/-- INTERNAL: where every live run that brings the beginning of `fs` has come to. -/
theorem Receiving.run (route : Bytes → σ → Bytes × σ)
    (hmax : ∀ f ∈ fs, f.length ≤ kMaxFrameSize) {s₀ s : Session Bytes σ}
    (h : Receiving fs s₀ fs []) {es : List Event} (hlive : ∀ e ∈ es, Live e)
    (hrun : (tcpServer route).run s₀ es = some s) (hpre : s.received <+: framesWire fs) :
    ∃ later q, Receiving fs s later q ∧ IsPartial later q := by
  refine (keptLive_receiving route hmax).run hlive (fun _ => ⟨fs, [], h, ?_⟩) hrun hpre
  cases fs with
  | nil => rfl
  | cons f fs => exact ⟨List.nil_prefix, by simp⟩

/-- INTERNAL: a frame all of whose bytes have arrived is among those routed. -/
theorem Receiving.isPrefix_routed {s : Session Bytes σ} {later : List Bytes} {q : Bytes}
    (h : Receiving fs s later q) (hpart : IsPartial later q) {done : List Bytes}
    (hdone : done <+: fs) (hwire : framesWire done <+: s.received) : done <+: s.routed := by
  have hrouted : s.routed <+: fs := by
    rw [h.frames_eq]
    exact List.prefix_append _ _
  cases List.prefix_or_prefix_of_prefix hdone hrouted with
  | inl hle => exact hle
  | inr hge =>
    obtain ⟨extra, rfl⟩ := hge
    have hextra : extra <+: later := by
      rw [h.frames_eq, List.prefix_append_right_inj] at hdone
      exact hdone
    have hbytes : framesWire extra <+: q := by
      rw [h.received_eq, framesWire_append, List.prefix_append_right_inj] at hwire
      exact hwire
    cases extra with
    | nil => rw [List.append_nil]
    | cons f extra =>
      -- the next frame would have arrived completely
      obtain ⟨rest, rfl⟩ := hextra
      have hlt : q.length < 4 + f.length := hpart.2
      have hle := hbytes.length_le
      rw [framesWire_cons, List.length_append, length_frameBytes] at hle
      omega

/-- INTERNAL: there is room for more as long as the next frame fits into the buffer. -/
theorem Receiving.freeSpace_pos {s : Session Bytes σ} {later : List Bytes} {q : Bytes}
    (h : Receiving fs s later q) (hpart : IsPartial later q)
    (hfit : ∀ f ∈ fs, 4 + f.length ≤ 131072) : 0 < s.conn.readBuf.freeSpace := by
  rw [h.queue.freeSpace_eq, h.capacity_eq]
  cases later with
  | nil =>
    obtain rfl : q = [] := hpart
    norm_num
  | cons f later =>
    have hlt : q.length < 4 + f.length := hpart.2
    have hle := hfit f (by rw [h.frames_eq]; simp)
    omega

end StrikeMQ.Analysis.FrameProcessing
