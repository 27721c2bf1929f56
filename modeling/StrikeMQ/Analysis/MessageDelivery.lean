import StrikeMQ.Analysis.FrameProcessing
import StrikeMQ.Analysis.HttpParsing

/-!
# Messages that are delivered, and messages that block their connection

Both servers admit a message by its announced size, wait for all its bytes, and keep the bytes
they wait for in a read buffer of 128 KiB. A message that fits into the buffer is handed to the
router as soon as its last byte has arrived, in whatever pieces the bytes come, and until then
there is room for more of them. A larger one is admitted all the same, and when the buffer is
full of it the server waits for bytes that it has no room for.

That the condition is exact is shown without choosing the pieces cleverly: if there always were
room, the message could be sent byte by byte, up to one byte more than the buffer holds.
-/

set_option autoImplicit false

namespace StrikeMQ.Analysis.MessageDelivery

open StrikeMQ.Lib StrikeMQ.Model StrikeMQ.Model.HttpServer StrikeMQ.Interface
open StrikeMQ.Analysis.ByteQueue StrikeMQ.Analysis.SessionRuns
open StrikeMQ.Analysis.FrameProcessing StrikeMQ.Analysis.HttpParsing

variable {ρ σ : Type}

/-- After any live events that bring the beginning of the frames `fs`: the connection is open,
what was routed are the first of the frames and all those whose bytes have arrived, and there
is room for more bytes. -/
def DeliversFrames (route : Bytes → σ → Bytes × σ) (state : σ) (fs : List Bytes) : Prop :=
  ∀ (es : List Event) (s : Session Bytes σ), (∀ e ∈ es, Live e) →
    (tcpServer route).run { state := state } es = some s → s.received <+: framesWire fs →
      s.isOpen = true ∧ s.routed <+: fs ∧
        (∀ done, done <+: fs → framesWire done <+: s.received → done <+: s.routed) ∧
        0 < s.conn.readBuf.freeSpace

/-- After any live events that bring the beginning of the message `m`: while bytes are missing
the connection is open and has room for them, and when none are missing the message has been
routed, as the request that it is. -/
def DeliversMessage (route : HttpRequest → σ → HttpResponse × σ) (state : σ) (m : HttpMessage)
    (req : HttpRequest) : Prop :=
  ∀ (es : List Event) (s : Session HttpRequest σ), (∀ e ∈ es, Live e) →
    (httpServer route).run { state := state } es = some s → s.received <+: m.wire →
      (s.received ≠ m.wire →
        s.isOpen = true ∧ s.routed = [] ∧ 0 < s.conn.readBuf.freeSpace) ∧
      (s.received = m.wire →
        s.routed ≠ [] ∧ ∀ r ∈ s.routed, r = { req with body := m.body })

/-! ## What fits is delivered -/

/-- INTERNAL: where every live run that brings the beginning of `fs` has come to. -/
theorem receiving_of_run (route : Bytes → σ → Bytes × σ) (state : σ) {fs : List Bytes}
    (hmax : ∀ f ∈ fs, f.length ≤ TcpServer.kMaxFrameSize) {es : List Event}
    {s : Session Bytes σ} (hlive : ∀ e ∈ es, Live e)
    (hrun : (tcpServer route).run { state := state } es = some s)
    (hpre : s.received <+: framesWire fs) :
    ∃ later q, Receiving fs s later q ∧ IsPartial later q :=
  (receiving_new fs state).run route hmax hlive hrun hpre

theorem deliversFrames_of_fits (route : Bytes → σ → Bytes × σ) (state : σ) {fs : List Bytes}
    (hfit : ∀ f ∈ fs, 4 + f.length ≤ 131072) : DeliversFrames route state fs := by
  intro es s hlive hrun hpre
  have hmax : ∀ f ∈ fs, f.length ≤ TcpServer.kMaxFrameSize := by
    intro f hf
    have hle := hfit f hf
    unfold TcpServer.kMaxFrameSize
    omega
  obtain ⟨later, q, h, hpart⟩ := receiving_of_run route state hmax hlive hrun hpre
  refine ⟨h.open_eq, ?_, fun done hdone hwire => h.isPrefix_routed hpart hdone hwire,
    h.freeSpace_pos hpart hfit⟩
  rw [h.frames_eq]
  exact List.prefix_append _ _

section Http

variable {m : HttpMessage} {req : HttpRequest}

/-- A session that has received a part of the message, or all of it. -/
structure Awaiting (m : HttpMessage) (req : HttpRequest) (s : Session HttpRequest σ) : Prop where
  holds : HoldsReceived s
  routed_eq : ∀ r ∈ s.routed, r = { req with body := m.body }
  waiting : s.received ≠ m.wire → s.isOpen = true ∧ s.routed = [] ∧ s.writeEnabled = false

/-- INTERNAL: processing routes the message if and only if it is complete. -/
theorem Awaiting.processRequest (route : HttpRequest → σ → HttpResponse × σ)
    (hreq : m.Understood req) (hmax : m.body.length ≤ kMaxBodySize) {s : Session HttpRequest σ}
    (h : Awaiting m req s) (hpre : s.received <+: m.wire) :
    Awaiting m req (processRequest route s) ∧
      (s.received = m.wire → (HttpServer.processRequest route s).routed ≠ []) := by
  by_cases hall : s.received = m.wire
  · have hparsed : parseRequest (s.conn.readBuf.peek s.conn.readBuf.size) =
        .complete { req with body := m.body } := by
      rw [h.holds.peek, hall, parseRequest_wire hreq hmax]
    have hrouted : (HttpServer.processRequest route s).routed =
        s.routed ++ [{ req with body := m.body }] := by
      simp only [HttpServer.processRequest, hparsed]
      rfl
    obtain ⟨hbuf, hreceived⟩ := processRequest_fields route s
    refine ⟨⟨?_, ?_, ?_⟩, ?_⟩
    · exact (kept_holdsReceived route).process s h.holds
    · intro r hr
      rw [hrouted] at hr
      cases List.mem_append.mp hr with
      | inl hold => exact h.routed_eq r hold
      | inr hnew => exact List.mem_singleton.mp hnew
    · intro hne
      exact absurd (hreceived.trans hall) hne
    · intro _
      rw [hrouted]
      simp
  · have hsame : HttpServer.processRequest route s = s := by
      simp only [HttpServer.processRequest, h.holds.peek,
        parseRequest_of_isPrefix_wire hreq hmax hpre hall]
    rw [hsame]
    exact ⟨h, fun heq => absurd heq hall⟩

theorem keptLive_awaiting (route : HttpRequest → σ → HttpResponse × σ)
    (hreq : m.Understood req) (hmax : m.body.length ≤ kMaxBodySize) :
    KeptLive (httpServer route)
      (fun s => s.received <+: m.wire →
        Awaiting m req s ∧ (s.received = m.wire → s.routed ≠ []))
      (fun s => s.received <+: m.wire → Awaiting m req s) where
  enter s hs hpre := (hs hpre).1
  recv s bs s' hs hrecv hpre := by
    have hholds := (kept_holdsReceived route).recv s bs s'
    obtain ⟨b, hfill, rfl⟩ := recv_eq_some_iff.mp hrecv
    have hbefore : s.received <+: m.wire := (List.prefix_append _ _).trans hpre
    have h := hs hbefore
    obtain ⟨-, -, hpos, -⟩ := h.holds.1.fill hfill
    -- bytes still came, so the message was not complete before
    have hmissing : s.received ≠ m.wire := by
      intro hall
      have hle : (s.received ++ bs).length ≤ m.wire.length := hpre.length_le
      rw [hall, List.length_append] at hle
      omega
    exact ⟨hholds h.holds hrecv, h.routed_eq, fun _ => h.waiting hmissing⟩
  process s hs hpre := by
    have hreceived : (HttpServer.processRequest route s).received = s.received :=
      (processRequest_fields route s).2
    change (HttpServer.processRequest route s).received <+: m.wire at hpre
    rw [hreceived] at hpre
    obtain ⟨hawaiting, hrouted⟩ := (hs hpre).processRequest route hreq hmax hpre
    exact ⟨hawaiting, fun hall => hrouted (hreceived.symm.trans hall)⟩
  send s n s' hs henabled hsend hpre := by
    obtain ⟨bs, b, -, rfl⟩ := send_eq_some_iff.mp hsend
    obtain ⟨h, hrouted⟩ := hs hpre
    exact ⟨⟨h.holds, h.routed_eq, h.waiting⟩, hrouted⟩
  drained s hs henabled hpre := by
    obtain ⟨h, hrouted⟩ := hs hpre
    refine ⟨⟨h.holds, h.routed_eq, ?_⟩, hrouted⟩
    -- nothing is sent before the message is complete
    intro hmissing
    have hdisabled := (h.waiting hmissing).2.2
    rw [henabled] at hdisabled
    exact absurd hdisabled (by simp)

theorem deliversMessage_of_fits (route : HttpRequest → σ → HttpResponse × σ) (state : σ)
    (hreq : m.Understood req) (hmax : m.body.length ≤ kMaxBodySize)
    (hfit : m.wire.length ≤ 131072) : DeliversMessage route state m req := by
  intro es s hlive hrun hpre
  have hempty : ([] : Bytes) ≠ m.wire := by
    intro hnil
    have hlen := congrArg List.length hnil
    rw [HttpMessage.wire, List.length_append, length_head_append, List.length_nil] at hlen
    omega
  have hnew : Awaiting m req ({ state := state } : Session HttpRequest σ) :=
    ⟨holdsReceived_new state, by simp, fun _ => ⟨rfl, rfl, rfl⟩⟩
  obtain ⟨h, hrouted⟩ := (keptLive_awaiting route hreq hmax).run hlive
    (fun _ => ⟨hnew, fun hall => absurd hall hempty⟩) hrun hpre
  refine ⟨?_, fun hall => ⟨hrouted hall, h.routed_eq⟩⟩
  intro hmissing
  obtain ⟨hopen, hnone, -⟩ := h.waiting hmissing
  have hlt : s.received.length < m.wire.length :=
    lt_of_le_of_ne hpre.length_le fun heq => hmissing (hpre.eq_of_length heq)
  refine ⟨hopen, hnone, ?_⟩
  rw [h.holds.1.freeSpace_eq, h.holds.2]
  omega

end Http

/-! ## What does not fit is not -/

theorem exists_recv {s : Session ρ σ} {q : Bytes} (h : HoldsQueue s.conn.readBuf q)
    (hfree : 0 < s.conn.readBuf.freeSpace) (b : UInt8) :
    ∃ s₁, s.recv [b] = some s₁ ∧ s₁.received = s.received ++ [b] := by
  rw [h.freeSpace_eq] at hfree
  have hoffered := h.writeHead_pos_iff.mpr (by omega)
  have hfill : (s.conn.readBuf.fill [b]).isSome := by
    simp only [FixedCircularBuffer.fill]
    rw [if_pos ⟨Nat.one_pos, hoffered⟩]
    rfl
  obtain ⟨b', hb'⟩ := Option.isSome_iff_exists.mp hfill
  exact ⟨_, recv_eq_some_iff.mpr ⟨b', hb', rfl⟩, rfl⟩

/-- INTERNAL: a server that has room whenever bytes of `wire` are missing can be sent any
beginning of `wire`. The induction sends one byte after the other. -/
theorem exists_run_received (srv : Server ρ σ) (s₀ : Session ρ σ) (wire : Bytes)
    (hstart : s₀.received = [])
    (hprocess : ∀ s, (srv.process s).received = s.received)
    (hroom : ∀ es s, (∀ e ∈ es, Live e) → srv.run s₀ es = some s → s.received <+: wire →
      s.received ≠ wire → s.isOpen = true ∧ (∃ q, HoldsQueue s.conn.readBuf q) ∧
        0 < s.conn.readBuf.freeSpace) (n : ℕ) (hn : n ≤ wire.length) :
    ∃ es s, (∀ e ∈ es, Live e) ∧ srv.run s₀ es = some s ∧ s.received = wire.take n := by
  induction n with
  | zero => exact ⟨[], s₀, by simp, rfl, by rw [hstart, List.take_zero]⟩
  | succ n ih =>
    obtain ⟨es, s, hlive, hrun, hreceived⟩ := ih (by omega)
    have hmissing : s.received ≠ wire := by
      intro hall
      have hlen := congrArg List.length (hreceived.symm.trans hall)
      rw [List.length_take] at hlen
      omega
    obtain ⟨hopen, ⟨q, hq⟩, hfree⟩ :=
      hroom es s hlive hrun (hreceived ▸ List.take_prefix n wire) hmissing
    obtain ⟨s₁, hrecv, hmore⟩ := exists_recv hq hfree (wire.get ⟨n, hn⟩)
    refine ⟨_, _, ?_, run_receive srv hrun hopen hrecv, ?_⟩
    · intro e he
      cases List.mem_append.mp he with
      | inl hold => exact hlive e hold
      | inr hnew =>
        obtain rfl := List.mem_singleton.mp hnew
        rfl
    · rw [hprocess, hmore, hreceived, List.take_succ_eq_append_getElem hn]
      rfl

/-- INTERNAL: the first frame that does not fit fills the buffer, once the frames before it
have been taken. -/
theorem fits_of_deliversFrames (route : Bytes → σ → Bytes × σ) (state : σ) {fs : List Bytes}
    (hmax : ∀ f ∈ fs, f.length ≤ TcpServer.kMaxFrameSize) (h : DeliversFrames route state fs) :
    ∀ f ∈ fs, 4 + f.length ≤ 131072 := by
  intro f hf
  by_contra hlarge
  obtain ⟨before, after, rfl⟩ := List.append_of_mem hf
  have hwire : framesWire (before ++ f :: after) =
      framesWire before ++ (frameBytes f ++ framesWire after) := by
    rw [framesWire_append, framesWire_cons]
  have hbound : (framesWire before).length + 131072 ≤
      (framesWire (before ++ f :: after)).length := by
    rw [hwire, List.length_append, List.length_append, length_frameBytes]
    omega
  obtain ⟨es, s, hlive, hrun, hreceived⟩ := exists_run_received (tcpServer route)
    { state := state } (framesWire (before ++ f :: after)) rfl
    (fun s => received_processFrames route _ s)
    (fun es s hlive hrun hpre _ => by
      obtain ⟨hopen, -, -, hfree⟩ := h es s hlive hrun hpre
      obtain ⟨later, q, hr, -⟩ := receiving_of_run route state hmax hlive hrun hpre
      exact ⟨hopen, ⟨q, hr.queue⟩, hfree⟩) _ hbound
  have hpre : s.received <+: framesWire (before ++ f :: after) := by
    rw [hreceived]
    exact List.take_prefix _ _
  have hlen : s.received.length = (framesWire before).length + 131072 := by
    rw [hreceived, List.length_take, min_eq_left hbound]
  obtain ⟨-, hrouted, hdone, hfree⟩ := h es s hlive hrun hpre
  obtain ⟨later, q, hr, -⟩ := receiving_of_run route state hmax hlive hrun hpre
  -- the frames before `f` have been routed, and `f` has not
  have hbefore : before <+: s.routed := by
    refine hdone before (List.prefix_append _ _) ?_
    rw [hreceived, hwire, List.take_length_add_append]
    exact List.prefix_append _ _
  obtain ⟨extra, hextra⟩ := hbefore
  have hnone : extra = [] := by
    cases hcase : extra with
    | nil => rfl
    | cons g rest =>
      rw [hcase] at hextra
      rw [← hextra, List.prefix_append_right_inj] at hrouted
      obtain rfl : g = f := (List.cons_prefix_cons.mp hrouted).1
      have hsplit := congrArg List.length hr.received_eq
      rw [← hextra, framesWire_append, framesWire_cons, hlen] at hsplit
      simp only [List.length_append, length_frameBytes] at hsplit
      omega
  rw [hnone, List.append_nil] at hextra
  have hqueue : q.length = 131072 := by
    have hsplit := congrArg List.length hr.received_eq
    rw [← hextra, hlen, List.length_append] at hsplit
    omega
  rw [hr.queue.freeSpace_eq, hr.capacity_eq] at hfree
  omega

theorem fits_of_deliversMessage (route : HttpRequest → σ → HttpResponse × σ) (state : σ)
    {m : HttpMessage} {req : HttpRequest} (h : DeliversMessage route state m req) :
    m.wire.length ≤ 131072 := by
  by_contra hlarge
  have hholds : ∀ (es : List Event) (s : Session HttpRequest σ),
      (httpServer route).run { state := state } es = some s → HoldsReceived s :=
    fun es s hrun => (kept_holdsReceived route).run (holdsReceived_new state) hrun
  obtain ⟨es, s, hlive, hrun, hreceived⟩ := exists_run_received (httpServer route)
    { state := state } m.wire rfl
    (fun s => (processRequest_fields route s).2)
    (fun es s hlive hrun hpre hmissing => by
      obtain ⟨hopen, -, hfree⟩ := (h es s hlive hrun hpre).1 hmissing
      exact ⟨hopen, ⟨_, (hholds es s hrun).1⟩, hfree⟩) 131072 (by omega)
  have hlen : s.received.length = 131072 := by
    rw [hreceived, List.length_take]
    omega
  have hmissing : s.received ≠ m.wire := by
    intro hall
    rw [hall] at hlen
    omega
  obtain ⟨-, -, hfree⟩ :=
    (h es s hlive hrun (hreceived ▸ List.take_prefix _ _)).1 hmissing
  rw [(hholds es s hrun).1.freeSpace_eq, (hholds es s hrun).2, hlen] at hfree
  omega

/-! ## A connection blocked by one frame -/

/-- INTERNAL: a frame that does not fit blocks its connection: the server has admitted it, has
no room for the rest of it, and neither routes it nor closes the connection. -/
theorem blocked_of_large (route : Bytes → σ → Bytes × σ) (state : σ) {f : Bytes}
    (hmax : f.length ≤ TcpServer.kMaxFrameSize) (hlarge : 131072 < 4 + f.length) :
    ∃ s, (tcpServer route).run { state := state }
        [.readable [(frameBytes f).take 131072] .wouldBlock] = some s ∧
      s.received <+: framesWire [f] ∧ s.isOpen = true ∧ s.routed = [] ∧
      s.conn.readBuf.freeSpace = 0 := by
  have hlen : ((frameBytes f).take 131072).length = 131072 := by
    rw [List.length_take, length_frameBytes]
    omega
  obtain ⟨s₁, hrecv, hbytes⟩ := recv_new Bytes state ((frameBytes f).take 131072)
    (by omega) (by omega)
  have hrun := run_receive (tcpServer route) (List.foldlM_nil) rfl hrecv
  have hreceived : ((tcpServer route).process s₁).received = (frameBytes f).take 131072 :=
    (received_processFrames route _ s₁).trans hbytes
  have hpre : ((tcpServer route).process s₁).received <+: framesWire [f] := by
    rw [hreceived, framesWire_cons, framesWire_nil, List.append_nil]
    exact List.take_prefix _ _
  obtain ⟨later, q, h, -⟩ :=
    receiving_of_run route state (by simpa using hmax) (by simp [Live]) hrun hpre
  have hnone : ((tcpServer route).process s₁).routed = [] := by
    cases hcase : ((tcpServer route).process s₁).routed with
    | nil => rfl
    | cons g rest =>
      -- a routed frame would have arrived
      have hframes := h.frames_eq
      have hsplit := congrArg List.length h.received_eq
      rw [hcase, List.cons_append] at hframes
      obtain rfl := (List.cons.inj hframes).1
      rw [hcase, hreceived, hlen, framesWire_cons] at hsplit
      simp only [List.length_append, length_frameBytes] at hsplit
      omega
  refine ⟨_, hrun, hpre, h.open_eq, hnone, ?_⟩
  have hqueue : q = (frameBytes f).take 131072 := by
    have hsplit := h.received_eq
    rw [hnone, hreceived] at hsplit
    exact hsplit.symm
  rw [h.queue.freeSpace_eq, h.capacity_eq, hqueue, hlen]

/-- A message without headers and body. -/
def getRoot : HttpMessage where
  head := ascii "GET / HTTP/1.1"
  body := []
  head_ends := by decide

end StrikeMQ.Analysis.MessageDelivery
