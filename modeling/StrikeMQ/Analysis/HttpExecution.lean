import StrikeMQ.Model.HttpRoutes
import StrikeMQ.Analysis.HttpParsing

/-!
# How often an HTTP request is executed

`process_request` leaves the request it has executed in the read buffer, and a connection stays
readable until its response has been sent. So each time bytes arrive on it, the same request is
parsed again, comes out the same, and is executed again. It is executed once exactly on those
connections that are never read again after the request was complete.

The induction is on the events, the last one split off: what a connection has executed before
an event decides, with the event, what it has executed after it.
-/

set_option autoImplicit false

namespace StrikeMQ.Analysis.HttpExecution

open StrikeMQ.Lib StrikeMQ.Model StrikeMQ.Model.HttpServer
open StrikeMQ.Analysis.ByteQueue StrikeMQ.Analysis.SessionRuns StrikeMQ.Analysis.HttpParsing

variable {σ : Type}

/-- The event has `handle_read` process the buffer. -/
def Processes (s : Session HttpRequest σ) (e : Event) : Prop :=
  s.isOpen = true ∧ ∃ recvs, e = .readable recvs .wouldBlock

/-- The buffer is processed although what arrived before already was a complete request. -/
def Repeats (s : Session HttpRequest σ) (e : Event) : Prop :=
  Processes s e ∧ ∃ req, parseRequest s.received = .complete req

/-- No event of the run is a repetition in the state in which it happens. -/
def NeverRepeats (srv : Server HttpRequest σ) (s₀ : Session HttpRequest σ) (es : List Event) :
    Prop :=
  ∀ pre e post s₁, es = pre ++ e :: post → srv.run s₀ pre = some s₁ → ¬ Repeats s₁ e

/-! ## What was executed, after any operation -/

/-- What was executed is the request at the start of what arrived, and the state is what the
executions have made of the first one. -/
structure Executed (route : HttpRequest → σ → HttpResponse × σ) (state : σ)
    (s : Session HttpRequest σ) : Prop where
  holds : HoldsReceived s
  routed_eq : ∀ r ∈ s.routed, parseRequest s.received = .complete r
  state_eq : s.state = s.routed.foldl (fun st r => (route r st).2) state

variable {route : HttpRequest → σ → HttpResponse × σ} {state : σ}

/-- The request that processing would find, if any. -/
def found (data : Bytes) : List HttpRequest :=
  match parseRequest data with
  | .complete req => [req]
  | _ => []

theorem mem_found {data : Bytes} {req : HttpRequest} :
    req ∈ found data ↔ parseRequest data = .complete req := by
  unfold found
  cases parseRequest data with
  | complete r => simp [eq_comm]
  | incomplete => simp
  | badRequestLine => simp
  | throws => simp
  | tooLarge => simp

theorem length_found_le (data : Bytes) : (found data).length ≤ 1 := by
  unfold found
  split
  · exact le_refl 1
  · exact Nat.zero_le 1

/-- INTERNAL: processing executes what it finds, once. -/
theorem processRequest_executes (route : HttpRequest → σ → HttpResponse × σ)
    {s : Session HttpRequest σ} (h : HoldsReceived s) :
    (processRequest route s).routed = s.routed ++ found s.received ∧
      (processRequest route s).state =
        (found s.received).foldl (fun st r => (route r st).2) s.state := by
  unfold processRequest found
  rw [h.peek]
  cases parseRequest s.received with
  | incomplete => exact ⟨(List.append_nil _).symm, rfl⟩
  | badRequestLine => exact ⟨(List.append_nil _).symm, rfl⟩
  | throws => exact ⟨(List.append_nil _).symm, rfl⟩
  | tooLarge =>
    exact ⟨(routed_queueWrite s _).trans (List.append_nil _).symm, state_queueWrite s _⟩
  | complete req => exact ⟨routed_queueWrite _ _, state_queueWrite _ _⟩

theorem executed_new (route : HttpRequest → σ → HttpResponse × σ) (state : σ) :
    Executed route state ({ state := state } : Session HttpRequest σ) where
  holds := holdsReceived_new state
  routed_eq := by simp
  state_eq := rfl

theorem kept_executed (route : HttpRequest → σ → HttpResponse × σ) (state : σ) :
    Kept (httpServer route) (Executed route state) where
  recv s bs s' h hrecv := by
    have hholds := (kept_holdsReceived route).recv s bs s' h.holds hrecv
    obtain ⟨b, -, rfl⟩ := recv_eq_some_iff.mp hrecv
    refine ⟨hholds, ?_, h.state_eq⟩
    intro r hr
    have hbefore := h.routed_eq r hr
    -- more bytes do not change a request that was complete
    exact (parseRequest_append (by rw [hbefore]; simp) bs).trans hbefore
  send s n s' h hsend := by
    obtain ⟨bs, b, -, rfl⟩ := send_eq_some_iff.mp hsend
    exact ⟨h.holds, h.routed_eq, h.state_eq⟩
  process s h := by
    obtain ⟨hrouted, hstate⟩ := processRequest_executes route h.holds
    have hreceived := (processRequest_fields route s).2
    refine ⟨(kept_holdsReceived route).process s h.holds, ?_, ?_⟩
    · show ∀ r ∈ (processRequest route s).routed,
        parseRequest (processRequest route s).received = .complete r
      rw [hrouted, hreceived]
      intro r hr
      cases List.mem_append.mp hr with
      | inl hold => exact h.routed_eq r hold
      | inr hnew => exact mem_found.mp hnew
    · show (processRequest route s).state = (processRequest route s).routed.foldl _ state
      rw [hrouted, hstate, List.foldl_append, h.state_eq]
  drained s h := ⟨h.holds, h.routed_eq, h.state_eq⟩
  close s h := ⟨h.holds, h.routed_eq, h.state_eq⟩

/-! ## What one event executes -/

theorem not_isOpen_close {s : Session HttpRequest σ} : ¬ s.close.isOpen = true :=
  Bool.false_ne_true

theorem recvs_extend {s s' : Session HttpRequest σ} {recvs : List Bytes}
    (h : recvs.foldlM Session.recv s = some s') :
    s.received <+: s'.received ∧ s'.routed = s.routed := by
  refine foldlM_invariant
    (P := fun t : Session HttpRequest σ => s.received <+: t.received ∧ t.routed = s.routed)
    ?_ ⟨List.prefix_refl _, rfl⟩ h
  rintro t bs t' ⟨hpre, hrouted⟩ hrecv
  obtain ⟨b, -, rfl⟩ := recv_eq_some_iff.mp hrecv
  exact ⟨hpre.trans (List.prefix_append _ _), hrouted⟩

theorem sends_keep {s s' : Session HttpRequest σ} {sends : List ℕ}
    (h : sends.foldlM Session.send s = some s') :
    s'.received = s.received ∧ s'.routed = s.routed := by
  refine foldlM_invariant
    (P := fun t : Session HttpRequest σ => t.received = s.received ∧ t.routed = s.routed)
    ?_ ⟨rfl, rfl⟩ h
  rintro t n t' ⟨hreceived, hrouted⟩ hsend
  obtain ⟨bs, b, -, rfl⟩ := send_eq_some_iff.mp hsend
  exact ⟨hreceived, hrouted⟩

/-- INTERNAL: the events that process the buffer execute what is found there. -/
theorem step_processes {s s' : Session HttpRequest σ} {e : Event} (h : Executed route state s)
    (hproc : Processes s e) (hstep : (httpServer route).step s e = some s') :
    s.received <+: s'.received ∧ s'.routed = s.routed ++ found s'.received := by
  obtain ⟨hopen, recvs, rfl⟩ := hproc
  cases stepped_of_step hstep with
  | closed _ hclosed => exact absurd (hopen.symm.trans hclosed) (by simp)
  | @read _ s₁ _ hrecvs =>
    have h₁ : Executed route state s₁ := foldlM_invariant (kept_executed route state).recv h hrecvs
    obtain ⟨hpre, hrouted⟩ := recvs_extend hrecvs
    have hreceived := (processRequest_fields route s₁).2
    refine ⟨?_, ?_⟩
    · show s.received <+: (processRequest route s₁).received
      rw [hreceived]
      exact hpre
    · show (processRequest route s₁).routed = s.routed ++ found (processRequest route s₁).received
      rw [(processRequest_executes route h₁.holds).1, hrouted, hreceived]

/-- INTERNAL: the other events execute nothing, and where they leave the connection open
nothing has arrived. -/
theorem step_other {s s' : Session HttpRequest σ} {e : Event} (hproc : ¬ Processes s e)
    (hstep : (httpServer route).step s e = some s') :
    s'.routed = s.routed ∧
      (s'.isOpen = true → s'.received = s.received ∧ s.isOpen = true) := by
  cases stepped_of_step hstep with
  | closed => exact ⟨rfl, fun hopen => ⟨rfl, hopen⟩⟩
  | read hopen => exact absurd ⟨hopen, _, rfl⟩ hproc
  | readFailed _ hrecvs => exact ⟨(recvs_extend hrecvs).2, fun hopen => absurd hopen not_isOpen_close⟩
  | written hopen _ hsends =>
    obtain ⟨hreceived, hrouted⟩ := sends_keep hsends
    exact ⟨hrouted, fun _ => ⟨hreceived, hopen⟩⟩
  | drained _ _ hsends => exact ⟨(sends_keep hsends).2, fun hopen => absurd hopen not_isOpen_close⟩
  | writeFailed _ _ hsends =>
    exact ⟨(sends_keep hsends).2, fun hopen => absurd hopen not_isOpen_close⟩
  | hungUp => exact ⟨rfl, fun hopen => absurd hopen not_isOpen_close⟩

/-! ## What a run executes -/

/-- What an open connection has received completely, it has executed. -/
def Attended (s : Session HttpRequest σ) : Prop :=
  s.isOpen = true → ∀ r, parseRequest s.received = .complete r → r ∈ s.routed

theorem Attended.step {s s' : Session HttpRequest σ} {e : Event} (h : Executed route state s)
    (hatt : Attended s) (hstep : (httpServer route).step s e = some s') : Attended s' := by
  intro hopen r hr
  by_cases hproc : Processes s e
  · rw [(step_processes h hproc hstep).2]
    exact List.mem_append_right _ (mem_found.mpr hr)
  · obtain ⟨hrouted, hkeep⟩ := step_other hproc hstep
    obtain ⟨hreceived, hopen₀⟩ := hkeep hopen
    rw [hrouted]
    rw [hreceived] at hr
    exact hatt hopen₀ r hr

/-- INTERNAL: one more event keeps a request from being executed twice unless it repeats it. -/
theorem length_routed_step {s s' : Session HttpRequest σ} {e : Event}
    (h : Executed route state s) (hatt : Attended s)
    (hstep : (httpServer route).step s e = some s') :
    s'.routed.length ≤ 1 ↔ s.routed.length ≤ 1 ∧ ¬ Repeats s e := by
  by_cases hproc : Processes s e
  · obtain ⟨hpre, hrouted⟩ := step_processes h hproc hstep
    rw [hrouted, List.length_append]
    by_cases hdone : ∃ req, parseRequest s.received = .complete req
    · -- the request is in the list and is found once more
      obtain ⟨req, hreq⟩ := hdone
      have hold := List.length_pos_of_mem (hatt hproc.1 req hreq)
      obtain ⟨more, hmore⟩ := hpre
      have hagain : req ∈ found s'.received := by
        rw [mem_found, ← hmore, parseRequest_append (by rw [hreq]; simp), hreq]
      have hnew := List.length_pos_of_mem hagain
      constructor
      · intro hle
        omega
      · rintro ⟨-, hnot⟩
        exact absurd ⟨hproc, req, hreq⟩ hnot
    · have hnone : s.routed = [] := by
        rw [List.eq_nil_iff_forall_not_mem]
        intro r hr
        exact hdone ⟨r, h.routed_eq r hr⟩
      have hle := length_found_le s'.received
      rw [hnone, List.length_nil]
      constructor
      · intro _
        exact ⟨Nat.zero_le 1, fun hrep => hdone hrep.2⟩
      · intro _
        omega
  · rw [(step_other hproc hstep).1]
    constructor
    · intro hle
      exact ⟨hle, fun hrep => hproc hrep.1⟩
    · exact And.left

theorem neverRepeats_append_singleton {srv : Server HttpRequest σ} {s₀ s : Session HttpRequest σ}
    {es : List Event} {e : Event} (hrun : srv.run s₀ es = some s) :
    NeverRepeats srv s₀ (es ++ [e]) ↔ NeverRepeats srv s₀ es ∧ ¬ Repeats s e := by
  constructor
  · intro h
    refine ⟨?_, h es e [] s rfl hrun⟩
    rintro pre e' post s₁ rfl hpre
    exact h pre e' (post ++ [e]) s₁ (by simp) hpre
  · rintro ⟨hinit, hlast⟩ pre e' post s₁ heq hpre
    cases List.eq_nil_or_concat post with
    | inl hnil =>
      subst hnil
      obtain ⟨rfl, hsame⟩ := List.append_inj' heq rfl
      obtain rfl : e = e' := List.singleton_inj.mp hsame
      obtain rfl := Option.some.inj (hrun.symm.trans hpre)
      exact hlast
    | inr hconcat =>
      obtain ⟨post', e'', rfl⟩ := hconcat
      rw [List.concat_eq_append, ← List.cons_append, ← List.append_assoc] at heq
      exact hinit pre e' post' s₁ (List.append_inj' heq rfl).1 hpre

/-- INTERNAL: along every run, by induction on its events from the last one. -/
theorem length_routed_run (route : HttpRequest → σ → HttpResponse × σ) (state : σ)
    (es : List Event) (s : Session HttpRequest σ)
    (hrun : (httpServer route).run { state := state } es = some s) :
    Attended s ∧ (s.routed.length ≤ 1 ↔ NeverRepeats (httpServer route) { state := state } es) := by
  induction es using List.reverseRecOn generalizing s with
  | nil =>
    obtain rfl : { state := state } = s := by simpa [Server.run] using hrun
    refine ⟨?_, ?_⟩
    · intro _ r hr
      have hempty : parseRequest [] = .incomplete := rfl
      rw [hempty] at hr
      exact absurd hr (by simp)
    · simp [NeverRepeats]
  | append_singleton es e ih =>
    obtain ⟨s₁, hinit, hstep⟩ := foldlM_concat_eq_some_iff.mp hrun
    obtain ⟨hatt, hiff⟩ := ih s₁ hinit
    have h₁ : Executed route state s₁ :=
      (kept_executed route state).run (executed_new route state) hinit
    refine ⟨hatt.step h₁ hstep, ?_⟩
    rw [length_routed_step h₁ hatt hstep, neverRepeats_append_singleton hinit, hiff]

/-- PROPERTY: after any events on an HTTP connection, whatever the pieces in which the bytes
arrived, only the request at the start of what arrived was executed, and it was executed at
most once if and only if no event had the buffer processed again after the request was
complete. Then an open connection has executed a complete request exactly once.
SOURCE: http/http_server.cpp:292-315, 380-449 -/
theorem executed_once_iff_never_repeats (route : HttpRequest → σ → HttpResponse × σ) (state : σ)
    (es : List Event) (s : Session HttpRequest σ)
    (hrun : (httpServer route).run { state := state } es = some s) :
    (∀ r ∈ s.routed, parseRequest s.received = .complete r) ∧
      s.state = s.routed.foldl (fun st r => (route r st).2) state ∧
      (s.routed.length ≤ 1 ↔ NeverRepeats (httpServer route) { state := state } es) ∧
      (NeverRepeats (httpServer route) { state := state } es → s.isOpen = true →
        ∀ r, parseRequest s.received = .complete r →
          s.routed = [r] ∧ s.state = (route r state).2) := by
  have h : Executed route state s :=
    (kept_executed route state).run (executed_new route state) hrun
  obtain ⟨hatt, hiff⟩ := length_routed_run route state es s hrun
  refine ⟨h.routed_eq, h.state_eq, hiff, ?_⟩
  intro hnever hopen r hr
  have hmem := hatt hopen r hr
  have hone : s.routed = [r] := by
    obtain ⟨r', hr'⟩ := List.length_eq_one_iff.mp
      (le_antisymm (hiff.mpr hnever) (List.length_pos_of_mem hmem))
    rw [hr'] at hmem
    rw [hr', List.mem_singleton.mp hmem]
  refine ⟨hone, ?_⟩
  rw [h.state_eq, hone]
  rfl

/-! ## A message that is posted twice -/

/-- The router with the producer as its only handler that does something. -/
def postRoute : HttpRequest → Option Broker → HttpResponse × Option Broker :=
  HttpServer.routeRequest
    { getBroker := fun _ s => ({}, s)
      getTopics := fun _ s => ({}, s)
      getTopic := fun _ _ s => ({}, s)
      deleteTopic := fun _ _ s => ({}, s)
      getMessages := fun _ _ s => ({}, s)
      postMessages := Broker.handlePostMessages 0
      getGroups := fun _ s => ({}, s)
      getGroup := fun _ _ s => ({}, s) }

/-- A post of the one message `v` to the topic `t`. -/
def postBytes : Bytes :=
  ascii "POST /v1/topics/t/messages HTTP/1.1" ++ crlf ++ ascii "Content-Length: 28" ++ crlf ++
    ascii "Host: h" ++ crlf ++ crlf ++
    ascii "\x7b\"messages\":[\x7b\"value\":\"v\"\x7d]\x7d"

/-- The number of requests executed and the end of the topic's log. -/
def postedSoFar (s : Session HttpRequest (Option Broker)) : ℕ × Option ℤ :=
  (s.routed.length,
    s.state.bind fun b => (b.shardedLogs.find ⟨ascii "t", 0⟩).map PartitionLog.nextOffset)

theorem post_in_one_piece_appended_once :
    ((httpServer postRoute).run { state := some {} }
      [.readable [postBytes] .wouldBlock]).map postedSoFar = some (1, some 1) := by
  decide +kernel

theorem executed_once_iff_never_repeats_post :
    ∃ s, (httpServer postRoute).run { state := some {} } [.readable [postBytes] .wouldBlock] =
        some s ∧ s.routed.length = 1 ∧
      NeverRepeats (httpServer postRoute) { state := some {} }
        [.readable [postBytes] .wouldBlock] := by
  obtain ⟨s, hrun, hs⟩ := Option.map_eq_some_iff.mp post_in_one_piece_appended_once
  have hlen : s.routed.length = 1 := congrArg Prod.fst hs
  have hiff := (executed_once_iff_never_repeats postRoute _ _ s hrun).2.2.1
  exact ⟨s, hrun, hlen, hiff.mp hlen.le⟩

/-- One more byte after the request, in a chunk of its own: the message is appended again. -/
theorem post_followed_by_byte_appended_twice :
    ((httpServer postRoute).run { state := some {} }
      [.readable [postBytes] .wouldBlock, .readable [[0x0a]] .wouldBlock]).map postedSoFar =
        some (2, some 2) := by
  decide +kernel

end StrikeMQ.Analysis.HttpExecution
