import StrikeMQ.Lib.Runs
import StrikeMQ.Interface.Messages
import StrikeMQ.Analysis.ByteQueue

/-!
# What holds along every run of a session

Every event is made of a few operations: bytes come in, bytes go out, the server processes its
read buffer, it reacts to everything having been sent, the connection is closed. What all of
them keep holds after every run, whatever the order of the events. Where no call on the socket
fails, nothing is closed from outside, and what holds between events may be weaker inside one.
-/

set_option autoImplicit false

namespace StrikeMQ.Analysis.SessionRuns

open StrikeMQ.Lib StrikeMQ.Model StrikeMQ.Interface StrikeMQ.Analysis.ByteQueue

variable {ρ σ : Type}

theorem nextPowerOf2_connection : FixedCircularBuffer.nextPowerOf2 131072 = 2 ^ 17 := by
  decide

section QueueWrite

variable (s : Session ρ σ) (resp : Bytes)

@[simp]
theorem readBuf_queueWrite : (s.queueWrite resp).conn.readBuf = s.conn.readBuf :=
  rfl

@[simp]
theorem received_queueWrite : (s.queueWrite resp).received = s.received :=
  rfl

@[simp]
theorem routed_queueWrite : (s.queueWrite resp).routed = s.routed :=
  rfl

@[simp]
theorem state_queueWrite : (s.queueWrite resp).state = s.state :=
  rfl

end QueueWrite

theorem recv_eq_some_iff {s s' : Session ρ σ} {bs : Bytes} :
    s.recv bs = some s' ↔
      ∃ b, s.conn.readBuf.fill bs = some b ∧
        s' = { s with conn := { s.conn with readBuf := b }, received := s.received ++ bs } := by
  unfold Session.recv
  cases h : s.conn.readBuf.fill bs with
  | none => simp
  | some b => simp [eq_comm]

theorem send_eq_some_iff {s s' : Session ρ σ} {n : ℕ} :
    s.send n = some s' ↔
      ∃ bs b, s.conn.writeBuf.drain n = some (bs, b) ∧
        s' = { s with conn := { s.conn with writeBuf := b }, sent := s.sent ++ bs } := by
  unfold Session.send
  cases h : s.conn.writeBuf.drain n with
  | none => simp
  | some p =>
    obtain ⟨bs, b⟩ := p
    constructor
    · intro hs
      exact ⟨bs, b, rfl, (Option.some.inj hs).symm⟩
    · rintro ⟨bs', b', hp, rfl⟩
      obtain ⟨rfl, rfl⟩ := Prod.mk.inj (Option.some.inj hp)
      rfl

theorem run_receive (srv : Server ρ σ) {s₀ s s₁ : Session ρ σ} {es : List Event} {bs : Bytes}
    (hrun : srv.run s₀ es = some s) (hopen : s.isOpen = true) (hrecv : s.recv bs = some s₁) :
    srv.run s₀ (es ++ [.readable [bs] .wouldBlock]) = some (srv.process s₁) := by
  refine foldlM_concat_eq_some_iff.mpr ⟨s, hrun, ?_⟩
  simp [Server.step, Server.handleRead, hopen, hrecv]

/-- INTERNAL: what a new connection receives first, up to the size of its buffer. -/
theorem recv_new (ρ : Type) (state : σ) (bs : Bytes) (hpos : 0 < bs.length)
    (hle : bs.length ≤ 131072) :
    ∃ s₁, ({ state := state } : Session ρ σ).recv bs = some s₁ ∧ s₁.received = bs := by
  have hoffered : (FixedCircularBuffer.new 131072).writeHead = (0, 131072) := by decide
  have hfill : ((FixedCircularBuffer.new 131072).fill bs).isSome := by
    simp only [FixedCircularBuffer.fill, hoffered]
    rw [if_pos ⟨hpos, hle⟩]
    rfl
  obtain ⟨b, hb⟩ := Option.isSome_iff_exists.mp hfill
  exact ⟨_, recv_eq_some_iff.mpr ⟨b, hb, rfl⟩, List.nil_append bs⟩

/-! ## What an event does -/

/-- The outcomes of an event: what happens on a closed connection, and on an open one for each
way in which the reading or the writing can end. -/
inductive Stepped (srv : Server ρ σ) (s : Session ρ σ) : Event → Session ρ σ → Prop
  | closed (e : Event) : s.isOpen = false → Stepped srv s e s
  | read {recvs : List Bytes} {s₁ : Session ρ σ} : s.isOpen = true →
      recvs.foldlM Session.recv s = some s₁ →
      Stepped srv s (.readable recvs .wouldBlock) (srv.process s₁)
  | readFailed {recvs : List Bytes} {s₁ : Session ρ σ} : s.isOpen = true →
      recvs.foldlM Session.recv s = some s₁ → Stepped srv s (.readable recvs .failed) s₁.close
  | written {sends : List ℕ} {s₁ : Session ρ σ} : s.isOpen = true → s.writeEnabled = true →
      sends.foldlM Session.send s = some s₁ → Stepped srv s (.writable sends .wouldBlock) s₁
  | drained {sends : List ℕ} {s₁ : Session ρ σ} : s.isOpen = true → s.writeEnabled = true →
      sends.foldlM Session.send s = some s₁ →
      Stepped srv s (.writable sends .wouldBlock) (srv.drained s₁)
  | writeFailed {sends : List ℕ} {s₁ : Session ρ σ} : s.isOpen = true → s.writeEnabled = true →
      sends.foldlM Session.send s = some s₁ → Stepped srv s (.writable sends .failed) s₁.close
  | hungUp : s.isOpen = true → Stepped srv s .hangup s.close

theorem stepped_handleRead {srv : Server ρ σ} {s s' : Session ρ σ} {recvs : List Bytes}
    {ending : IoEnd} (hopen : s.isOpen = true) (h : srv.handleRead s recvs ending = some s') :
    Stepped srv s (.readable recvs ending) s' := by
  obtain ⟨s₁, hrecvs, hrest⟩ := Option.bind_eq_some_iff.mp h
  cases ending with
  | wouldBlock =>
    obtain rfl := Option.some.inj hrest
    exact .read hopen hrecvs
  | failed =>
    simp only at hrest
    split at hrest
    · obtain rfl := Option.some.inj hrest
      exact .readFailed hopen hrecvs
    · exact absurd hrest (by simp)

theorem stepped_handleWrite {srv : Server ρ σ} {s s' : Session ρ σ} {sends : List ℕ}
    {ending : IoEnd} (hopen : s.isOpen = true) (henabled : s.writeEnabled = true)
    (h : srv.handleWrite s sends ending = some s') :
    Stepped srv s (.writable sends ending) s' := by
  obtain ⟨s₁, hsends, hrest⟩ := Option.bind_eq_some_iff.mp h
  cases ending with
  | wouldBlock =>
    simp only at hrest
    obtain rfl := Option.some.inj hrest
    split
    · exact .drained hopen henabled hsends
    · exact .written hopen henabled hsends
  | failed =>
    simp only at hrest
    split at hrest
    · exact absurd hrest (by simp)
    · obtain rfl := Option.some.inj hrest
      exact .writeFailed hopen henabled hsends

/-- INTERNAL: **an event has no other outcomes.** -/
theorem stepped_of_step {srv : Server ρ σ} {s s' : Session ρ σ} {e : Event}
    (h : srv.step s e = some s') : Stepped srv s e s' := by
  unfold Server.step at h
  split at h
  · rename_i hopen
    cases e with
    | readable recvs ending => exact stepped_handleRead hopen h
    | writable sends ending =>
      simp only at h
      split at h
      · rename_i henabled
        exact stepped_handleWrite hopen henabled h
      · exact absurd h (by simp)
    | hangup =>
      obtain rfl := Option.some.inj h
      exact .hungUp hopen
  · rename_i hclosed
    obtain rfl := Option.some.inj h
    exact .closed e (Bool.eq_false_iff.mpr hclosed)

/-! ## What runs keep -/

/-- What the operations on a session have to keep for every run to keep it. -/
structure Kept (srv : Server ρ σ) (P : Session ρ σ → Prop) : Prop where
  recv : ∀ s bs s', P s → s.recv bs = some s' → P s'
  send : ∀ s n s', P s → s.send n = some s' → P s'
  process : ∀ s, P s → P (srv.process s)
  drained : ∀ s, P s → P (srv.drained s)
  close : ∀ s, P s → P s.close

theorem Kept.step {srv : Server ρ σ} {P : Session ρ σ → Prop} (h : Kept srv P)
    {s s' : Session ρ σ} {e : Event} (hs : P s) (hstep : srv.step s e = some s') : P s' := by
  cases stepped_of_step hstep with
  | closed => exact hs
  | read _ hrecvs => exact h.process _ (foldlM_invariant h.recv hs hrecvs)
  | readFailed _ hrecvs => exact h.close _ (foldlM_invariant h.recv hs hrecvs)
  | written _ _ hsends => exact foldlM_invariant h.send hs hsends
  | drained _ _ hsends => exact h.drained _ (foldlM_invariant h.send hs hsends)
  | writeFailed _ _ hsends => exact h.close _ (foldlM_invariant h.send hs hsends)
  | hungUp => exact h.close _ hs

/-- INTERNAL: **what the operations keep holds after every run.** -/
theorem Kept.run {srv : Server ρ σ} {P : Session ρ σ → Prop} (h : Kept srv P)
    {s s' : Session ρ σ} {es : List Event} (hs : P s) (hrun : srv.run s es = some s') : P s' :=
  foldlM_invariant (fun _ _ _ => h.step) hs hrun

/-- What the operations on a session have to keep for every live run to keep `P`: inside the
reading of bytes it may be no more than `Q`. -/
structure KeptLive (srv : Server ρ σ) (P Q : Session ρ σ → Prop) : Prop where
  enter : ∀ s, P s → Q s
  recv : ∀ s bs s', Q s → s.recv bs = some s' → Q s'
  process : ∀ s, Q s → P (srv.process s)
  send : ∀ s n s', P s → s.writeEnabled = true → s.send n = some s' → P s'
  drained : ∀ s, P s → s.writeEnabled = true → P (srv.drained s)

namespace KeptLive

variable {srv : Server ρ σ} {P Q : Session ρ σ → Prop}

theorem sends (h : KeptLive srv P Q) {s s' : Session ρ σ} {sends : List ℕ} (hs : P s)
    (henabled : s.writeEnabled = true) (hsends : sends.foldlM Session.send s = some s') :
    P s' ∧ s'.writeEnabled = true := by
  refine foldlM_invariant (P := fun t : Session ρ σ => P t ∧ t.writeEnabled = true) ?_
    ⟨hs, henabled⟩ hsends
  rintro t n t' ⟨ht, hen⟩ hsent
  refine ⟨h.send t n t' ht hen hsent, ?_⟩
  obtain ⟨bs, b, -, rfl⟩ := send_eq_some_iff.mp hsent
  exact hen

theorem step (h : KeptLive srv P Q) {s s' : Session ρ σ} {e : Event} (hlive : Live e) (hs : P s)
    (hstep : srv.step s e = some s') : P s' := by
  cases stepped_of_step hstep with
  | closed => exact hs
  | read _ hrecvs => exact h.process _ (foldlM_invariant h.recv (h.enter s hs) hrecvs)
  | readFailed => exact absurd hlive (by simp [Live])
  | written _ henabled hsends => exact (h.sends hs henabled hsends).1
  | drained _ henabled hsends =>
    obtain ⟨hs₁, hen₁⟩ := h.sends hs henabled hsends
    exact h.drained _ hs₁ hen₁
  | writeFailed => exact absurd hlive (by simp [Live])
  | hungUp => exact hlive.elim

/-- INTERNAL: **what the operations keep holds after every live run.** -/
theorem run (h : KeptLive srv P Q) {s s' : Session ρ σ} {es : List Event}
    (hlive : ∀ e ∈ es, Live e) (hs : P s) (hrun : srv.run s es = some s') : P s' := by
  induction es generalizing s with
  | nil =>
    obtain rfl : s = s' := by simpa [Server.run] using hrun
    exact hs
  | cons e es ih =>
    obtain ⟨s₁, hstep, hrest⟩ := Option.bind_eq_some_iff.mp hrun
    exact ih (fun e' he' => hlive e' (List.mem_cons_of_mem e he'))
      (h.step (hlive e List.mem_cons_self) hs hstep) hrest

end KeptLive

end StrikeMQ.Analysis.SessionRuns
