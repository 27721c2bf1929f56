import StrikeMQ.Interface.TcpProcess
import StrikeMQ.Analysis.ConnectionHandoff
import StrikeMQ.Analysis.UringStreams

/-!
# Descriptors and their connections

No descriptor is ever in two places, although a number comes back as soon as it has been closed
and the connection that had it is erased only after that. This is what keeps connections apart. A
descriptor from the ring is registered by the thread that erases, so it never meets the connection
that had the same number before; and a report that is still to be handled is about the connection
that it was made for, because a batch has one report of it and nothing else closes it.
-/

set_option autoImplicit false

namespace StrikeMQ.Analysis.DescriptorOwnership

open StrikeMQ.Lib StrikeMQ.Model StrikeMQ.Interface StrikeMQ.Analysis.ConnectionHandoff

/-! ## What a worker keeps -/

/-- INTERNAL: what each worker keeps for itself. -/
structure Sound (w : Worker) : Prop where
  ring : ∃ q, HoldsItems w.thread.newFds q
  watched : w.epoll.Perm (liveFds w)
  once : (clientFds (pendingReports w)).Nodup
  reported : ∀ fd ∈ clientFds (pendingReports w), fd ∈ liveFds w
  replayed : ∀ fd s, w.connections.lookup fd = some s → replay (w.history fd) = some s

theorem waitingFds_eq {w : Worker} {q : List ℤ} (h : HoldsItems w.thread.newFds q) :
    waitingFds w = q := by
  have hlen : q.length ≤ 1024 := h.ring.length_le
  rw [waitingFds, (h.tryPopBatch 1024).1, List.take_of_length_le hlen]

theorem liveFds_of_closing_none {w : Worker} (h : closing w = none) :
    liveFds w = w.connections.keys := by
  simp [liveFds, h]

theorem mem_liveFds {w : Worker} {fd : ℤ} :
    fd ∈ liveFds w ↔ fd ∈ w.connections ∧ closing w ≠ some fd := by
  simp [liveFds, AList.mem_keys]

theorem mem_clientFds {batch : List Report} {fd : ℤ} :
    fd ∈ clientFds batch ↔ ∃ readiness, Report.client fd readiness ∈ batch := by
  simp only [clientFds, List.mem_filterMap]
  constructor
  · rintro ⟨r, hr, hfd⟩
    cases r with
    | wakeup => cases hfd
    | client fd' readiness =>
      obtain rfl := Option.some.inj hfd
      exact ⟨readiness, hr⟩
  · rintro ⟨readiness, hr⟩
    exact ⟨_, hr, rfl⟩

@[simp]
theorem clientFds_wakeup (batch : List Report) :
    clientFds (.wakeup :: batch) = clientFds batch :=
  rfl

@[simp]
theorem clientFds_client (fd : ℤ) (readiness : Readiness) (batch : List Report) :
    clientFds (.client fd readiness :: batch) = fd :: clientFds batch :=
  rfl

theorem mem_epoll_of_reports {w : Worker} {fd : ℤ} {readiness : Readiness}
    (h : w.reports (.client fd readiness) = true) : fd ∈ w.epoll := by
  cases readiness with
  | readable => exact of_decide_eq_true h
  | writable => exact of_decide_eq_true (Bool.and_elim_left h)
  | hangup => exact of_decide_eq_true h

/-! ## The steps of a worker -/

section Steps

variable {w w' : Worker}

/-- INTERNAL: a worker that goes on with the same connections and the same reports. -/
theorem Sound.same (h : Sound w) (hring : ∃ q, HoldsItems w'.thread.newFds q)
    (hepoll : w'.epoll = w.epoll) (hlive : liveFds w' = liveFds w)
    (hclients : clientFds (pendingReports w') = clientFds (pendingReports w))
    (hreplayed : ∀ fd s, w'.connections.lookup fd = some s → replay (w'.history fd) = some s) :
    Sound w' where
  ring := hring
  watched := by
    rw [hepoll, hlive]
    exact h.watched
  once := by
    rw [hclients]
    exact h.once
  reported := by
    rw [hclients, hlive]
    exact h.reported
  replayed := hreplayed

theorem sound_poll (h : Sound w) {batch : List Report} (hpoll : w.poll batch = some w') :
    Sound w' ∧ heldFds w' = heldFds w := by
  unfold Worker.poll at hpoll
  split at hpoll
  · rename_i hposition
    split at hpoll
    · rename_i hbatch
      obtain ⟨-, -, hnodup, hreports⟩ := hbatch
      obtain rfl := Option.some.inj hpoll
      have hlive : liveFds { w with position := .handling batch } = liveFds w := by
        simp [liveFds, closing, hposition]
      refine ⟨⟨h.ring, ?_, hnodup, ?_, h.replayed⟩, ?_⟩
      · rw [hlive]
        exact h.watched
      · intro fd hfd
        obtain ⟨readiness, hmem⟩ := mem_clientFds.mp hfd
        rw [hlive]
        exact h.watched.mem_iff.mp (mem_epoll_of_reports (hreports _ hmem))
      · rw [heldFds, hlive]
        rfl
    · cases hpoll
  · cases hpoll

theorem sound_drain (h : Sound w) (hdrain : w.drain = some w') :
    Sound w' ∧ heldFds w' = heldFds w := by
  unfold Worker.drain at hdrain
  split at hdrain
  · rename_i batch hposition
    obtain rfl := Option.some.inj hdrain
    have hlive : liveFds { w with thread := w.thread.drainPipe, position := .draining batch } =
        liveFds w := by
      simp [liveFds, closing, hposition]
    refine ⟨h.same h.ring rfl hlive ?_ h.replayed, ?_⟩
    · simp [pendingReports, hposition]
    · rw [heldFds, hlive]
      rfl
  · cases hdrain

/-- INTERNAL: **a descriptor that has no connection gets a new one**. -/
theorem sound_registerFd (h : Sound w) (hclosing : closing w = none) {fd : ℤ}
    (hnew : fd ∉ w.connections) :
    Sound (w.registerFd fd) ∧ (liveFds (w.registerFd fd)).Perm (liveFds w ++ [fd]) := by
  have hkeys : (w.registerFd fd).connections = w.connections.insert fd { state := [] } :=
    if_neg hnew
  have hlive : (liveFds (w.registerFd fd)).Perm (liveFds w ++ [fd]) := by
    rw [liveFds_of_closing_none (w := w.registerFd fd) hclosing, liveFds_of_closing_none hclosing,
      hkeys, AList.keys_insert, List.erase_of_not_mem (mt AList.mem_keys.mp hnew)]
    exact (List.perm_append_singleton fd w.connections.keys).symm
  refine ⟨⟨h.ring, ?_, h.once, ?_, ?_⟩, hlive⟩
  · exact (h.watched.append_right [fd]).trans hlive.symm
  · intro fd' hfd'
    exact hlive.symm.subset (List.mem_append_left [fd] (h.reported fd' hfd'))
  · intro fd' s hs
    rw [hkeys] at hs
    by_cases heq : fd' = fd
    · subst heq
      rw [AList.lookup_insert] at hs
      obtain rfl := Option.some.inj hs
      show replay (Function.update w.history fd' [] fd') = _
      rw [Function.update_self]
      rfl
    · rw [AList.lookup_insert_ne heq] at hs
      show replay (Function.update w.history fd [] fd') = _
      rw [Function.update_of_ne heq]
      exact h.replayed fd' s hs

theorem sound_registerFds (h : Sound w) (hclosing : closing w = none) {fds : List ℤ}
    (hnew : (liveFds w ++ fds).Nodup) :
    Sound (fds.foldl Worker.registerFd w) ∧
      (liveFds (fds.foldl Worker.registerFd w)).Perm (liveFds w ++ fds) ∧
      (fds.foldl Worker.registerFd w).thread = w.thread := by
  induction fds generalizing w with
  | nil => exact ⟨h, by rw [List.append_nil]; exact List.Perm.refl _, rfl⟩
  | cons fd fds ih =>
    have hfd : fd ∉ w.connections := by
      rw [liveFds_of_closing_none hclosing] at hnew
      intro hmem
      exact (List.nodup_append.mp hnew).2.2 fd (AList.mem_keys.mpr hmem) fd List.mem_cons_self rfl
    obtain ⟨hsound, hlive⟩ := sound_registerFd h hclosing hfd
    have hall : (liveFds (w.registerFd fd) ++ fds).Perm (liveFds w ++ fd :: fds) := by
      have := hlive.append_right fds
      rwa [List.append_assoc] at this
    obtain ⟨hdone, hperm, hthread⟩ :=
      ih hsound (w := w.registerFd fd) hclosing (hall.nodup_iff.mpr hnew)
    exact ⟨hdone, hperm.trans hall, hthread⟩

/-- INTERNAL: **what leaves the ring becomes a connection.** -/
theorem sound_register (h : Sound w) (hnodup : (heldFds w).Nodup)
    (hregister : w.register = some w') : Sound w' ∧ (heldFds w').Perm (heldFds w) := by
  unfold Worker.register at hregister
  split at hregister
  · rename_i batch hposition
    obtain rfl := Option.some.inj hregister
    obtain ⟨q, hq⟩ := h.ring
    obtain ⟨hfront, hrest⟩ := hq.tryPopBatch 64
    rw [hfront]
    generalize hw₀ : ({ w with
      thread := w.thread.registerFds, position := .handling batch } : Worker) = w₀
    have hring : HoldsItems w₀.thread.newFds (q.drop 64) := by
      subst hw₀
      exact hrest
    have hlive : liveFds w₀ = liveFds w := by
      subst hw₀
      simp [liveFds, closing, hposition]
    have hclosing : closing w₀ = none := by
      subst hw₀
      rfl
    have hsound : Sound w₀ := by
      subst hw₀
      exact h.same ⟨_, hring⟩ rfl hlive (by simp [pendingReports, hposition]) h.replayed
    have hheld : heldFds w = q ++ liveFds w := by
      rw [heldFds, waitingFds_eq hq]
    have hsplit : (liveFds w ++ q.take 64 ++ q.drop 64).Perm (q ++ liveFds w) := by
      rw [List.append_assoc, List.take_append_drop]
      exact List.perm_append_comm
    have hnew : (liveFds w₀ ++ q.take 64).Nodup := by
      rw [hlive]
      rw [hheld] at hnodup
      exact (List.nodup_append.mp (hsplit.nodup_iff.mpr hnodup)).1
    obtain ⟨hdone, hperm, hthread⟩ := sound_registerFds hsound hclosing hnew
    refine ⟨hdone, ?_⟩
    rw [hheld, heldFds]
    have hwaiting : waitingFds ((q.take 64).foldl Worker.registerFd w₀) = q.drop 64 :=
      waitingFds_eq (by rw [hthread]; exact hring)
    rw [hwaiting]
    rw [hlive] at hperm
    exact (hperm.append_left _).trans (List.perm_append_comm.trans hsplit)
  · cases hregister

/-- INTERNAL: the outcome of a client's report, where the connection is there. -/
theorem handle_cases (h : Sound w) {e : Event} {answers : RouterAnswers} {closed : Option ℤ}
    (hhandle : w.handle e answers = some (w', closed)) :
    ∃ fd batch s s', w.position = .handling (.client fd e.readiness :: batch) ∧
      w.connections.lookup fd = some s ∧ replayStep s (e, answers) = some s' ∧
      ((s'.isOpen = true ∧ closed = none ∧
          w' = { w with
            connections := w.connections.insert fd s'
            history := Function.update w.history fd (w.history fd ++ [(e, answers)])
            position := .handling batch }) ∨
        (s'.isOpen = false ∧ closed = some fd ∧
          w' = { w with
            connections := w.connections.insert fd s'
            history := Function.update w.history fd (w.history fd ++ [(e, answers)])
            epoll := w.epoll.erase fd
            position := .erasing fd batch })) := by
  unfold Worker.handle at hhandle
  split at hhandle
  · rename_i fd readiness batch hposition
    split at hhandle
    · rename_i hready
      have hmem : fd ∈ w.connections := by
        have hreported := h.reported fd (by simp [pendingReports, hposition])
        exact (mem_liveFds.mp hreported).1
      obtain ⟨s, hs⟩ := Option.isSome_iff_exists.mp (AList.lookup_isSome.mpr hmem)
      rw [hs] at hhandle
      obtain ⟨s', hstep, hrest⟩ := Option.bind_eq_some_iff.mp hhandle
      refine ⟨fd, batch, s, s', by rw [hready]; exact hposition, hs, hstep, ?_⟩
      dsimp only at hrest
      cases hopen : s'.isOpen with
      | true =>
        rw [hopen, if_pos rfl] at hrest
        obtain ⟨rfl, rfl⟩ := Prod.mk.inj (Option.some.inj hrest)
        exact Or.inl ⟨rfl, rfl, rfl⟩
      | false =>
        rw [hopen, if_neg Bool.false_ne_true] at hrest
        obtain ⟨rfl, rfl⟩ := Prod.mk.inj (Option.some.inj hrest)
        exact Or.inr ⟨rfl, rfl, rfl⟩
    · cases hhandle
  · cases hhandle

/-- INTERNAL: a handled event is one more in the history of its descriptor. -/
theorem replayed_insert (h : Sound w) {fd : ℤ} {s s' : Session Bytes RouterAnswers}
    {x : Event × RouterAnswers} (hs : w.connections.lookup fd = some s)
    (hstep : replayStep s x = some s') (fd' : ℤ) (t : Session Bytes RouterAnswers)
    (ht : (w.connections.insert fd s').lookup fd' = some t) :
    replay (Function.update w.history fd (w.history fd ++ [x]) fd') = some t := by
  by_cases heq : fd' = fd
  · subst heq
    rw [AList.lookup_insert] at ht
    obtain rfl := Option.some.inj ht
    rw [Function.update_self]
    exact foldlM_concat_eq_some_iff.mpr ⟨s, h.replayed fd' s hs, hstep⟩
  · rw [AList.lookup_insert_ne heq] at ht
    rw [Function.update_of_ne heq]
    exact h.replayed fd' t ht

/-- INTERNAL: **a report is handled on its own connection**, which is given up if this closes it. -/
theorem sound_handle (h : Sound w) {e : Event} {answers : RouterAnswers} {closed : Option ℤ}
    (hhandle : w.handle e answers = some (w', closed)) :
    Sound w' ∧ (closed.toList ++ heldFds w').Perm (heldFds w) := by
  obtain ⟨fd, batch, s, s', hposition, hs, hstep, houtcome⟩ := handle_cases h hhandle
  have hmem : fd ∈ w.connections.keys :=
    AList.mem_keys.mpr (AList.lookup_isSome.mp (by rw [hs]; rfl))
  have hlive : liveFds w = w.connections.keys :=
    liveFds_of_closing_none (by simp [closing, hposition])
  have hkeys : (fd :: w.connections.keys.erase fd).Perm w.connections.keys :=
    (List.perm_cons_erase hmem).symm
  obtain ⟨hfirst, honce⟩ : fd ∉ clientFds batch ∧ (clientFds batch).Nodup := by
    have honce := h.once
    simp only [pendingReports, hposition, clientFds_client] at honce
    exact List.nodup_cons.mp honce
  have hreported : ∀ fd' ∈ clientFds batch, fd' ∈ w.connections.keys := by
    intro fd' hfd'
    rw [← hlive]
    refine h.reported fd' ?_
    simp only [pendingReports, hposition, clientFds_client]
    exact List.mem_cons_of_mem fd hfd'
  rcases houtcome with ⟨-, rfl, rfl⟩ | ⟨-, rfl, rfl⟩
  · -- the connection stays
    generalize hw₁ : ({ w with
      connections := w.connections.insert fd s'
      history := Function.update w.history fd (w.history fd ++ [(e, answers)])
      position := .handling batch } : Worker) = w₁
    have hlive₁ : (liveFds w₁).Perm (liveFds w) := by
      subst hw₁
      rw [hlive, liveFds_of_closing_none rfl, AList.keys_insert]
      exact hkeys
    refine ⟨⟨?_, ?_, ?_, ?_, ?_⟩, ?_⟩
    · subst hw₁
      exact h.ring
    · refine List.Perm.trans ?_ hlive₁.symm
      subst hw₁
      exact h.watched
    · subst hw₁
      exact honce
    · intro fd' hfd'
      refine hlive₁.symm.subset ?_
      rw [hlive]
      subst hw₁
      exact hreported fd' hfd'
    · subst hw₁
      exact replayed_insert h hs hstep
    · have hwaiting : waitingFds w₁ = waitingFds w := by
        subst hw₁
        rfl
      rw [Option.toList_none, List.nil_append, heldFds, heldFds, hwaiting]
      exact hlive₁.append_left _
  · -- the connection is closed
    generalize hw₁ : ({ w with
      connections := w.connections.insert fd s'
      history := Function.update w.history fd (w.history fd ++ [(e, answers)])
      epoll := w.epoll.erase fd
      position := .erasing fd batch } : Worker) = w₁
    have hlive₁ : liveFds w₁ = w.connections.keys.erase fd := by
      subst hw₁
      simp only [liveFds, closing, AList.keys_insert]
      rw [List.filter_cons_of_neg (by simp), List.filter_eq_self]
      intro fd' hfd'
      have hne : fd' ≠ fd := by
        rintro rfl
        exact w.connections.nodupKeys.not_mem_erase hfd'
      simpa using hne.symm
    refine ⟨⟨?_, ?_, ?_, ?_, ?_⟩, ?_⟩
    · subst hw₁
      exact h.ring
    · rw [hlive₁, ← hlive]
      subst hw₁
      exact h.watched.erase fd
    · subst hw₁
      exact honce
    · intro fd' hfd'
      have hpending : fd' ∈ clientFds batch := by
        subst hw₁
        exact hfd'
      have hne : fd' ≠ fd := by
        rintro rfl
        exact hfirst hpending
      rw [hlive₁]
      exact (List.mem_erase_of_ne hne).mpr (hreported fd' hpending)
    · subst hw₁
      exact replayed_insert h hs hstep
    · have hwaiting : waitingFds w₁ = waitingFds w := by
        subst hw₁
        rfl
      rw [Option.toList_some, List.singleton_append, heldFds, heldFds, hwaiting, hlive₁, hlive]
      exact List.perm_middle.symm.trans (hkeys.append_left _)

/-- INTERNAL: what is erased was given up before. -/
theorem sound_erase (h : Sound w) (herase : w.erase = some w') :
    Sound w' ∧ heldFds w' = heldFds w := by
  unfold Worker.erase at herase
  split at herase
  · rename_i fd batch hposition
    obtain rfl := Option.some.inj herase
    generalize hw₁ : ({ w with
      connections := w.connections.erase fd, position := .handling batch } : Worker) = w₁
    have hlive : liveFds w₁ = liveFds w := by
      have hnodup : w.connections.keys.Nodup := w.connections.nodupKeys
      subst hw₁
      rw [liveFds_of_closing_none rfl, AList.keys_erase, hnodup.erase_eq_filter, liveFds]
      refine List.filter_congr fun fd' _ => ?_
      by_cases heq : fd' = fd
      · simp [closing, hposition, heq]
      · simp [closing, hposition, heq, Ne.symm heq]
    have hbatch : pendingReports w₁ = pendingReports w := by
      subst hw₁
      simp [pendingReports, hposition]
    refine ⟨h.same ?_ ?_ hlive (by rw [hbatch]) ?_, ?_⟩
    · subst hw₁
      exact h.ring
    · subst hw₁
      rfl
    · intro fd' s hs
      subst hw₁
      refine h.replayed fd' s ?_
      by_cases heq : fd' = fd
      · subst heq
        rw [AList.lookup_erase] at hs
        cases hs
      · rwa [AList.lookup_erase_ne heq] at hs
    · rw [heldFds, heldFds, hlive]
      subst hw₁
      rfl
  · cases herase

/-- INTERNAL: what the acceptor does to a worker touches its ring and its pipe only. -/
theorem sound_thread (h : Sound w) (thread : WorkerThread) {q : List ℤ}
    (hq : HoldsItems thread.newFds q) :
    Sound { w with thread := thread } ∧ heldFds { w with thread := thread } = q ++ liveFds w := by
  refine ⟨⟨⟨q, hq⟩, h.watched, h.once, h.reported, h.replayed⟩, ?_⟩
  rw [heldFds, waitingFds_eq (w := { w with thread := thread }) hq]
  rfl

end Steps

/-! ## The steps of the process -/

/-- INTERNAL: every worker is sound, and the open descriptors are those held. -/
structure Owned {n : ℕ} (p : TcpProcess n) : Prop where
  sound : ∀ k, Sound (p.workers k)
  held : (handFds p ++ allHeld fun k => heldFds (p.workers k)).Perm p.openFds
  nodup : p.openFds.Nodup

section Process

variable {n : ℕ} {p p' : TcpProcess n}

theorem sound_setWorker (h : ∀ j, Sound (p.workers j)) {k : Fin n} {w : Worker} (hw : Sound w)
    (j : Fin n) : Sound ((p.setWorker k w).workers j) := by
  by_cases hj : j = k
  · subst hj
    simpa [TcpProcess.setWorker] using hw
  · simpa [TcpProcess.setWorker, hj] using h j

/-- INTERNAL: descriptors that one worker takes and gives. -/
theorem held_setWorker {k : Fin n} {w : Worker} {gained lost : List ℤ}
    (h : (lost ++ heldFds w).Perm (gained ++ heldFds (p.workers k))) :
    (lost ++ allHeld fun j => heldFds ((p.setWorker k w).workers j)).Perm
      (gained ++ allHeld fun j => heldFds (p.workers j)) := by
  have hupdate : (fun j => heldFds ((p.setWorker k w).workers j)) =
      Function.update (fun j => heldFds (p.workers j)) k (heldFds w) :=
    (Function.comp_update heldFds p.workers k w)
  rw [hupdate]
  exact allHeld_update_perm h

namespace Owned

theorem nodup_heldFds (h : Owned p) (k : Fin n) : (heldFds (p.workers k)).Nodup :=
  nodup_of_allHeld (List.nodup_append.mp (h.held.nodup_iff.mpr h.nodup)).2.1 k

/-- INTERNAL: a worker that moves descriptors only among its own places. -/
theorem setWorker (h : Owned p) {k : Fin n} {w : Worker} (hw : Sound w)
    (hheld : (heldFds w).Perm (heldFds (p.workers k))) : Owned (p.setWorker k w) where
  sound := sound_setWorker h.sound hw
  held := by
    have hnone : ([] ++ heldFds w).Perm ([] ++ heldFds (p.workers k)) := hheld
    exact ((held_setWorker hnone).append_left (handFds p)).trans h.held
  nodup := h.nodup

/-- INTERNAL: the acceptor goes on with nothing else in its hand. -/
theorem of_acceptor (h : Owned p) (hworkers : p'.workers = p.workers)
    (hopen : p'.openFds = p.openFds) (hhand : handFds p' = handFds p) : Owned p' := by
  refine ⟨?_, ?_, ?_⟩
  · rw [hworkers]
    exact h.sound
  · rw [hworkers, hopen, hhand]
    exact h.held
  · rw [hopen]
    exact h.nodup

/-- INTERNAL: a descriptor that comes is in the acceptor's hand. -/
theorem accept (h : Owned p) {fd : ℤ} (haccept : p.accept fd = some p') : Owned p' := by
  unfold TcpProcess.accept at haccept
  split at haccept
  · rename_i hacceptor
    split at haccept
    · cases haccept
    · rename_i hnew
      obtain rfl := Option.some.inj haccept
      have hheld := h.held
      rw [handFds, hacceptor, List.nil_append] at hheld
      exact ⟨h.sound, hheld.cons fd, List.nodup_cons.mpr ⟨hnew, h.nodup⟩⟩
  · cases haccept

/-- INTERNAL: a descriptor goes from the acceptor's hand to a ring, or is closed. -/
theorem assign (h : Owned p) (hassign : p.assign = some p') : Owned p' := by
  unfold TcpProcess.assign at hassign
  split at hassign
  · rename_i fd start attempt hacceptor
    have hheld := h.held
    rw [handFds, hacceptor] at hheld
    split at hassign
    · rename_i hattempt
      dsimp only at hassign
      generalize TcpProcess.workerIdx start hattempt = idx at hassign
      obtain ⟨q, hq⟩ := (h.sound idx).ring
      have hbefore : heldFds (p.workers idx) = q ++ liveFds (p.workers idx) := by
        rw [heldFds, waitingFds_eq hq]
      rcases hq.tryPush fd with ⟨-, hpushed, hholds⟩ | ⟨-, hpushed, hholds⟩
      · simp only [WorkerThread.pushFd, hpushed] at hassign
        obtain rfl := Option.some.inj hassign
        obtain ⟨hsound, hafter⟩ := sound_thread (h.sound idx) { (p.workers idx).thread with
          newFds := ((p.workers idx).thread.newFds.tryPush fd).1 } hholds
        refine ⟨sound_setWorker h.sound hsound, ?_, h.nodup⟩
        have hgained : ([] ++ (q ++ [fd] ++ liveFds (p.workers idx))).Perm
            ([fd] ++ (q ++ liveFds (p.workers idx))) := by
          rw [List.nil_append, List.append_assoc]
          exact List.perm_middle
        rw [← hafter, ← hbefore] at hgained
        exact (held_setWorker hgained).trans hheld
      · simp only [WorkerThread.pushFd, hpushed] at hassign
        obtain rfl := Option.some.inj hassign
        obtain ⟨hsound, hafter⟩ := sound_thread (h.sound idx) { (p.workers idx).thread with
          newFds := ((p.workers idx).thread.newFds.tryPush fd).1 } hholds
        refine (h.setWorker hsound (by rw [hafter, hbefore])).of_acceptor rfl rfl ?_
        simp [handFds, TcpProcess.setWorker, hacceptor]
    · obtain rfl := Option.some.inj hassign
      refine ⟨h.sound, ?_, h.nodup.erase fd⟩
      have herased := hheld.erase fd
      rwa [List.singleton_append, List.erase_cons_head] at herased
  · cases hassign

/-- SOURCE: network/tcp_server.cpp:89-91, 662-664 -/
theorem wake (h : Owned p) (hwake : p.wake = some p') : Owned p' := by
  unfold TcpProcess.wake at hwake
  split at hwake
  · rename_i idx hacceptor
    obtain rfl := Option.some.inj hwake
    obtain ⟨q, hq⟩ := (h.sound idx).ring
    obtain ⟨hsound, hafter⟩ := sound_thread (h.sound idx) (p.workers idx).thread.wake hq
    refine (h.setWorker hsound (by rw [hafter, heldFds, waitingFds_eq hq])).of_acceptor rfl rfl ?_
    simp [handFds, TcpProcess.setWorker, hacceptor]
  · cases hwake

/-- SOURCE: network/tcp_server.cpp:167-176, 294 -/
theorem handle (h : Owned p) {k : Fin n} {e : Event} {answers : RouterAnswers}
    (hhandle : p.handle k e answers = some p') : Owned p' := by
  obtain ⟨⟨w, closed⟩, hw, hrest⟩ := Option.bind_eq_some_iff.mp hhandle
  obtain ⟨hsound, hheld⟩ := sound_handle (h.sound k) hw
  dsimp only at hrest
  cases closed with
  | none =>
    obtain rfl := Option.some.inj hrest
    exact h.setWorker hsound hheld
  | some fd =>
    obtain rfl := Option.some.inj hrest
    have hlost : ([fd] ++ heldFds w).Perm ([] ++ heldFds (p.workers k)) := hheld
    have hmoved := held_setWorker hlost
    have hall : (fd :: (handFds p ++ allHeld fun j => heldFds ((p.setWorker k w).workers j))).Perm
        p.openFds :=
      List.perm_middle.symm.trans ((hmoved.append_left (handFds p)).trans h.held)
    refine ⟨sound_setWorker h.sound hsound, ?_, h.nodup.erase fd⟩
    have herased := hall.erase fd
    rwa [List.erase_cons_head] at herased

/-- INTERNAL: **the step lemma**. -/
theorem step (h : Owned p) {a : ProcessStep n} (hstep : p.step a = some p') : Owned p' := by
  cases a with
  | accept fd => exact h.accept hstep
  | assign => exact h.assign hstep
  | wake => exact h.wake hstep
  | poll k batch =>
    obtain ⟨w, hw, rfl⟩ := Option.map_eq_some_iff.mp hstep
    obtain ⟨hsound, hheld⟩ := sound_poll (h.sound k) hw
    exact h.setWorker hsound (List.Perm.of_eq hheld)
  | drain k =>
    obtain ⟨w, hw, rfl⟩ := Option.map_eq_some_iff.mp hstep
    obtain ⟨hsound, hheld⟩ := sound_drain (h.sound k) hw
    exact h.setWorker hsound (List.Perm.of_eq hheld)
  | register k =>
    obtain ⟨w, hw, rfl⟩ := Option.map_eq_some_iff.mp hstep
    obtain ⟨hsound, hheld⟩ := sound_register (h.sound k) (h.nodup_heldFds k) hw
    exact h.setWorker hsound hheld
  | handle k e answers => exact h.handle hstep
  | erase k =>
    obtain ⟨w, hw, rfl⟩ := Option.map_eq_some_iff.mp hstep
    obtain ⟨hsound, hheld⟩ := sound_erase (h.sound k) hw
    exact h.setWorker hsound (List.Perm.of_eq hheld)

end Owned

/-- INTERNAL: a worker without connections. -/
theorem sound_start (pipeCapacity : ℕ) :
    Sound { thread := { pipeCapacity := pipeCapacity } } where
  ring := ⟨[], holdsItems_new (k := 10) (by norm_num) 0⟩
  watched := List.Perm.refl _
  once := List.nodup_nil
  reported fd hfd := absurd hfd List.not_mem_nil
  replayed fd s hs := by
    rw [AList.lookup_empty] at hs
    cases hs

theorem owned_start (pipeCapacity : Fin n → ℕ) : Owned (TcpProcess.start n pipeCapacity) where
  sound k := sound_start (pipeCapacity k)
  held := by
    have hnone : ∀ k, heldFds ((TcpProcess.start n pipeCapacity).workers k) = [] := by
      intro k
      rw [heldFds, waitingFds_eq (w := (TcpProcess.start n pipeCapacity).workers k)
        (holdsItems_new (k := 10) (by norm_num) 0)]
      rfl
    have hall : (allHeld fun k => heldFds ((TcpProcess.start n pipeCapacity).workers k)) = [] := by
      rw [List.eq_nil_iff_forall_not_mem]
      intro fd hfd
      obtain ⟨k, hk⟩ := mem_allHeld.mp hfd
      rw [hnone] at hk
      exact absurd hk List.not_mem_nil
    rw [hall]
    exact List.Perm.refl _
  nodup := List.nodup_nil

/-- INTERNAL: **the run lemma**. -/
theorem owned_run {pipeCapacity : Fin n → ℕ} {steps : List (ProcessStep n)}
    (hrun : (TcpProcess.start n pipeCapacity).run steps = some p) : Owned p :=
  foldlM_invariant (fun _ _ _ h hstep => h.step hstep) (owned_start pipeCapacity) hrun

/-- PROPERTY: whatever the interleaving of the acceptor and of any number of workers, with numbers
given out again as soon as they are closed, every open descriptor is in exactly one place: in the
acceptor's hand, in one worker's ring or with one worker's connection. Each worker watches its own
connections, and what it has still to handle is about them.
SOURCE: network/tcp_server.cpp:87-180, 284-297, 638-682 -/
theorem descriptors_owned {pipeCapacity : Fin n → ℕ} {steps : List (ProcessStep n)}
    (hrun : (TcpProcess.start n pipeCapacity).run steps = some p) : DescriptorsOwned p := by
  have h := owned_run hrun
  exact ⟨h.held, h.nodup, fun k => (h.sound k).watched, fun k => (h.sound k).reported⟩

/-- A connection is closed, and before it is erased its number comes back and is handed to the same
worker. -/
def numberComesBack (k : Fin 1) : List (ProcessStep 1) :=
  [.accept 7, .assign, .wake, .poll k [.wakeup], .drain k, .register k,
    .poll k [.client 7 .hangup], .handle k .hangup [], .accept 7, .assign]

theorem descriptors_owned_number_comes_back :
    ∃ p, (TcpProcess.start 1 fun _ => 65536).run (numberComesBack 0) = some p ∧
      waitingFds (p.workers 0) = [7] ∧ (p.workers 0).connections.keys = [7] ∧
      DescriptorsOwned p := by
  have hstate : ((TcpProcess.start 1 fun _ => 65536).run (numberComesBack 0)).map (fun p =>
      (waitingFds (p.workers 0), (p.workers 0).connections.keys)) = some ([7], [7]) := by
    decide +kernel
  obtain ⟨p, hrun, hfacts⟩ := Option.map_eq_some_iff.mp hstate
  obtain ⟨hwaiting, hkeys⟩ := Prod.mk.inj hfacts
  exact ⟨p, hrun, hwaiting, hkeys, descriptors_owned hrun⟩

end Process

end StrikeMQ.Analysis.DescriptorOwnership
