import Mathlib.Data.Int.CardIntervalMod
import StrikeMQ.Analysis.DescriptorOwnership

/-!
# Who gets a connection

The acceptor offers a descriptor to the workers in turn, starting behind the one that got the last,
and gives it up when every ring has turned out to be full. So a connection is dropped only after
each worker's ring was full at some moment of its assignment, and as long as no ring is full the
connections are dealt out evenly.
-/

set_option autoImplicit false

namespace StrikeMQ.Analysis.RoundRobin

open StrikeMQ.Lib StrikeMQ.Model StrikeMQ.Model.TcpProcess StrikeMQ.Interface
open StrikeMQ.Analysis.DescriptorOwnership

variable {n : ℕ}

/-! ## What a step does to the acceptor -/

/-- INTERNAL: the outcomes of a step as far as the acceptor is concerned. -/
inductive Moved (p p' : TcpProcess n) : Prop
  | accepted (fd : ℤ) : p.acceptor = .accepting → p'.acceptor = .assigning fd p.nextWorker 0 →
      p'.nextWorker = p.nextWorker → p'.assigned = p.assigned → Moved p p'
  | handedOver (fd : ℤ) (start attempt : ℕ) (h : attempt < n) :
      p.acceptor = .assigning fd start attempt → p'.acceptor = .waking (workerIdx start h) →
      p'.assigned = p.assigned ++ [workerIdx start h] → Moved p p'
  | refused (fd : ℤ) (start attempt : ℕ) (h : attempt < n) :
      p.acceptor = .assigning fd start attempt →
      (waitingFds (p.workers (workerIdx start h))).length = 1024 →
      p'.acceptor = .assigning fd start (attempt + 1) → Moved p p'
  | dropped (fd : ℤ) (start attempt : ℕ) : ¬ attempt < n →
      p.acceptor = .assigning fd start attempt → p'.acceptor = .accepting →
      p'.nextWorker = p.nextWorker → p'.assigned = p.assigned → Moved p p'
  | woke (idx : Fin n) : p.acceptor = .waking idx → p'.acceptor = .accepting →
      p'.nextWorker = (idx + 1) % n → p'.assigned = p.assigned → Moved p p'
  | elsewhere : p'.acceptor = p.acceptor → p'.nextWorker = p.nextWorker →
      p'.assigned = p.assigned → Moved p p'

theorem moved_assign {p p' : TcpProcess n} (h : Owned p) (hassign : p.assign = some p') :
    Moved p p' := by
  unfold TcpProcess.assign at hassign
  split at hassign
  · rename_i fd start attempt hacceptor
    split at hassign
    · rename_i hattempt
      obtain ⟨q, hq⟩ := (h.sound (workerIdx start hattempt)).ring
      dsimp only at hassign
      rcases hq.tryPush fd with ⟨-, hpushed, -⟩ | ⟨hfull, hpushed, -⟩
      · simp only [WorkerThread.pushFd, hpushed] at hassign
        obtain rfl := Option.some.inj hassign
        exact .handedOver fd start attempt hattempt hacceptor rfl rfl
      · simp only [WorkerThread.pushFd, hpushed] at hassign
        obtain rfl := Option.some.inj hassign
        refine .refused fd start attempt hattempt hacceptor ?_ rfl
        rw [waitingFds_eq hq]
        exact hfull
    · rename_i hattempt
      obtain rfl := Option.some.inj hassign
      exact .dropped fd start attempt hattempt hacceptor rfl rfl rfl
  · cases hassign

theorem moved_setWorker {p p' : TcpProcess n} {k : Fin n} {w : Option Worker}
    (h : w.map (p.setWorker k) = some p') : Moved p p' := by
  obtain ⟨w, -, rfl⟩ := Option.map_eq_some_iff.mp h
  exact .elsewhere rfl rfl rfl

/-- INTERNAL: **the step lemma**. -/
theorem moved_of_step {p p' : TcpProcess n} (h : Owned p) {a : ProcessStep n}
    (hstep : p.step a = some p') : Moved p p' := by
  cases a with
  | accept fd =>
    simp only [TcpProcess.step, TcpProcess.accept] at hstep
    split at hstep
    · rename_i hacceptor
      split at hstep
      · cases hstep
      · obtain rfl := Option.some.inj hstep
        exact .accepted fd hacceptor rfl rfl rfl
    · cases hstep
  | assign => exact moved_assign h hstep
  | wake =>
    simp only [TcpProcess.step, TcpProcess.wake] at hstep
    split at hstep
    · rename_i idx hacceptor
      obtain rfl := Option.some.inj hstep
      exact .woke idx hacceptor rfl rfl rfl
    · cases hstep
  | poll k batch => exact moved_setWorker hstep
  | drain k => exact moved_setWorker hstep
  | register k => exact moved_setWorker hstep
  | handle k e answers =>
    obtain ⟨⟨w, closed⟩, -, hrest⟩ := Option.bind_eq_some_iff.mp hstep
    dsimp only at hrest
    cases closed with
    | none =>
      obtain rfl := Option.some.inj hrest
      exact .elsewhere rfl rfl rfl
    | some fd =>
      obtain rfl := Option.some.inj hrest
      exact .elsewhere rfl rfl rfl
  | erase k => exact moved_setWorker hstep

/-! ## A descriptor that nobody takes -/

variable {pipeCapacity : Fin n → ℕ}

/-- INTERNAL: while the acceptor is still at it, what was full before was full during the same
assignment. -/
theorem fullDuring_extend {steps : List (ProcessStep n)} {fd : ℤ} {start attempt : ℕ} {k : Fin n}
    (h : FullDuring pipeCapacity steps fd start k) {a : ProcessStep n} {p : TcpProcess n}
    (hrun : (TcpProcess.start n pipeCapacity).run (steps ++ [a]) = some p)
    (hacceptor : p.acceptor = .assigning fd start attempt) :
    FullDuring pipeCapacity (steps ++ [a]) fd start k := by
  obtain ⟨before, hbefore, hfull, hduring⟩ := h
  refine ⟨before, hbefore.trans (List.prefix_append steps [a]), hfull, ?_⟩
  intro mid hmid hle
  rcases List.prefix_concat_iff.mp hle with rfl | hle
  · exact ⟨p, attempt, hrun, hacceptor⟩
  · exact hduring mid hmid hle

/-- INTERNAL: every worker that was tried in vain had a full ring. -/
theorem fullDuring_of_tried {steps : List (ProcessStep n)} {p : TcpProcess n} {fd : ℤ}
    {start attempt : ℕ} (hrun : (TcpProcess.start n pipeCapacity).run steps = some p)
    (hacceptor : p.acceptor = .assigning fd start attempt) {j : ℕ} (hj : j < attempt)
    (hn : j < n) : FullDuring pipeCapacity steps fd start (workerIdx start hn) := by
  induction steps using List.reverseRecOn generalizing p attempt with
  | nil =>
    obtain rfl : TcpProcess.start n pipeCapacity = p := by simpa [TcpProcess.run] using hrun
    cases hacceptor
  | append_singleton steps a ih =>
    obtain ⟨c, hc, ha⟩ := foldlM_concat_eq_some_iff.mp hrun
    cases moved_of_step (owned_run hc) ha with
    | accepted fd' _ hafter =>
      rw [hafter] at hacceptor
      obtain ⟨-, -, rfl⟩ := AcceptorAt.assigning.inj hacceptor
      exact absurd hj (Nat.not_lt_zero j)
    | handedOver fd' start' attempt' _ _ hafter =>
      rw [hafter] at hacceptor
      cases hacceptor
    | refused fd' start' attempt' hattempt hbefore hfull hafter =>
      rw [hafter] at hacceptor
      obtain ⟨rfl, rfl, rfl⟩ := AcceptorAt.assigning.inj hacceptor
      rcases Nat.lt_succ_iff_lt_or_eq.mp hj with hlt | rfl
      · exact fullDuring_extend (ih hc hbefore hlt) hrun hafter
      · -- the worker that has just been tried
        refine fullDuring_extend ⟨steps, List.prefix_refl steps, ⟨c, hc, hfull⟩, ?_⟩ hrun hafter
        intro mid hle hge
        obtain rfl := hge.eq_of_length (le_antisymm hge.length_le hle.length_le)
        exact ⟨c, _, hc, hbefore⟩
    | dropped fd' start' attempt' _ _ hafter =>
      rw [hafter] at hacceptor
      cases hacceptor
    | woke idx _ hafter =>
      rw [hafter] at hacceptor
      cases hacceptor
    | elsewhere hsame =>
      rw [hsame] at hacceptor
      exact fullDuring_extend (ih hc hacceptor hj) hrun (hsame.trans hacceptor)

/-- INTERNAL: as many attempts as there are workers try each of them. -/
theorem exists_workerIdx (start : ℕ) (k : Fin n) :
    ∃ (j : ℕ) (hj : j < n), workerIdx start hj = k := by
  have hn : 0 < n := Nat.zero_lt_of_lt k.isLt
  have hstart := Nat.mod_lt start hn
  refine ⟨(k + (n - start % n)) % n, Nat.mod_lt _ hn, Fin.ext ?_⟩
  show (start + (k + (n - start % n)) % n) % n = k
  have hsum : (start + (k + (n - start % n))) % n = k := by
    have hdiv := Nat.div_add_mod start n
    have hwhole : start + (k + (n - start % n)) = k + n * (start / n + 1) := by
      rw [Nat.mul_add, Nat.mul_one]
      omega
    rw [hwhole, Nat.add_mul_mod_self_left, Nat.mod_eq_of_lt k.isLt]
  rw [Nat.add_mod, Nat.mod_mod, ← Nat.add_mod, hsum]

/-! ## Rings with room -/

/-- INTERNAL: the acceptor is to go on behind the worker that got the last of `m` connections. -/
def Due (nextWorker m : ℕ) : AcceptorAt n → Prop
  | .accepting => nextWorker = m % n
  | .assigning _ start attempt => start = m % n ∧ attempt = 0
  | .waking idx => ((idx : ℕ) + 1) % n = m % n

/-- INTERNAL: the connections so far went to the workers in turn. -/
structure InTurn (p : TcpProcess n) : Prop where
  dealt : p.assigned.map Fin.val = (List.range p.assigned.length).map (· % n)
  due : Due p.nextWorker p.assigned.length p.acceptor

theorem inTurn_start : InTurn (TcpProcess.start n pipeCapacity) where
  dealt := rfl
  due := (Nat.zero_mod n).symm

theorem InTurn.step {p p' : TcpProcess n} (hn : 0 < n) (h : InTurn p)
    (hroom : ∀ k, (waitingFds (p.workers k)).length < 1024) (hmoved : Moved p p') : InTurn p' := by
  obtain ⟨hdealt, hdue⟩ := h
  cases hmoved with
  | accepted fd hbefore hafter hnext hassigned =>
    rw [hbefore] at hdue
    refine ⟨by rw [hassigned]; exact hdealt, ?_⟩
    rw [hafter, hassigned]
    exact ⟨hdue, rfl⟩
  | handedOver fd start attempt hattempt hbefore hafter hassigned =>
    rw [hbefore] at hdue
    obtain ⟨rfl, rfl⟩ := hdue
    have hidx : (workerIdx (p.assigned.length % n) hattempt : ℕ) = p.assigned.length % n := by
      show (p.assigned.length % n + 0) % n = _
      rw [Nat.add_zero, Nat.mod_mod]
    constructor
    · rw [hassigned, List.map_append, hdealt, List.length_append, List.length_singleton,
        List.range_succ, List.map_append, List.map_singleton, List.map_singleton, hidx]
    · rw [hafter, hassigned, List.length_append, List.length_singleton, Due, hidx, Nat.mod_add_mod]
  | refused fd start attempt hattempt hbefore hfull =>
    exact absurd hfull (Nat.ne_of_lt (hroom _))
  | dropped fd start attempt hattempt hbefore =>
    rw [hbefore] at hdue
    obtain ⟨-, rfl⟩ := hdue
    exact absurd hn hattempt
  | woke idx hbefore hafter hnext hassigned =>
    rw [hbefore] at hdue
    refine ⟨by rw [hassigned]; exact hdealt, ?_⟩
    rw [hafter, hassigned, hnext]
    exact hdue
  | elsewhere hsame hnext hassigned =>
    refine ⟨by rw [hassigned]; exact hdealt, ?_⟩
    rw [hsame, hnext, hassigned]
    exact hdue

theorem inTurn_run (hn : 0 < n) {steps : List (ProcessStep n)} {p : TcpProcess n}
    (hrun : (TcpProcess.start n pipeCapacity).run steps = some p)
    (hroom : ∀ earlier, earlier <+: steps → ∀ q,
      (TcpProcess.start n pipeCapacity).run earlier = some q →
        ∀ k, (waitingFds (q.workers k)).length < 1024) : InTurn p := by
  refine foldlM_induction (P := InTurn) inTurn_start ?_ hrun
  intro earlier a c c' hpre hc hturn hstep
  have hearlier := (List.prefix_append earlier [a]).trans hpre
  exact hturn.step hn (hroom earlier hearlier c hc) (moved_of_step (owned_run hc) hstep)

/-- INTERNAL: how often a number comes up among the remainders. -/
theorem count_turns {k : ℕ} (hk : k < n) (m : ℕ) :
    ((List.range m).map (· % n)).count k = m / n + if k < m % n then 1 else 0 := by
  have hcount : ((List.range m).map (· % n)).count k = m.count (· ≡ k [MOD n]) := by
    induction m with
    | zero => rfl
    | succ m ih =>
      rw [List.range_succ, List.map_append, List.count_append, ih, List.map_singleton,
        List.count_singleton, Nat.count_succ]
      congr 1
      simp [Nat.ModEq, Nat.mod_eq_of_lt hk]
  rw [hcount, Nat.count_modEq_card m (Nat.zero_lt_of_lt hk) k, Nat.mod_eq_of_lt hk]

theorem InTurn.count_le {p : TcpProcess n} (h : InTurn p) (a b : Fin n) :
    p.assigned.count a ≤ p.assigned.count b + 1 := by
  have hcount : ∀ k : Fin n, p.assigned.count k =
      p.assigned.length / n + if (k : ℕ) < p.assigned.length % n then 1 else 0 := by
    intro k
    rw [← count_turns k.isLt, ← h.dealt, List.count_map_of_injective _ _ Fin.val_injective]
  rw [hcount a, hcount b]
  split <;> split <;> omega

/-- PROPERTY: the acceptor closes a descriptor that it could not hand over only if the ring of every
worker was full at some moment while it was trying. As long as no ring is full, the connections go
to the workers in turn, so that no worker has got more than one connection more than another.
SOURCE: network/tcp_server.cpp:656-672 -/
theorem connections_dealt_in_turn (hn : 0 < n) {steps : List (ProcessStep n)} {p : TcpProcess n}
    (hrun : (TcpProcess.start n pipeCapacity).run steps = some p) :
    (∀ fd start attempt p', p.acceptor = .assigning fd start attempt → p.assign = some p' →
      fd ∉ p'.openFds → ∀ k, FullDuring pipeCapacity steps fd start k) ∧
    ((∀ earlier, earlier <+: steps → ∀ q,
        (TcpProcess.start n pipeCapacity).run earlier = some q →
          ∀ k, (waitingFds (q.workers k)).length < 1024) →
      p.assigned.map Fin.val = (List.range p.assigned.length).map (· % n) ∧
        ∀ a b, p.assigned.count a ≤ p.assigned.count b + 1) := by
  have howned := owned_run hrun
  constructor
  · intro fd start attempt p' hacceptor hassign hclosed k
    have hopen : fd ∈ p.openFds := by
      refine howned.held.subset (List.mem_append_left _ ?_)
      simp [handFds, hacceptor]
    have hall : ¬ attempt < n := by
      intro hattempt
      apply hclosed
      simp only [TcpProcess.assign, hacceptor, dif_pos hattempt] at hassign
      split at hassign
      · obtain rfl := Option.some.inj hassign
        exact hopen
      · obtain rfl := Option.some.inj hassign
        exact hopen
    obtain ⟨j, hj, rfl⟩ := exists_workerIdx start k
    exact fullDuring_of_tried hrun hacceptor (by omega) hj
  · intro hroom
    have hturn := inTurn_run hn hrun hroom
    exact ⟨hturn.dealt, hturn.count_le⟩

/-- Three connections for two workers. -/
def threeAccepted : List (ProcessStep 2) :=
  [.accept 7, .assign, .wake, .accept 8, .assign, .wake, .accept 9, .assign, .wake]

theorem connections_dealt_in_turn_three :
    ∃ p, (TcpProcess.start 2 fun _ => 65536).run threeAccepted = some p ∧
      p.assigned = [0, 1, 0] ∧ ∀ a b, p.assigned.count a ≤ p.assigned.count b + 1 := by
  have hassigned : ((TcpProcess.start 2 fun _ => 65536).run threeAccepted).map
      TcpProcess.assigned = some [0, 1, 0] := by
    decide +kernel
  obtain ⟨p, hrun, hp⟩ := Option.map_eq_some_iff.mp hassigned
  refine ⟨p, hrun, hp, (((connections_dealt_in_turn (by norm_num) hrun).2 ?_).2)⟩
  intro earlier hearlier q hq k
  -- all states of this run are among its beginnings
  have hall : ∀ earlier ∈ threeAccepted.inits, ∀ k : Fin 2,
      ((TcpProcess.start 2 fun _ => 65536).run earlier).all
        (fun q => (waitingFds (q.workers k)).length < 1024) = true := by
    decide +kernel
  have hroom := hall earlier ((List.mem_inits _ _).mpr hearlier) k
  rw [hq] at hroom
  simpa using hroom

end StrikeMQ.Analysis.RoundRobin
