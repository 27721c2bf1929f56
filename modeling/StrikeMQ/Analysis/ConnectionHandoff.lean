import StrikeMQ.Lib.RingQueue
import StrikeMQ.Lib.Runs
import StrikeMQ.Interface.Handoff

/-!
# When a worker is woken

The ring is a bounded queue, so the worker registers the descriptors in the order in which they
were handed over, each of them once. But one wakeup empties the pipe and pops at most 64
descriptors. The descriptors that it leaves in the ring are announced only if a byte was written
since the pipe was emptied, or is about to be; otherwise they wait for the next connection to be
assigned to the same worker.
-/

set_option autoImplicit false

namespace StrikeMQ.Analysis.ConnectionHandoff

open StrikeMQ.Lib StrikeMQ.Model StrikeMQ.Interface

/-! ## The ring is a bounded queue -/

/-- INTERNAL: the ring holds `q`, and the producer's copy of the consumer's counter is at most
the free room behind it. -/
structure HoldsItems {α : Type} {capacity : ℕ} (r : SpscRingBuffer α capacity) (q : List α) :
    Prop where
  ring : RingQueue r.storage capacity r.head r.tail q
  cached : ∃ behind : ℕ, q.length + behind ≤ capacity ∧
    r.tailCached = toUInt64 ((r.tail : ℤ) - behind)

section Ring

variable {α : Type} {capacity : ℕ} {r : SpscRingBuffer α capacity} {q : List α}

theorem holdsItems_new {k : ℕ} (hk : k < 64) (init : α) :
    HoldsItems (SpscRingBuffer.new init : SpscRingBuffer α (2 ^ k)) [] where
  ring := ringQueue_nil ⟨_, hk, rfl⟩ (Nat.two_pow_pos 64) _
  cached := ⟨0, Nat.zero_le _, rfl⟩

namespace HoldsItems

theorem sizeApprox_eq (h : HoldsItems r q) : r.sizeApprox = q.length :=
  h.ring.size_eq

theorem emptyApprox_iff (h : HoldsItems r q) : r.emptyApprox = true ↔ q = [] := by
  rw [SpscRingBuffer.emptyApprox, decide_eq_true_iff, h.sizeApprox_eq, List.length_eq_zero_iff]

/-- INTERNAL: a push that finds room, whatever copy of the counter it goes by. -/
theorem push (h : HoldsItems r q) (item : α) {behind cached : ℕ}
    (hroom : q.length + 1 + behind ≤ capacity)
    (hcached : cached = toUInt64 ((r.tail : ℤ) - behind)) :
    HoldsItems
      ({ r with
        tailCached := cached
        storage := Function.update r.storage (r.head &&& SpscRingBuffer.kMask capacity) item
        head := toUInt64 (r.head + 1) } : SpscRingBuffer α capacity) (q ++ [item]) where
  ring := by
    have hext := h.ring.extend [item] (by rw [List.length_singleton]; omega)
    rw [ringIn_singleton _ h.ring.capacity_pos, ← h.ring.head_mod, ← h.ring.and_mask] at hext
    exact hext
  cached := by
    refine ⟨behind, ?_, hcached⟩
    rw [List.length_append, List.length_singleton]
    exact hroom

/-- INTERNAL: **`try_push` is the push of a bounded queue**. -/
theorem tryPush (h : HoldsItems r q) (item : α) :
    (q.length < capacity ∧ (r.tryPush item).2 = true ∧
      HoldsItems (r.tryPush item).1 (q ++ [item])) ∨
    (q.length = capacity ∧ (r.tryPush item).2 = false ∧ HoldsItems (r.tryPush item).1 q) := by
  obtain ⟨behind, hbehind, hcached⟩ := h.cached
  have hcap := h.ring.capacity_le
  have htail := h.ring.tail_lt
  have hhead := h.ring.head_eq
  -- what the producer computes from its copy, and from the counter itself
  have hcopy : toUInt64 ((toUInt64 (r.head + 1) : ℤ) - r.tailCached) = q.length + 1 + behind := by
    rw [hhead, hcached]
    unfold toUInt64
    omega
  have hreal : toUInt64 ((toUInt64 (r.head + 1) : ℤ) - r.tail) = q.length + 1 := by
    rw [hhead]
    unfold toUInt64
    omega
  have hself : r.tail = toUInt64 ((r.tail : ℤ) - (0 : ℕ)) := by
    unfold toUInt64
    omega
  by_cases hfits : q.length + 1 + behind ≤ capacity
  · have hskip : ¬ q.length + 1 + behind > capacity := by omega
    simp only [SpscRingBuffer.tryPush, hcopy, hskip, if_false]
    exact Or.inl ⟨by omega, trivial, h.push item hfits hcached⟩
  · have hrefresh : q.length + 1 + behind > capacity := by omega
    simp only [SpscRingBuffer.tryPush, hcopy, hrefresh, if_true, hreal]
    by_cases hfull : q.length + 1 > capacity
    · rw [if_pos hfull]
      exact Or.inr ⟨by omega, rfl, h.ring, 0, by omega, hself⟩
    · rw [if_neg hfull]
      exact Or.inl ⟨by omega, rfl, h.push item (by omega) hself⟩

/-- INTERNAL: **`try_pop_batch` takes the front of the queue**. -/
theorem tryPopBatch (h : HoldsItems r q) (n : ℕ) :
    (r.tryPopBatch n).1 = q.take n ∧ HoldsItems (r.tryPopBatch n).2 (q.drop n) := by
  have hcount : min q.length n = (q.take n).length := by
    rw [List.length_take, min_comm]
  have hadvance := h.ring.advance (Nat.min_le_left q.length n)
  have hdrop : q.drop (min q.length n) = q.drop n := by
    rcases Nat.le_total n q.length with hle | hle
    · rw [min_eq_right hle]
    · rw [min_eq_left hle, List.drop_length, List.drop_eq_nil_of_le hle]
  rw [hdrop] at hadvance
  obtain ⟨behind, hbehind, hcached⟩ := h.cached
  have hlen : (q.drop n).length + (behind + min q.length n) ≤ capacity := by
    rw [List.length_drop]
    omega
  simp only [SpscRingBuffer.tryPopBatch, h.ring.size_eq]
  constructor
  · rw [h.ring.take_eq, min_comm n q.length]
    unfold ringOut
    apply List.map_congr_left
    intro i _
    rw [SpscRingBuffer.kMask, h.ring.and_mask]
    congr 1
    exact h.ring.toUInt64_mod (r.tail + i)
  · split
    · refine ⟨hadvance, behind + min q.length n, hlen, ?_⟩
      show r.tailCached = toUInt64 ((toUInt64 (r.tail + (min q.length n : ℕ)) : ℤ) -
        (behind + min q.length n : ℕ))
      rw [hcached]
      unfold toUInt64
      omega
    · next hzero =>
      have hnone : min q.length n = 0 := by omega
      have hsame : q.drop n = q := by rw [← hdrop, hnone, List.drop_zero]
      rw [hsame]
      exact ⟨h.ring, behind, hbehind, hcached⟩

end HoldsItems

end Ring

/-! ## Steps -/

/-- INTERNAL: what was handed over is registered or in the ring, in this order. -/
structure Accounted (h : Handoff) (q : List ℤ) : Prop where
  holds : HoldsItems h.worker.newFds q
  accepted_eq : h.accepted = h.worker.registered ++ q
  pipe_pos : 0 < h.worker.pipeCapacity

/-- INTERNAL: what a step does to the queue, the pipe and the two threads. -/
inductive Moved (h : Handoff) (q : List ℤ) : HandoffStep → Handoff → List ℤ → Prop
  | pushed (fd : ℤ) (h' : Handoff) (q' : List ℤ) : h'.assigning = true →
      Moved h q (.push fd) h' q'
  | refused (fd : ℤ) (h' : Handoff) : h'.assigning = h.assigning → h'.draining = h.draining →
      h'.worker.wakeupPipe = h.worker.wakeupPipe → Moved h q (.push fd) h' q
  | woken (h' : Handoff) : 0 < h'.worker.wakeupPipe → Moved h q .wake h' q
  | drained (h' : Handoff) : h'.draining = true → Moved h q .drain h' q
  | registered (h' : Handoff) : h'.assigning = h.assigning → h'.draining = false →
      h'.worker.wakeupPipe = h.worker.wakeupPipe → Moved h q .register h' (q.drop 64)

/-- INTERNAL: **the step lemma**. -/
theorem Accounted.step {h h' : Handoff} {q : List ℤ} {a : HandoffStep} (hq : Accounted h q)
    (hstep : h.step a = some h') : ∃ q', Accounted h' q' ∧ Moved h q a h' q' := by
  cases a with
  | push fd =>
    simp only [Handoff.step, WorkerThread.pushFd] at hstep
    split at hstep
    · cases hstep
    · rcases hq.holds.tryPush fd with ⟨-, hpushed, hholds⟩ | ⟨-, hpushed, hholds⟩
      · rw [hpushed] at hstep
        obtain rfl := Option.some.inj hstep
        refine ⟨q ++ [fd], ⟨hholds, ?_, hq.pipe_pos⟩, .pushed fd _ _ rfl⟩
        show h.accepted ++ [fd] = h.worker.registered ++ (q ++ [fd])
        rw [hq.accepted_eq, List.append_assoc]
      · rw [hpushed] at hstep
        obtain rfl := Option.some.inj hstep
        exact ⟨q, ⟨hholds, hq.accepted_eq, hq.pipe_pos⟩, .refused fd _ rfl rfl rfl⟩
  | wake =>
    simp only [Handoff.step] at hstep
    split at hstep
    · obtain rfl := Option.some.inj hstep
      refine ⟨q, ⟨hq.holds, hq.accepted_eq, hq.pipe_pos⟩, .woken _ ?_⟩
      have hpipe := hq.pipe_pos
      show 0 < min (h.worker.wakeupPipe + 1) h.worker.pipeCapacity
      omega
    · cases hstep
  | drain =>
    simp only [Handoff.step] at hstep
    split at hstep
    · obtain rfl := Option.some.inj hstep
      exact ⟨q, ⟨hq.holds, hq.accepted_eq, hq.pipe_pos⟩, .drained _ rfl⟩
    · cases hstep
  | register =>
    simp only [Handoff.step] at hstep
    split at hstep
    · obtain rfl := Option.some.inj hstep
      obtain ⟨hfront, hholds⟩ := hq.holds.tryPopBatch 64
      refine ⟨q.drop 64, ⟨hholds, ?_, hq.pipe_pos⟩, .registered _ rfl rfl rfl⟩
      show h.accepted = h.worker.registered ++ (h.worker.newFds.tryPopBatch 64).1 ++ q.drop 64
      rw [hfront, hq.accepted_eq, List.append_assoc, List.take_append_drop]
    · cases hstep

theorem Accounted.announced_iff {h : Handoff} {q : List ℤ} (hq : Accounted h q) :
    h.Announced ↔ (h.assigning = false → h.draining = false → q ≠ [] →
      0 < h.worker.wakeupPipe) := by
  have hempty : h.worker.newFds.emptyApprox = false ↔ q ≠ [] := by
    rw [← Bool.not_eq_true, hq.holds.emptyApprox_iff]
  unfold Handoff.Announced
  rw [hempty]

/-- INTERNAL: only a pop can leave descriptors in the ring that nothing announces, and it does
exactly if it is not to be followed by another wakeup. -/
theorem announced_step_iff {h h' : Handoff} {q : List ℤ} {a : HandoffStep} (hq : Accounted h q)
    (hbefore : h.Announced) (hstep : h.step a = some h') :
    h'.Announced ↔ (a = .register → h.PopsAll) := by
  obtain ⟨q', hq', hmoved⟩ := hq.step hstep
  rw [hq'.announced_iff]
  rw [hq.announced_iff] at hbefore
  cases hmoved with
  | pushed fd _ _ hassigning =>
    refine iff_of_true ?_ (fun h => by cases h)
    intro hidle
    rw [hassigning] at hidle
    cases hidle
  | refused fd _ hassigning hdraining hpipe =>
    refine iff_of_true ?_ (fun h => by cases h)
    rwa [hassigning, hdraining, hpipe]
  | woken _ hpipe => exact iff_of_true (fun _ _ _ => hpipe) (fun h => by cases h)
  | drained _ hdraining =>
    refine iff_of_true ?_ (fun h => by cases h)
    intro _ hidle
    rw [hdraining] at hidle
    cases hidle
  | registered _ hassigning hdraining hpipe =>
    have hleft : q.drop 64 ≠ [] ↔ ¬ h.worker.newFds.sizeApprox ≤ 64 := by
      rw [hq.holds.sizeApprox_eq, ne_eq, List.drop_eq_nil_iff]
    have hpops : (HandoffStep.register = .register → h.PopsAll) ↔ h.PopsAll :=
      ⟨fun hall => hall rfl, fun hall _ => hall⟩
    rw [hpops, hassigning, hpipe, hleft, Handoff.PopsAll]
    constructor
    · intro hannounced
      by_cases hsize : h.worker.newFds.sizeApprox ≤ 64
      · exact Or.inl hsize
      · cases hacc : h.assigning with
        | true => exact Or.inr (Or.inr rfl)
        | false => exact Or.inr (Or.inl (hannounced hacc hdraining hsize))
    · intro hpops hidle _ hsize
      rcases hpops with hfew | hbyte | hassigning'
      · exact absurd hfew hsize
      · exact hbyte
      · rw [hidle] at hassigning'
        cases hassigning'

/-! ## Runs -/

theorem accounted_start {pipeCapacity : ℕ} (hpipe : 0 < pipeCapacity) :
    Accounted { worker := { pipeCapacity := pipeCapacity } } [] where
  holds := holdsItems_new (k := 10) (by norm_num) 0
  accepted_eq := rfl
  pipe_pos := hpipe

/-- INTERNAL: **the run lemma**: descriptors are registered in the order in which they were
handed over, and those that are not registered yet are in the ring. -/
theorem accounted_run {pipeCapacity : ℕ} (hpipe : 0 < pipeCapacity) {steps : List HandoffStep}
    {h : Handoff} (hrun : Handoff.run pipeCapacity steps = some h) : ∃ q, Accounted h q := by
  refine foldlM_invariant (P := fun h => ∃ q, Accounted h q) ?_ ⟨[], accounted_start hpipe⟩ hrun
  rintro c a c' ⟨q, hq⟩ hstep
  obtain ⟨q', hq', -⟩ := hq.step hstep
  exact ⟨q', hq'⟩

/-- PROPERTY: over any interleaving of the two halves of `assign_connection` and of a worker's
wakeup, descriptors in the ring are announced by a byte in the pipe, in every state in which
both threads are idle, if and only if every pop finds at most 64 descriptors, or a byte in the
pipe, or the acceptor about to write one. In a run whose pops all do, a worker that is idle and
has no byte to read has registered every descriptor that was handed over.
SOURCE: network/tcp_server.cpp:87-121, 153-180 -/
theorem handoff_announced_iff {pipeCapacity : ℕ} (hpipe : 0 < pipeCapacity)
    {steps : List HandoffStep} {h : Handoff} (hrun : Handoff.run pipeCapacity steps = some h) :
    ((∀ earlier, earlier <+: steps → ∀ t, Handoff.run pipeCapacity earlier = some t →
        t.Announced) ↔
      ∀ earlier, earlier ++ [.register] <+: steps →
        ∀ t, Handoff.run pipeCapacity earlier = some t → t.PopsAll) ∧
    ((∀ earlier, earlier ++ [.register] <+: steps →
        ∀ t, Handoff.run pipeCapacity earlier = some t → t.PopsAll) →
      ∀ earlier, earlier <+: steps → ∀ t, Handoff.run pipeCapacity earlier = some t →
        t.assigning = false → t.draining = false → t.worker.wakeupPipe = 0 →
          t.worker.registered = t.accepted) := by
  have hstart : ∃ q, Accounted { worker := { pipeCapacity := pipeCapacity } } q :=
    ⟨[], accounted_start hpipe⟩
  have hannounced := foldlM_states_iff_of_kind (k := fun _ : Unit => HandoffStep.register)
    (I := fun h => ∃ q, Accounted h q) (P := Handoff.Announced) (G := fun h _ => h.PopsAll) hstart
    (fun c a c' ⟨q, hq⟩ hstep => by
      obtain ⟨q', hq', -⟩ := hq.step hstep
      exact ⟨q', hq'⟩)
    ((accounted_start hpipe).announced_iff.mpr fun _ _ hne => absurd rfl hne)
    (fun c a c' ⟨q, hq⟩ hbefore hstep =>
      (announced_step_iff hq hbefore hstep).trans (forall_const Unit).symm) hrun
  simp only [forall_const] at hannounced
  refine ⟨hannounced, ?_⟩
  intro hpops earlier hearlier t ht hassigning hdraining hbyte
  obtain ⟨q, hq⟩ := accounted_run hpipe ht
  have hlast := hq.announced_iff.mp (hannounced.mpr hpops earlier hearlier t ht)
  have hnone : q = [] := by
    by_contra hne
    have hsome := hlast hassigning hdraining hne
    omega
  rw [hq.accepted_eq, hnone, List.append_nil]

/-- Two connections, and a worker that has read its pipe. -/
def twoAssigned : List HandoffStep :=
  [.push 7, .wake, .push 8, .wake, .drain]

/-- The worker pops both, and is idle with everything registered. -/
theorem handoff_announced_iff_two_connections :
    ∃ h, Handoff.run 65536 (twoAssigned ++ [.register]) = some h ∧
      h.worker.wakeupPipe = 0 ∧ h.accepted = [7, 8] ∧ h.worker.registered = h.accepted := by
  have hstate : (Handoff.run 65536 (twoAssigned ++ [.register])).map (fun h => (h.assigning,
      h.draining, h.worker.wakeupPipe, h.accepted)) = some (false, false, 0, [7, 8]) := by
    decide +kernel
  obtain ⟨h, hrun, hfacts⟩ := Option.map_eq_some_iff.mp hstate
  simp only [Prod.mk.injEq] at hfacts
  obtain ⟨hassigning, hdraining, hpipe, haccepted⟩ := hfacts
  have hpops : ∀ earlier, earlier ++ [.register] <+: twoAssigned ++ [.register] →
      ∀ t, Handoff.run 65536 earlier = some t → t.PopsAll := by
    intro earlier hearlier t ht
    cases List.prefix_concat_iff.mp hearlier with
    | inl heq =>
      rw [List.append_cancel_right heq] at ht
      have hsize : (Handoff.run 65536 twoAssigned).map (fun t => t.worker.newFds.sizeApprox) =
          some 2 := by
        decide +kernel
      rw [ht, Option.map_some, Option.some.injEq] at hsize
      exact Or.inl (by omega)
    | inr hbefore =>
      have hmem : HandoffStep.register ∈ twoAssigned := hbefore.subset (by simp)
      exact absurd hmem (by decide)
  obtain ⟨-, hregistered⟩ := handoff_announced_iff (by norm_num) hrun
  exact ⟨h, hrun, hpipe, haccepted,
    hregistered hpops _ (List.prefix_refl _) h hrun hassigning hdraining hpipe⟩

/-- Sixty-five connections, and then one wakeup. -/
def burst : List HandoffStep :=
  ((List.range 65).flatMap fun fd => [.push fd, .wake]) ++ [.drain, .register]

/-- Of 65 connections that are assigned before the worker wakes up, one stays in the ring of an
idle worker with nothing in its pipe. -/
theorem burst_leaves_connection_unannounced :
    ∃ h, Handoff.run 65536 burst = some h ∧ h.worker.registered.length = 64 ∧
      h.accepted.length = 65 ∧ ¬ h.Announced := by
  have hstate : (Handoff.run 65536 burst).map (fun h => (h.worker.registered.length,
      h.accepted.length, h.assigning, h.draining, h.worker.newFds.emptyApprox,
      h.worker.wakeupPipe)) = some (64, 65, false, false, false, 0) := by
    decide +kernel
  obtain ⟨h, hrun, hfacts⟩ := Option.map_eq_some_iff.mp hstate
  simp only [Prod.mk.injEq] at hfacts
  obtain ⟨hreg, hacc, hassigning, hdraining, hnonempty, hpipe⟩ := hfacts
  refine ⟨h, hrun, hreg, hacc, ?_⟩
  intro hannounced
  have hbyte := hannounced hassigning hdraining hnonempty
  omega

end StrikeMQ.Analysis.ConnectionHandoff
