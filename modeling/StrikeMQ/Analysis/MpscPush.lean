import StrikeMQ.Analysis.MpscQueue

/-!
# When a push finds no room

`try_push` compares a head that it loaded some time ago with the tail as it is now. The number of
indices between them is at most what was claimed and not yet popped when the head was loaded, so a
push that finds the capacity between them was called in vain: the ring was full at that moment.
But the consumer may pop, by the time of the comparison, all that was there when the head was
loaded, and what was pushed since. Then the tail is past the head, the difference wraps around,
and the push returns false though the ring may have been all but empty all the time.
-/

set_option autoImplicit false

namespace StrikeMQ.Analysis.MpscPush

open StrikeMQ.Lib StrikeMQ.Model StrikeMQ.Interface StrikeMQ.Analysis.MpscQueue

variable {α : Type} {k : ℕ}

/-- As many indices are claimed and not yet popped as the ring has slots. -/
def Full {capacity : ℕ} (s : MpscState α capacity) : Prop :=
  s.claimed.length = s.received.length + capacity

section Steps

variable {capacity : ℕ} {s s' : MpscState α capacity} {moved : α → α}

/-- INTERNAL: **the ways to the comparison.** A producer is about to load the tail because it was
so before, or because it has just loaded the head. -/
theorem loadTail_cases {a : MpscStep α} (hs : s.step moved a = some s') {p head : ℕ} {item : α}
    (hp : s'.producers p = .loadTail item head) :
    s.producers p = .loadTail item head ∨ head = s.ring.head := by
  have hmoved {q : ℕ} {b : MpscProducer α} (hproducers : s'.producers = Function.update s.producers q b)
      (hb : ∀ item head, b = .loadTail item head → head = s.ring.head) :
      s.producers p = .loadTail item head ∨ head = s.ring.head := by
    rw [hproducers] at hp
    by_cases hpq : p = q
    · subst hpq
      rw [Function.update_self] at hp
      exact Or.inr (hb item head hp)
    · rw [Function.update_of_ne hpq] at hp
      exact Or.inl hp
  cases a with
  | tryPush q item' =>
    simp only [MpscState.step] at hs
    split at hs <;> cases hs
    exact hmoved rfl fun _ _ h => by cases h
  | tryPop =>
    simp only [MpscState.step] at hs
    split at hs <;> cases hs
    exact Or.inl hp
  | produce q spurious =>
    obtain ⟨-, b, hproducers, hb, -⟩ := produce_cases hs
    exact hmoved hproducers hb
  | consume =>
    rw [(consume_cases hs).1] at hp
    exact Or.inl hp

/-- INTERNAL: **the only way to fail.** -/
theorem exists_loadTail_of_false {p : ℕ} {spurious : Bool}
    (hs : s.step moved (.produce p spurious) = some s')
    (hfalse : s'.producers p = .idle (some false)) :
    ∃ item head, s.producers p = .loadTail item head ∧
      capacity ≤ toUInt64 ((head : ℤ) - s.ring.tail) := by
  obtain ⟨-, a, hproducers, -, hfull, -⟩ := produce_cases hs
  rw [hproducers, Function.update_self] at hfalse
  exact hfull hfalse

end Steps

/-! ## A call -/

/-- INTERNAL: the producer that is about to load the tail loaded the head at some moment of its
call; since then nothing was taken back. -/
theorem exists_load {moved : α → α} {storage : ℕ → α} {before during : List (MpscStep α)} {p : ℕ}
    {item : α} {s : MpscState α (2 ^ k)}
    (hrun : MpscState.run moved storage (before ++ .tryPush p item :: during) = some s)
    (hbound : s.claimed.length < 2 ^ 64) {item' : α} {head : ℕ}
    (hp : s.producers p = .loadTail item' head) :
    ∃ earlier, earlier <+: during ∧ ∃ s₀ : MpscState α (2 ^ k),
      MpscState.run moved storage (before ++ .tryPush p item :: earlier) = some s₀ ∧
      s₀.claimed.length = head ∧ s₀.received.length ≤ s.received.length := by
  induction during using List.reverseRecOn generalizing s with
  | nil =>
    -- the call has just begun
    obtain ⟨s₁, -, hs⟩ := foldlM_concat_eq_some_iff.mp hrun
    simp only [MpscState.step] at hs
    split at hs <;> cases hs
    rw [producers_withProducer_self] at hp
    cases hp
  | append_singleton during a ih =>
    rw [← List.cons_append, ← List.append_assoc] at hrun
    obtain ⟨s₁, hrun₁, hs⟩ := foldlM_concat_eq_some_iff.mp hrun
    obtain ⟨hclaimed, hgrows⟩ := histories_step hs
    have hreceived : s₁.received <+: s.received := hgrows ▸ List.prefix_append _ _
    have hbound₁ : s₁.claimed.length < 2 ^ 64 := lt_of_le_of_lt hclaimed.length_le hbound
    rcases loadTail_cases hs hp with hbefore | hhead
    · obtain ⟨earlier, hpre, s₀, hrun₀, hlen, hle⟩ := ih hrun₁ hbound₁ hbefore
      exact ⟨earlier, hpre.trans (List.prefix_append _ _), s₀, hrun₀, hlen,
        hle.trans hreceived.length_le⟩
    · refine ⟨during, List.prefix_append _ _, s₁, hrun₁, ?_, hreceived.length_le⟩
      rw [hhead, (inv_run hrun₁ hbound₁).head_eq]

/-- PROPERTY: a push that returns false was called in vain. For every power of two as the capacity,
any number of producers, every interleaving in which fewer than 2^64 indices are claimed, and every
call of `try_push` in it (from its first step to the access that returns false): if the tail has not
passed the head that the producer compares it with, then at some moment of the call as many indices
were claimed and not yet popped as the ring has slots.
SOURCE: utils/ring_buffer.h:95-116 -/
theorem push_fails_only_when_full (moved : α → α) (storage : ℕ → α)
    (before during : List (MpscStep α)) (p : ℕ) (item : α) (spurious : Bool)
    {s s' : MpscState α (2 ^ k)}
    (hrun : MpscState.run moved storage (before ++ .tryPush p item :: during) = some s)
    (hstep : s.step moved (.produce p spurious) = some s')
    (hfalse : s'.producers p = .idle (some false)) (hbound : s.claimed.length < 2 ^ 64)
    (hpassed : ∀ item' head, s.producers p = .loadTail item' head → s.ring.tail ≤ head) :
    ∃ earlier, earlier <+: during ∧ ∃ s₀ : MpscState α (2 ^ k),
      MpscState.run moved storage (before ++ .tryPush p item :: earlier) = some s₀ ∧ Full s₀ := by
  obtain ⟨item', head, hp, hroom⟩ := exists_loadTail_of_false hstep hfalse
  obtain ⟨earlier, hpre, s₀, hrun₀, hlen, hle⟩ := exists_load hrun hbound hp
  refine ⟨earlier, hpre, s₀, hrun₀, ?_⟩
  have htail := hpassed item' head hp
  have hinv := inv_run hrun hbound
  have hhead : head ≤ s.claimed.length := by
    have hclaim := hinv.claiming p
    rw [hp] at hclaim
    exact hclaim
  rw [hinv.tail_eq] at hroom htail
  have hsub : ((head : ℤ) - (s.received.length : ℕ)) % 2 ^ 64 =
      (head : ℤ) - (s.received.length : ℕ) := Int.emod_eq_of_lt (by omega) (by omega)
  unfold toUInt64 at hroom
  rw [hsub] at hroom
  have hsize := (inv_run hrun₀ (by omega)).size_le
  unfold Full
  omega

/-- A ring of one slot, which producer 0 has claimed; producer 1 finds no room. -/
theorem push_fails_only_when_full_one_slot :
    ∃ earlier, earlier <+: [MpscStep.produce 1 false] ∧ ∃ s₀ : MpscState ℕ (2 ^ 0),
      MpscState.run (fun _ => 0) (fun _ => 0) ([.tryPush 0 7, .produce 0 false, .produce 0 false,
        .produce 0 false] ++ .tryPush 1 8 :: earlier) = some s₀ ∧ Full s₀ := by
  obtain ⟨s, s', hrun, hp, hclaimed, htail, hstep, hfalse⟩ : ∃ s s' : MpscState ℕ (2 ^ 0),
      MpscState.run (fun _ => 0) (fun _ => 0) ([.tryPush 0 7, .produce 0 false, .produce 0 false,
        .produce 0 false] ++ .tryPush 1 8 :: [.produce 1 false]) = some s ∧
      s.producers 1 = .loadTail 8 1 ∧ s.claimed = [7] ∧ s.ring.tail = 0 ∧
      s.step (fun _ => 0) (.produce 1 false) = some s' ∧ s'.producers 1 = .idle (some false) :=
    ⟨_, _, rfl, rfl, rfl, rfl, rfl, rfl⟩
  refine push_fails_only_when_full (fun _ => 0) (fun _ => 0) _ _ 1 8 false hrun hstep
    hfalse (by rw [hclaimed]; decide) fun item' head hload => ?_
  rw [htail]
  exact Nat.zero_le head

/-- INTERNAL: a comparison with a tail that has passed the head fails, whatever the ring holds. -/
theorem push_fails_of_passed {moved : α → α} {storage : ℕ → α} {steps : List (MpscStep α)}
    {s : MpscState α (2 ^ k)} (hrun : MpscState.run moved storage steps = some s)
    (hbound : s.claimed.length + 2 ^ k ≤ 2 ^ 64) {p head : ℕ} {item : α}
    (hp : s.producers p = .loadTail item head) (hpassed : head < s.ring.tail) (spurious : Bool) :
    ∃ s', s.step moved (.produce p spurious) = some s' ∧ s'.producers p = .idle (some false) := by
  have hpos : 0 < 2 ^ k := Nat.two_pow_pos k
  have hinv := inv_run hrun (by omega)
  have hle := hinv.received_le
  rw [hinv.tail_eq] at hpassed
  have hwraps : toUInt64 ((head : ℤ) - s.ring.tail) ≥ 2 ^ k := by
    have hsub : ((head : ℤ) - (s.received.length : ℕ)) % 2 ^ 64 =
        (head : ℤ) - (s.received.length : ℕ) + 2 ^ 64 := by
      rw [← Int.add_emod_right, Int.emod_eq_of_lt (by omega) (by omega)]
    rw [hinv.tail_eq]
    unfold toUInt64
    rw [hsub]
    omega
  refine ⟨s.withProducer p (.idle (some false)), ?_, producers_withProducer_self _ _ _⟩
  simp only [MpscState.step, MpscState.produce, hp, if_pos hwraps]

/-- Between the two loads of producer 0, producer 1 pushes an item and the consumer pops it. -/
def overtaken : List (MpscStep ℕ) :=
  [.produce 0 false, .tryPush 1 8, .produce 1 false, .produce 1 false, .produce 1 false,
    .produce 1 false, .produce 1 false, .tryPop, .consume, .consume, .consume, .consume, .consume,
    .consume]

/-- A ring of two slots, of which never more than one is in use. The push of producer 0 returns
false. -/
theorem push_fails_though_never_full :
    (∃ s s' : MpscState ℕ (2 ^ 1),
      MpscState.run (fun _ => 0) (fun _ => 0) ([] ++ .tryPush 0 7 :: overtaken) = some s ∧
      s.step (fun _ => 0) (.produce 0 false) = some s' ∧
      s'.producers 0 = .idle (some false)) ∧
    ∀ earlier, earlier <+: overtaken → ∀ s₀ : MpscState ℕ (2 ^ 1),
      MpscState.run (fun _ => 0) (fun _ => 0) ([] ++ .tryPush 0 7 :: earlier) = some s₀ →
        ¬ Full s₀ := by
  refine ⟨⟨_, _, rfl, rfl, rfl⟩, fun earlier hpre s₀ hrun hfull => ?_⟩
  have hsizes : ∀ earlier ∈ overtaken.inits,
      ((MpscState.run (fun _ => 0) (fun _ => 0) ([] ++ .tryPush 0 7 :: earlier) :
        Option (MpscState ℕ (2 ^ 1))).map fun s => (s.claimed.length, s.received.length)) ∈
        [some (0, 0), some (1, 0), some (1, 1)] := by decide
  have hsize := hsizes earlier ((List.mem_inits _ _).mpr hpre)
  unfold Full at hfull
  rw [hrun, Option.map_some] at hsize
  simp only [List.mem_cons, List.not_mem_nil, or_false, Option.some.injEq, Prod.mk.injEq] at hsize
  omega

end StrikeMQ.Analysis.MpscPush
