import StrikeMQ.Model.ConsumerGroup

/-!
# The protocol of one group

What a consumer group is for, without maps, clocks and messages: a set of members with a
leader, a protocol and a generation number, which passes from generation to generation as
members come and go. A member that has joined is told the generation, the leader and the
protocol, and the leader is also told who the members are.

The generation number fences the members off from each other: as long as it does not run
through all 32-bit values, everything a member was told in the current generation is still
true, and what two members were told in the same generation agrees. The last holds without a
word about who sent which request.
-/

set_option autoImplicit false

namespace StrikeMQ.Interface

open StrikeMQ.Lib StrikeMQ.Model

structure GroupView where
  state : GroupState
  generation : ℤ
  protocolName : Bytes
  leaderId : Bytes
  memberIds : Finset Bytes

/-- What a member is told when it has joined. -/
structure JoinAnswer where
  generation : ℤ
  protocolName : Bytes
  leaderId : Bytes
  memberId : Bytes
  memberIds : Finset Bytes

namespace GroupView

/-- A group that nobody has joined. -/
def new : GroupView where
  state := .empty
  generation := 0
  protocolName := []
  leaderId := []
  memberIds := ∅

/-- What the group has to tell a member. -/
def answer (v : GroupView) (memberId : Bytes) : JoinAnswer where
  generation := v.generation
  protocolName := v.protocolName
  leaderId := v.leaderId
  memberId := memberId
  memberIds := if memberId = v.leaderId then v.memberIds else ∅

/-- The next generation, with `memberId` among its members. -/
def joined (v : GroupView) (memberId protocolName : Bytes) : GroupView where
  state := .completingRebalance
  generation := toInt32 (v.generation + 1)
  protocolName := protocolName
  leaderId :=
    if v.leaderId = [] ∨ v.leaderId ∉ insert memberId v.memberIds then memberId else v.leaderId
  memberIds := insert memberId v.memberIds

/-- What can happen to a group, and what is answered. -/
inductive Step : GroupView → Option JoinAnswer → GroupView → Prop
  | quiet (v : GroupView) : Step v none v
  | rejoin {v : GroupView} {memberId : Bytes} : v.state = .stable → memberId ∈ v.memberIds →
      Step v (some (v.answer memberId)) v
  | join (v : GroupView) {memberId : Bytes} (protocolName : Bytes) : memberId ≠ [] →
      Step v (some ((v.joined memberId protocolName).answer memberId))
        (v.joined memberId protocolName)
  | settle {v : GroupView} : v.leaderId ∈ v.memberIds → Step v none { v with state := .stable }
  | shrink {v : GroupView} {kept : Finset Bytes} {leaderId : Bytes} : kept ⊆ v.memberIds →
      kept ≠ ∅ → (v.leaderId ∈ v.memberIds → leaderId ∈ kept) →
      Step v none
        { v with
          state := .preparingRebalance
          generation := toInt32 (v.generation + 1)
          leaderId := leaderId
          memberIds := kept }
  | vacate {v : GroupView} {generation : ℤ} :
      generation = v.generation ∨ generation = toInt32 (v.generation + 1) →
      Step v none
        { v with state := .empty, generation := generation, leaderId := [], memberIds := ∅ }

/-! ## Members, state and leader -/

/-- Members, state and leader agree. -/
structure Sound (v : GroupView) : Prop where
  state_iff : v.memberIds = ∅ ↔ v.state = .empty
  leader_iff : v.memberIds = ∅ ↔ v.leaderId = []
  leader_mem : v.memberIds ≠ ∅ → v.leaderId ∈ v.memberIds
  ids_ne : [] ∉ v.memberIds

theorem sound_new : Sound new where
  state_iff := by simp [new]
  leader_iff := by simp [new]
  leader_mem h := absurd rfl h
  ids_ne := by simp [new]

/-- In a group with members, what is left to say is who leads and in what state it is. -/
theorem sound_of_nonempty {v : GroupView} (hne : v.memberIds ≠ ∅) (hstate : v.state ≠ .empty)
    (hleader : v.leaderId ∈ v.memberIds) (hids : [] ∉ v.memberIds) : Sound v where
  state_iff := iff_of_false hne hstate
  leader_iff := by
    refine iff_of_false hne fun hnil => hids ?_
    rwa [hnil] at hleader
  leader_mem _ := hleader
  ids_ne := hids

theorem leaderId_joined_mem (v : GroupView) (memberId protocolName : Bytes) :
    (v.joined memberId protocolName).leaderId ∈ (v.joined memberId protocolName).memberIds := by
  simp only [joined]
  split
  · exact Finset.mem_insert_self _ _
  · next h => exact not_not.mp fun hout => h (Or.inr hout)

theorem Sound.step {v v' : GroupView} {a : Option JoinAnswer} (h : Sound v)
    (hstep : Step v a v') : Sound v' := by
  cases hstep with
  | quiet => exact h
  | rejoin => exact h
  | join protocolName hne =>
    refine sound_of_nonempty (Finset.insert_ne_empty _ _) (by simp [joined])
      (leaderId_joined_mem v _ _) ?_
    intro hnil
    cases Finset.mem_insert.mp hnil with
    | inl heq => exact hne heq.symm
    | inr hold => exact h.ids_ne hold
  | settle hleader =>
    exact sound_of_nonempty (Finset.ne_empty_of_mem hleader) (by simp) hleader h.ids_ne
  | shrink hsub hne hleader =>
    have hmembers : v.memberIds ≠ ∅ := by
      intro hempty
      rw [hempty] at hsub
      exact hne (Finset.subset_empty.mp hsub)
    exact sound_of_nonempty hne (by simp) (hleader (h.leader_mem hmembers))
      fun hnil => h.ids_ne (hsub hnil)
  | vacate =>
    exact ⟨by simp, by simp, fun hne => absurd rfl hne, by simp⟩

/-! ## What members were told -/

/-- What members were told is true as long as their generation lasts, and agrees within each
generation. -/
structure Fenced (answers : List JoinAnswer) (v : GroupView) : Prop where
  nonneg : 0 ≤ v.generation
  le : ∀ a ∈ answers, a.generation ≤ v.generation
  current : ∀ a ∈ answers, a.generation = v.generation → v.memberIds ≠ ∅ →
    a = v.answer a.memberId ∧ (v.state = .completingRebalance ∨ v.state = .stable)
  agree : ∀ a ∈ answers, ∀ b ∈ answers, a.generation = b.generation →
    a.leaderId = b.leaderId ∧ a.protocolName = b.protocolName

theorem fenced_new : Fenced [] new where
  nonneg := le_refl _
  le := by simp
  current := by simp
  agree := by simp

variable {answers : List JoinAnswer} {v : GroupView}

/-- A generation that is not the last 32-bit one has a successor. -/
theorem Fenced.next_generation (h : Fenced answers v) (hlt : v.generation < 2 ^ 31 - 1) :
    toInt32 (v.generation + 1) = v.generation + 1 := by
  have hpos := h.nonneg
  exact toInt32_of_fits (by omega) (by omega)

/-- Nobody has been told anything in a new generation yet. -/
theorem Fenced.renew (h : Fenced answers v) (hlt : v.generation < 2 ^ 31 - 1) {v' : GroupView}
    (hgen : v'.generation = toInt32 (v.generation + 1)) : Fenced answers v' := by
  rw [h.next_generation hlt] at hgen
  have hpos := h.nonneg
  refine ⟨by omega, ?_, ?_, h.agree⟩
  · intro a ha
    have hle := h.le a ha
    omega
  · intro a ha heq
    have hle := h.le a ha
    omega

/-- What is told to a member of the current generation agrees with what was told before. -/
theorem Fenced.tell (h : Fenced answers v) {memberId : Bytes} (hne : v.memberIds ≠ ∅)
    (hstate : v.state = .completingRebalance ∨ v.state = .stable) :
    Fenced (answers ++ [v.answer memberId]) v := by
  have hcurrent : ∀ a ∈ answers ++ [v.answer memberId], a.generation = v.generation →
      a = v.answer a.memberId := by
    intro a ha hgen
    cases List.mem_append.mp ha with
    | inl hold => exact (h.current a hold hgen hne).1
    | inr hnew =>
      obtain rfl := List.mem_singleton.mp hnew
      rfl
  refine ⟨h.nonneg, ?_, fun a ha hgen _ => ⟨hcurrent a ha hgen, hstate⟩, ?_⟩
  · intro a ha
    cases List.mem_append.mp ha with
    | inl hold => exact h.le a hold
    | inr hnew =>
      obtain rfl := List.mem_singleton.mp hnew
      exact le_refl _
  · intro a ha b hb hgen
    by_cases hnow : a.generation = v.generation
    · rw [hcurrent a ha hnow, hcurrent b hb (hgen.symm.trans hnow)]
      exact ⟨rfl, rfl⟩
    · -- neither of the two is the new answer
      have hold : ∀ c ∈ answers ++ [v.answer memberId], c.generation = a.generation →
          c ∈ answers := by
        intro c hc hcgen
        cases List.mem_append.mp hc with
        | inl hold => exact hold
        | inr hnew =>
          obtain rfl := List.mem_singleton.mp hnew
          exact absurd hcgen.symm hnow
      exact h.agree a (hold a ha rfl) b (hold b hb hgen.symm) hgen

theorem Fenced.step (h : Fenced answers v) (hlt : v.generation < 2 ^ 31 - 1) {v' : GroupView}
    {a : Option JoinAnswer} (hstep : Step v a v') : Fenced (answers ++ a.toList) v' := by
  cases hstep with
  | quiet =>
    rw [Option.toList_none, List.append_nil]
    exact h
  | rejoin hstable hmem => exact h.tell (Finset.ne_empty_of_mem hmem) (Or.inr hstable)
  | join protocolName hne =>
    exact (h.renew hlt rfl).tell (Finset.insert_ne_empty _ _) (Or.inl rfl)
  | settle hleader =>
    rw [Option.toList_none, List.append_nil]
    refine ⟨h.nonneg, h.le, ?_, h.agree⟩
    intro a ha hgen hmembers
    exact ⟨(h.current a ha hgen hmembers).1, Or.inr rfl⟩
  | shrink hsub hne hleader =>
    rw [Option.toList_none, List.append_nil]
    exact h.renew hlt rfl
  | vacate hgen =>
    rw [Option.toList_none, List.append_nil]
    cases hgen with
    | inl hsame =>
      subst hsame
      exact ⟨h.nonneg, h.le, fun _ _ _ hmembers => absurd rfl hmembers, h.agree⟩
    | inr hnext =>
      subst hnext
      exact h.renew hlt rfl

end GroupView

end StrikeMQ.Interface
