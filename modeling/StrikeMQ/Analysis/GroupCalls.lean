import StrikeMQ.Lib.FiniteMap
import StrikeMQ.Interface.GroupHistory

/-!
# What each call does to its group

Every call reads one group and stores at most that one. The lemmas say, for each operation of
the manager, which group it stores and under which guard, so that no later argument opens an
operation again.
-/

set_option autoImplicit false

namespace StrikeMQ.Analysis.GroupCalls

open StrikeMQ.Lib StrikeMQ.Model StrikeMQ.Interface
open StrikeMQ.Model.ConsumerGroupManager

/-- INTERNAL: the group a JoinGroup works on. -/
def joining (mgr : ConsumerGroupManager) (req : JoinGroupRequest) : ConsumerGroup :=
  { mgr.groupOrNew req.groupId with groupId := req.groupId }

theorem generateMemberId_ne_nil (env : GroupEnv) (clientId : Bytes) :
    generateMemberId env clientId ≠ [] := by
  simp [generateMemberId, ascii]

/-- INTERNAL: the outcomes of a JoinGroup: a new generation, a stable group as it is, or a
refusal, which only a group with members gives. -/
theorem joinGroup_cases (env : GroupEnv) (mgr : ConsumerGroupManager) (req : JoinGroupRequest) :
    (∃ memberId, memberId ≠ [] ∧
      mgr.joinGroup env req =
        (mgr.put req.groupId (addMember env (joining mgr req) req memberId),
          joinResponse env (addMember env (joining mgr req) req memberId) memberId)) ∨
    (∃ member, (joining mgr req).members.lookup req.memberId = some member ∧
      (joining mgr req).state = .stable ∧
      mgr.joinGroup env req =
        (mgr.put req.groupId (rejoinStable env (joining mgr req) req member),
          joinResponse env (rejoinStable env (joining mgr req) req member) req.memberId)) ∨
    ((joining mgr req).members.entries ≠ [] ∧
      mgr.joinGroup env req =
        (mgr.put req.groupId (joining mgr req),
          { errorCode := 25, memberId := req.memberId, generationId := -1 })) := by
  unfold joinGroup
  simp only
  split
  · exact Or.inl ⟨_, generateMemberId_ne_nil _ _, rfl⟩
  · next hid =>
    split
    · next member hmember =>
      split
      · next hstable => exact Or.inr (Or.inl ⟨member, hmember, hstable, rfl⟩)
      · exact Or.inl ⟨_, hid, rfl⟩
    · split
      · next hmembers => exact Or.inr (Or.inr ⟨hmembers.1, rfl⟩)
      · exact Or.inl ⟨_, hid, rfl⟩

/-- INTERNAL: the outcomes of a SyncGroup: refused, or accepted. -/
theorem syncGroup_cases (mgr : ConsumerGroupManager) (req : SyncGroupRequest) :
    ((mgr.syncGroup req).1 = mgr ∧ (mgr.syncGroup req).2.errorCode ≠ 0 ∧ ¬ FromLeader mgr req) ∨
    ∃ group, mgr.groups.lookup req.groupId = some group ∧ req.memberId ∈ group.members ∧
      req.generationId = group.generationId := by
  unfold syncGroup
  cases hgroup : mgr.groups.lookup req.groupId with
  | none =>
    left
    refine ⟨rfl, by simp, ?_⟩
    rintro ⟨g, hg, -⟩
    rw [hgroup] at hg
    exact absurd hg (by simp)
  | some group =>
    by_cases hmem : req.memberId ∈ group.members
    · by_cases hgen : req.generationId = group.generationId
      · right
        exact ⟨group, rfl, hmem, hgen⟩
      · left
        refine ⟨by simp [hmem, hgen], by simp [hmem, hgen], ?_⟩
        rintro ⟨g, hg, -, hgen', -⟩
        obtain rfl : group = g := Option.some.inj (hgroup.symm.trans hg)
        exact hgen hgen'
    · left
      refine ⟨by simp [hmem], by simp [hmem], ?_⟩
      rintro ⟨g, hg, hmem', -⟩
      obtain rfl : group = g := Option.some.inj (hgroup.symm.trans hg)
      exact hmem hmem'

theorem syncGroup_accept {mgr : ConsumerGroupManager} {req : SyncGroupRequest}
    {group : ConsumerGroup} (hgroup : mgr.groups.lookup req.groupId = some group)
    (hmem : req.memberId ∈ group.members) (hgen : req.generationId = group.generationId) :
    mgr.syncGroup req = (mgr.put req.groupId (acceptSync group req),
      { errorCode := 0
        memberAssignment := (((acceptSync group req).members.lookup req.memberId).map
          MemberMetadata.assignment).getD [] }) := by
  simp [syncGroup, hgroup, hmem, hgen]

/-- INTERNAL: the group as a heartbeat of a member touches it. -/
def touched (env : GroupEnv) (group : ConsumerGroup) (memberId : Bytes)
    (member : MemberMetadata) : ConsumerGroup :=
  { group with
    members := group.members.insert memberId { member with lastHeartbeatMs := env.now } }

/-- INTERNAL: the outcomes of a heartbeat: refused, or accepted from a member of the current
generation. -/
theorem heartbeat_cases (env : GroupEnv) (mgr : ConsumerGroupManager) (req : HeartbeatRequest) :
    ((mgr.heartbeat env req).1 = mgr ∧ (mgr.heartbeat env req).2 ≠ 0) ∨
    ∃ group member, mgr.groups.lookup req.groupId = some group ∧
      group.members.lookup req.memberId = some member ∧
      req.generationId = group.generationId := by
  unfold heartbeat
  split
  · exact Or.inl ⟨rfl, by simp⟩
  · next group hgroup =>
    split
    · exact Or.inl ⟨rfl, by simp⟩
    · next member hmember =>
      split
      · exact Or.inl ⟨rfl, by simp⟩
      · next hgen => exact Or.inr ⟨group, member, hgroup, hmember, not_not.mp hgen⟩

theorem heartbeat_accept (env : GroupEnv) {mgr : ConsumerGroupManager} {req : HeartbeatRequest}
    {group : ConsumerGroup} {member : MemberMetadata}
    (hgroup : mgr.groups.lookup req.groupId = some group)
    (hmember : group.members.lookup req.memberId = some member)
    (hgen : req.generationId = group.generationId) :
    mgr.heartbeat env req =
      (mgr.put req.groupId (checkSessionTimeouts env (touched env group req.memberId member)),
        if (checkSessionTimeouts env (touched env group req.memberId member)).state =
            .preparingRebalance ∨
          (checkSessionTimeouts env (touched env group req.memberId member)).state =
            .completingRebalance then 27
        else 0) := by
  simp only [heartbeat, hgroup, hmember, hgen, ne_eq, not_true_eq_false, if_false]
  rfl

/-- INTERNAL: what is left of the members when the expired ones are gone. -/
def remaining (env : GroupEnv) (group : ConsumerGroup) : Members :=
  (expiredMembers env group).foldl (fun ms id => ms.erase id) group.members

/-- INTERNAL: the outcomes of session expiry: nobody, everybody or some. -/
theorem checkSessionTimeouts_cases (env : GroupEnv) (group : ConsumerGroup) :
    checkSessionTimeouts env group = group ∨
    ((remaining env group).entries = [] ∧
      checkSessionTimeouts env group =
        { group with members := remaining env group, state := .empty, leaderId := [] }) ∨
    ((remaining env group).entries ≠ [] ∧
      checkSessionTimeouts env group =
        { group with
          members := remaining env group
          leaderId :=
            if group.leaderId ∉ remaining env group then firstMember env (remaining env group)
            else group.leaderId
          generationId := toInt32 (group.generationId + 1)
          state := .preparingRebalance }) := by
  unfold checkSessionTimeouts
  simp only
  split
  · exact Or.inl rfl
  · split
    · next hnone => exact Or.inr (Or.inl ⟨hnone, rfl⟩)
    · next hsome => exact Or.inr (Or.inr ⟨hsome, rfl⟩)

/-- INTERNAL: the outcomes of a departure: an empty group or a smaller one. -/
theorem removeMember_cases (env : GroupEnv) (group : ConsumerGroup) (memberId : Bytes) :
    ((group.members.erase memberId).entries = [] ∧
      removeMember env group memberId =
        { group with
          members := group.members.erase memberId
          state := .empty
          generationId := toInt32 (group.generationId + 1)
          leaderId := [] }) ∨
    ((group.members.erase memberId).entries ≠ [] ∧
      removeMember env group memberId =
        { group with
          members := group.members.erase memberId
          leaderId :=
            if memberId = group.leaderId then firstMember env (group.members.erase memberId)
            else group.leaderId
          generationId := toInt32 (group.generationId + 1)
          state := .preparingRebalance }) := by
  unfold removeMember
  simp only
  split
  · next hnone => exact Or.inl ⟨hnone, rfl⟩
  · next hsome => exact Or.inr ⟨hsome, rfl⟩

/-- INTERNAL: a leave changes nothing, or it removes its member. -/
theorem leaveGroup_cases (env : GroupEnv) (mgr : ConsumerGroupManager)
    (req : LeaveGroupRequest) :
    (mgr.leaveGroup env req).1 = mgr ∨
    ∃ group, mgr.groups.lookup req.groupId = some group ∧ req.memberId ∈ group.members ∧
      mgr.leaveGroup env req =
        (mgr.put req.groupId (removeMember env group req.memberId), 0) := by
  unfold leaveGroup
  split
  · exact Or.inl rfl
  · next group hgroup =>
    split
    · exact Or.inl rfl
    · next hmem => exact Or.inr ⟨group, hgroup, not_not.mp hmem, rfl⟩

/-- INTERNAL: a commit touches the committed offsets of a group and nothing else. -/
theorem foldl_commitOffset (ps : List OffsetCommitPartitionRequest) (group : ConsumerGroup) :
    ∃ offsets metadata, ps.foldl commitOffset group =
      { group with committedOffsets := offsets, offsetMetadata := metadata } := by
  induction ps generalizing group with
  | nil => exact ⟨_, _, rfl⟩
  | cons p ps ih =>
    obtain ⟨offsets, metadata, h⟩ := ih (commitOffset group p)
    exact ⟨offsets, metadata, h⟩

end StrikeMQ.Analysis.GroupCalls
