import StrikeMQ.Analysis.GroupSafety

/-!
# Session expiry

A heartbeat renews its sender and then drops every member whose session is over, on a second
reading of the clock and with the timeouts the clients chose. Joins, departures and expiries
that leave somebody behind start a new generation. An expiry of everybody does not: the group
is emptied under the generation it had, and the heartbeat that did it, whose sender is gone as
well, is answered as if nothing had happened.

So both guarantees a client takes from a generation hold for every call but such a heartbeat:
that the members are the same as long as the generation is, and that a heartbeat answered
without an error comes from a member of a stable group.
-/

set_option autoImplicit false

namespace StrikeMQ.Analysis.SessionExpiry

open StrikeMQ.Lib StrikeMQ.Model StrikeMQ.Interface
open StrikeMQ.Model.ConsumerGroupManager
open StrikeMQ.Analysis.GroupCalls StrikeMQ.Analysis.GroupRefinement
open StrikeMQ.Analysis.GroupSafety

/-! ## Who expires -/

/-- The session of the member is over when the sweep reads the clock.
SOURCE: storage/consumer_group.h:404-405 -/
def Expired (env : GroupEnv) (m : MemberMetadata) : Prop :=
  0 < m.lastHeartbeatMs ∧ m.sessionTimeoutMs < env.nowCheck - m.lastHeartbeatMs

instance (env : GroupEnv) (m : MemberMetadata) : Decidable (Expired env m) :=
  inferInstanceAs (Decidable (_ ∧ _))

/-- The call is a heartbeat of a member of the group's current generation, and finds the
sessions of all members over, that of its sender, renewed at the first reading of the clock,
included. -/
def Vacates (mgr : ConsumerGroupManager) (groupId : Bytes) : GroupCall → Prop
  | .heartbeat env req => req.groupId = groupId ∧
      ∃ group member, mgr.groups.lookup groupId = some group ∧
        group.members.lookup req.memberId = some member ∧
        req.generationId = group.generationId ∧
        Expired env { member with lastHeartbeatMs := env.now } ∧
        ∀ id m, group.members.lookup id = some m → id ≠ req.memberId → Expired env m
  | _ => False

/-- INTERNAL: the expired members are those whose session has run out. -/
theorem mem_expiredMembers {env : GroupEnv} {group : ConsumerGroup} {id : Bytes} :
    id ∈ expiredMembers env group ↔ ∃ m, group.members.lookup id = some m ∧ Expired env m := by
  have hwalk : ∀ m, (id, m) ∈ env.order group.members ↔ group.members.lookup id = some m := by
    intro m
    rw [(env.order_perm group.members).mem_iff, ← Option.mem_def, AList.mem_lookup_iff,
      List.mem_map]
    constructor
    · rintro ⟨⟨id', m'⟩, hmem, heq⟩
      cases heq
      exact hmem
    · intro hmem
      exact ⟨⟨id, m⟩, hmem, rfl⟩
  simp only [expiredMembers, List.mem_map, List.mem_filter, decide_eq_true_eq, Prod.exists,
    exists_and_right, exists_eq_right, hwalk, Expired, gt_iff_lt]

/-- INTERNAL: nobody is left exactly if every session is over. -/
theorem remaining_eq_nil_iff {env : GroupEnv} {group : ConsumerGroup} :
    (remaining env group).entries = [] ↔
      ∀ id m, group.members.lookup id = some m → Expired env m := by
  rw [← toFinset_keys_eq_empty, Finset.eq_empty_iff_forall_notMem]
  simp only [mem_toFinset_keys, remaining, mem_foldl_erase, not_and, not_not, mem_expiredMembers]
  constructor
  · intro hgone id m hm
    obtain ⟨m', hm', hexpired⟩ := hgone id (mem_of_lookup hm)
    obtain rfl : m = m' := Option.some.inj (hm.symm.trans hm')
    exact hexpired
  · intro hall id hid
    obtain ⟨m, hm⟩ := Option.isSome_iff_exists.mp (AList.lookup_isSome.mpr hid)
    exact ⟨m, hm, hall id m hm⟩

/-- INTERNAL: an expiry of everybody keeps the generation. -/
theorem checkSessionTimeouts_of_all {env : GroupEnv} {group : ConsumerGroup} {id : Bytes}
    (hid : id ∈ group.members)
    (hall : ∀ id m, group.members.lookup id = some m → Expired env m) :
    checkSessionTimeouts env group =
      { group with members := remaining env group, state := .empty, leaderId := [] } := by
  obtain ⟨m, hm⟩ := Option.isSome_iff_exists.mp (AList.lookup_isSome.mpr hid)
  have hexpired : expiredMembers env group ≠ [] :=
    List.ne_nil_of_mem (mem_expiredMembers.mpr ⟨m, hm, hall id m hm⟩)
  have hnone : (remaining env group).entries = [] := remaining_eq_nil_iff.mpr hall
  unfold remaining at hnone
  simp only [checkSessionTimeouts, hexpired, hnone, if_false, if_true]
  rfl

/-- INTERNAL: where a session goes on, the group stays as it is or starts a new generation. -/
theorem checkSessionTimeouts_of_not_all {env : GroupEnv} {group : ConsumerGroup}
    (hsome : ¬ ∀ id m, group.members.lookup id = some m → Expired env m) :
    checkSessionTimeouts env group = group ∨
      ((checkSessionTimeouts env group).generationId = toInt32 (group.generationId + 1) ∧
        (checkSessionTimeouts env group).state = .preparingRebalance) := by
  rcases checkSessionTimeouts_cases env group with hnobody | ⟨hnone, -⟩ | ⟨-, hrest⟩
  · exact Or.inl hnobody
  · exact absurd (remaining_eq_nil_iff.mp hnone) hsome
  · rw [hrest]
    exact Or.inr ⟨rfl, rfl⟩

/-! ## Heartbeats that empty their group -/

section Heartbeat

variable {env : GroupEnv} {mgr : ConsumerGroupManager} {req : HeartbeatRequest}
variable {group : ConsumerGroup} {member : MemberMetadata}

theorem forall_touched_iff :
    (∀ id m, (touched env group req.memberId member).members.lookup id = some m →
      Expired env m) ↔
    Expired env { member with lastHeartbeatMs := env.now } ∧
      ∀ id m, group.members.lookup id = some m → id ≠ req.memberId → Expired env m := by
  unfold touched
  constructor
  · intro hall
    refine ⟨hall req.memberId _ (AList.lookup_insert _), ?_⟩
    intro id m hm hne
    refine hall id m ?_
    rwa [AList.lookup_insert_ne hne]
  · rintro ⟨hsender, hothers⟩ id m hm
    by_cases hid : id = req.memberId
    · subst hid
      rw [AList.lookup_insert, Option.some.injEq] at hm
      rwa [← hm]
    · rw [AList.lookup_insert_ne hid] at hm
      exact hothers id m hm hid

/-- INTERNAL: a heartbeat that is accepted empties its group exactly if the sweep finds every
session over. -/
theorem vacates_iff (hgroup : mgr.groups.lookup req.groupId = some group)
    (hmember : group.members.lookup req.memberId = some member)
    (hgen : req.generationId = group.generationId) {groupId : Bytes} :
    Vacates mgr groupId (.heartbeat env req) ↔ req.groupId = groupId ∧
      ∀ id m, (touched env group req.memberId member).members.lookup id = some m →
        Expired env m := by
  rw [forall_touched_iff]
  constructor
  · rintro ⟨rfl, group', member', hgroup', hmember', -, hall⟩
    obtain rfl : group = group' := Option.some.inj (hgroup.symm.trans hgroup')
    obtain rfl : member = member' := Option.some.inj (hmember.symm.trans hmember')
    exact ⟨rfl, hall⟩
  · rintro ⟨rfl, hall⟩
    exact ⟨rfl, group, member, hgroup, hmember, hgen, hall⟩

/-- INTERNAL: what such a heartbeat leaves behind, and what it answers. -/
theorem heartbeat_vacates (hgroup : mgr.groups.lookup req.groupId = some group)
    (hmember : group.members.lookup req.memberId = some member)
    (hgen : req.generationId = group.generationId)
    (hall : ∀ id m, (touched env group req.memberId member).members.lookup id = some m →
      Expired env m) :
    ∃ group', mgr.heartbeat env req = (mgr.put req.groupId group', 0) ∧
      group'.generationId = group.generationId ∧ group'.members.entries = [] := by
  have hsender : req.memberId ∈ (touched env group req.memberId member).members :=
    AList.mem_insert _ |>.mpr (Or.inl rfl)
  rw [heartbeat_accept env hgroup hmember hgen, checkSessionTimeouts_of_all hsender hall]
  exact ⟨_, rfl, rfl, remaining_eq_nil_iff.mpr hall⟩

end Heartbeat

/-! ## Generations and members -/

/-- INTERNAL: the members are the same, or the generation is the next one. -/
def Renews (v v' : GroupView) : Prop :=
  v'.memberIds = v.memberIds ∨ v'.generation = toInt32 (v.generation + 1)

/-- INTERNAL: a call that stores its group renews every group if it renews that one. -/
theorem renews_put {mgr : ConsumerGroupManager} {id groupId : Bytes} {group' : ConsumerGroup}
    (hown : groupId = id → Renews (groupView (mgr.groupOrNew id)) (groupView group')) :
    Renews (groupView (mgr.groupOrNew groupId))
      (groupView ((mgr.put id group').groupOrNew groupId)) := by
  by_cases hid : groupId = id
  · have hrenews := hown hid
    rw [hid]
    rwa [groupOrNew_put]
  · rw [groupOrNew_put_ne hid]
    exact Or.inl rfl

/-- INTERNAL: a JoinGroup renews every group. -/
theorem renews_joinGroup (env : GroupEnv) (mgr : ConsumerGroupManager) (req : JoinGroupRequest)
    (groupId : Bytes) :
    Renews (groupView (mgr.groupOrNew groupId))
      (groupView ((mgr.joinGroup env req).1.groupOrNew groupId)) := by
  rcases joinGroup_cases env mgr req with ⟨id, -, hjoin⟩ | ⟨member, hmember, -, hjoin⟩ | ⟨-, hjoin⟩
  · rw [hjoin]
    exact renews_put fun _ => Or.inr rfl
  · rw [hjoin]
    exact renews_put fun _ => Or.inl (toFinset_keys_replace (mem_of_lookup hmember) _)
  · rw [hjoin]
    exact renews_put fun _ => Or.inl rfl

/-- INTERNAL: a SyncGroup renews every group. -/
theorem renews_syncGroup (mgr : ConsumerGroupManager) (req : SyncGroupRequest)
    (groupId : Bytes) :
    Renews (groupView (mgr.groupOrNew groupId))
      (groupView ((mgr.syncGroup req).1.groupOrNew groupId)) := by
  rcases syncGroup_cases mgr req with ⟨hsame, -, -⟩ | ⟨group, hgroup, hmem, hgen⟩
  · rw [hsame]
    exact Or.inl rfl
  · rw [syncGroup_accept hgroup hmem hgen]
    refine renews_put fun _ => Or.inl ?_
    rw [groupOrNew_of_lookup hgroup]
    unfold acceptSync
    split
    · exact toFinset_keys_storeAssignments _ _
    · rfl

/-- INTERNAL: a Heartbeat renews every group, unless it removes the last member. -/
theorem renews_heartbeat {env : GroupEnv} {mgr : ConsumerGroupManager} {req : HeartbeatRequest}
    {groupId : Bytes} (hkeeps : ¬ Vacates mgr groupId (.heartbeat env req)) :
    Renews (groupView (mgr.groupOrNew groupId))
      (groupView ((mgr.heartbeat env req).1.groupOrNew groupId)) := by
  rcases heartbeat_cases env mgr req with ⟨hsame, -⟩ | ⟨group, member, hgroup, hmember, hgen⟩
  · rw [hsame]
    exact Or.inl rfl
  · rw [heartbeat_accept env hgroup hmember hgen]
    refine renews_put fun hid => ?_
    rw [vacates_iff hgroup hmember hgen, not_and] at hkeeps
    rw [groupOrNew_of_lookup hgroup]
    cases checkSessionTimeouts_of_not_all (hkeeps hid.symm) with
    | inl hnobody =>
      rw [hnobody]
      exact Or.inl (toFinset_keys_replace (mem_of_lookup hmember) _)
    | inr hrest => exact Or.inr hrest.1

/-- INTERNAL: a LeaveGroup renews every group. -/
theorem renews_leaveGroup (env : GroupEnv) (mgr : ConsumerGroupManager) (req : LeaveGroupRequest)
    (groupId : Bytes) :
    Renews (groupView (mgr.groupOrNew groupId))
      (groupView ((mgr.leaveGroup env req).1.groupOrNew groupId)) := by
  rcases leaveGroup_cases env mgr req with hsame | ⟨group, hgroup, -, hleave⟩
  · rw [hsame]
    exact Or.inl rfl
  · rw [hleave]
    refine renews_put fun _ => Or.inr ?_
    rw [groupOrNew_of_lookup hgroup]
    rcases removeMember_cases env group req.memberId with ⟨-, hlast⟩ | ⟨-, hleft⟩
    · rw [hlast]
      rfl
    · rw [hleft]
      rfl

/-- INTERNAL: **the step lemma**: a call that does not empty the group by expiry keeps its
members or starts its next generation. -/
theorem renews_apply {mgr : ConsumerGroupManager} {call : GroupCall} {groupId : Bytes}
    (hkeeps : ¬ Vacates mgr groupId call) :
    Renews (groupView (mgr.groupOrNew groupId))
      (groupView ((call.apply mgr).groupOrNew groupId)) := by
  cases call with
  | join env req => exact renews_joinGroup env mgr req groupId
  | sync req => exact renews_syncGroup mgr req groupId
  | heartbeat env req => exact renews_heartbeat hkeeps
  | leave env req => exact renews_leaveGroup env mgr req groupId
  | offsetCommit req =>
    obtain ⟨offsets, metadata, hfold⟩ :=
      foldl_commitOffset req.partitions (mgr.groupOrNew req.groupId)
    refine renews_put fun _ => ?_
    rw [hfold]
    exact Or.inl rfl
  | offsetFetch req => exact Or.inl rfl

/-- INTERNAL: a call that empties the group by expiry changes its members and not its
generation. -/
theorem vacates_apply {mgr : ConsumerGroupManager} {call : GroupCall} {groupId : Bytes}
    (hvacates : Vacates mgr groupId call) :
    (groupView ((call.apply mgr).groupOrNew groupId)).generation =
        (groupView (mgr.groupOrNew groupId)).generation ∧
      (groupView ((call.apply mgr).groupOrNew groupId)).memberIds ≠
        (groupView (mgr.groupOrNew groupId)).memberIds := by
  cases call with
  | heartbeat env req =>
    have hids := hvacates
    obtain ⟨rfl, group, member, hgroup, hmember, hgen, -⟩ := hids
    obtain ⟨group', hbeat, hsame, hnone⟩ := heartbeat_vacates hgroup hmember hgen
      ((vacates_iff hgroup hmember hgen).mp hvacates).2
    simp only [GroupCall.apply, hbeat, groupOrNew_put, groupOrNew_of_lookup hgroup]
    refine ⟨hsame, fun hmembers => ?_⟩
    have hmem : req.memberId ∈ (groupView group).memberIds :=
      mem_memberIds.mpr (mem_of_lookup hmember)
    have hempty : (groupView group').memberIds = ∅ := toFinset_keys_eq_empty.mpr hnone
    rw [← hmembers, hempty] at hmem
    exact absurd hmem (Finset.notMem_empty _)
  | join | sync | leave | offsetCommit | offsetFetch => exact hvacates.elim

/-- INTERNAL: **the run lemma** for generations: they are 32-bit numbers. -/
theorem generation_fits (calls : List GroupCall) (groupId : Bytes) :
    -2 ^ 31 ≤ ((JoinHistory.run calls).view groupId).generation ∧
      ((JoinHistory.run calls).view groupId).generation < 2 ^ 31 := by
  refine run_induction (P := fun _ v => -2 ^ 31 ≤ v.generation ∧ v.generation < 2 ^ 31)
    (by decide) groupId ?_
  intro earlier a v' _ hfits hstep
  cases generation_step hstep with
  | inl hsame => rwa [hsame]
  | inr hnext =>
    rw [hnext]
    exact toInt32_fits _

/-- PROPERTY: after any calls, for any next one and for every group whose generation is not the
last 32-bit number: the generation does not fall, and it grows if the members change, exactly
unless the call is a heartbeat that finds the sessions of all members over.
SOURCE: storage/consumer_group.h:98-315, 400-424 -/
theorem generation_fences_members_iff (calls : List GroupCall) (call : GroupCall)
    (groupId : Bytes)
    (hlast : ((JoinHistory.run calls).view groupId).generation < 2 ^ 31 - 1) :
    ((JoinHistory.run calls).view groupId).generation ≤
        ((JoinHistory.run (calls ++ [call])).view groupId).generation ∧
      ((((JoinHistory.run (calls ++ [call])).view groupId).memberIds ≠
            ((JoinHistory.run calls).view groupId).memberIds →
          ((JoinHistory.run calls).view groupId).generation <
            ((JoinHistory.run (calls ++ [call])).view groupId).generation) ↔
        ¬ Vacates (JoinHistory.run calls).manager groupId call) := by
  have hfits := (generation_fits calls groupId).1
  have hnext := toInt32_of_fits (v := ((JoinHistory.run calls).view groupId).generation + 1)
    (by omega) (by omega)
  rw [run_concat]
  refine ⟨?_, ?_, ?_⟩
  · cases generation_step (step_view (JoinHistory.run calls) call groupId) with
    | inl hsame => exact hsame.ge
    | inr hgrows =>
      rw [hgrows, hnext]
      omega
  · intro hgrows hvacates
    obtain ⟨hsame, hchanged⟩ := vacates_apply hvacates
    exact absurd hsame (hgrows hchanged).ne'
  · intro hkeeps hchanged
    cases renews_apply hkeeps with
    | inl hsame => exact absurd hsame hchanged
    | inr hgrows =>
      have hgen : (((JoinHistory.run calls).step call).view groupId).generation =
          toInt32 (((JoinHistory.run calls).view groupId).generation + 1) := hgrows
      rw [hgen, hnext]
      omega

/-- A group with one member, whose session is over as soon as it has begun. -/
def soleMember : List GroupCall :=
  [.join GroupEnv.plain
    { groupId := ascii "g", memberId := ascii "a", clientId := ascii "a", sessionTimeoutMs := -1 }]

/-- The one member leaves. -/
def soleLeave : GroupCall :=
  .leave GroupEnv.plain { groupId := ascii "g", memberId := ascii "a" }

/-- The heartbeat of the one member, in the generation it was told. -/
def soleBeat : HeartbeatRequest :=
  { groupId := ascii "g", generationId := 1, memberId := ascii "a" }

/-- When the one member leaves, the members change and the generation grows. -/
theorem generation_fences_members_iff_leave :
    let before := (JoinHistory.run soleMember).view (ascii "g")
    let after := (JoinHistory.run (soleMember ++ [soleLeave])).view (ascii "g")
    ¬ Vacates (JoinHistory.run soleMember).manager (ascii "g") soleLeave ∧
      after.memberIds ≠ before.memberIds ∧ before.generation ≤ after.generation ∧
      before.generation < after.generation := by
  intro before after
  have hstays : ¬ Vacates (JoinHistory.run soleMember).manager (ascii "g") soleLeave := id
  have hchanged : after.memberIds ≠ before.memberIds := by decide +kernel
  obtain ⟨hle, hiff⟩ := generation_fences_members_iff soleMember soleLeave (ascii "g")
    (by decide +kernel)
  exact ⟨hstays, hchanged, hle, hiff.mpr hstays hchanged⟩

/-- The heartbeat of the one member empties the group, and the generation stays 1. -/
theorem expiry_of_all_keeps_generation :
    ((JoinHistory.run soleMember).view (ascii "g")).memberIds = {ascii "a"} ∧
      ((JoinHistory.run soleMember).view (ascii "g")).generation = 1 ∧
      ((JoinHistory.run (soleMember ++ [.heartbeat GroupEnv.plain soleBeat])).view
        (ascii "g")).memberIds = ∅ ∧
      ((JoinHistory.run (soleMember ++ [.heartbeat GroupEnv.plain soleBeat])).view
        (ascii "g")).generation = 1 := by
  decide +kernel

/-! ## Heartbeats without an error -/

/-- INTERNAL: **the run lemma** for states: no group is ever dead. -/
theorem state_ne_dead (calls : List GroupCall) (groupId : Bytes) :
    ((JoinHistory.run calls).view groupId).state ≠ .dead := by
  refine run_induction (P := fun _ v => v.state ≠ .dead) (by decide) groupId ?_
  intro earlier a v' _ halive hstep
  cases hstep with
  | quiet => exact halive
  | rejoin => exact halive
  | join => exact GroupState.noConfusion
  | settle => exact GroupState.noConfusion
  | shrink => exact GroupState.noConfusion
  | vacate => exact GroupState.noConfusion

/-- INTERNAL: a group with a member that is in no rebalance is stable. -/
theorem stable_of_mem {calls : List GroupCall} {groupId id : Bytes} {group : ConsumerGroup}
    (hgroup : (JoinHistory.run calls).manager.groups.lookup groupId = some group)
    (hid : id ∈ group.members) (hpreparing : group.state ≠ .preparingRebalance)
    (hcompleting : group.state ≠ .completingRebalance) : group.state = .stable := by
  have hview := view_eq_of_lookup hgroup
  have hdead : group.state ≠ .dead := by
    have h := state_ne_dead calls groupId
    rwa [hview] at h
  have hempty : group.state ≠ .empty := by
    have hsound := sound_run calls groupId
    rw [hview] at hsound
    intro h
    have hmem := mem_memberIds.mpr hid
    rw [hsound.state_iff.mpr h] at hmem
    exact absurd hmem (Finset.notMem_empty _)
  cases hstate : group.state with
  | stable => rfl
  | empty => exact absurd hstate hempty
  | preparingRebalance => exact absurd hstate hpreparing
  | completingRebalance => exact absurd hstate hcompleting
  | dead => exact absurd hstate hdead

/-- PROPERTY: after any calls and for any heartbeat, on any readings of the clock: an answer
without an error means that the sender is a member of a stable group and that its generation is
the group's, exactly unless the heartbeat finds the sessions of all members over.
SOURCE: storage/consumer_group.h:266-286, 400-424 -/
theorem clean_heartbeat_iff (calls : List GroupCall) (env : GroupEnv) (req : HeartbeatRequest) :
    (((JoinHistory.run calls).manager.heartbeat env req).2 = 0 →
        ∃ group, ((JoinHistory.run calls).manager.heartbeat env req).1.groups.lookup req.groupId =
            some group ∧
          req.memberId ∈ group.members ∧ group.state = .stable ∧
          req.generationId = group.generationId) ↔
      ¬ Vacates (JoinHistory.run calls).manager req.groupId (.heartbeat env req) := by
  rcases heartbeat_cases env (JoinHistory.run calls).manager req with
    ⟨-, herror⟩ | ⟨group, member, hgroup, hmember, hgen⟩
  · -- refused: there is no answer without an error, and nothing is emptied
    refine iff_of_true (fun h => absurd h herror) fun hvacates => ?_
    obtain ⟨-, group, member, hgroup, hmember, hgen, -⟩ := id hvacates
    obtain ⟨group', hbeat, -⟩ := heartbeat_vacates hgroup hmember hgen
      ((vacates_iff hgroup hmember hgen).mp hvacates).2
    rw [hbeat] at herror
    exact herror rfl
  rw [vacates_iff hgroup hmember hgen, not_and]
  constructor
  · intro hclean _ hall
    obtain ⟨group', hbeat, -, hnone⟩ := heartbeat_vacates hgroup hmember hgen hall
    rw [hbeat, lookup_put] at hclean
    obtain ⟨_, hsome, hmem, -⟩ := hclean rfl
    obtain rfl := Option.some.inj hsome
    rw [← mem_toFinset_keys, toFinset_keys_eq_empty.mpr hnone] at hmem
    exact absurd hmem (Finset.notMem_empty _)
  · intro hkeeps hzero
    rw [heartbeat_accept env hgroup hmember hgen] at hzero ⊢
    rw [lookup_put]
    refine ⟨_, rfl, ?_⟩
    cases checkSessionTimeouts_of_not_all (hkeeps rfl) with
    | inl hnobody =>
      rw [hnobody] at hzero ⊢
      have hstate : ¬ (group.state = .preparingRebalance ∨ group.state = .completingRebalance) := by
        intro hrebalance
        exact absurd ((if_pos hrebalance).symm.trans hzero) (by decide)
      have hstable : group.state = .stable := stable_of_mem hgroup (mem_of_lookup hmember)
        (fun h => hstate (Or.inl h)) (fun h => hstate (Or.inr h))
      exact ⟨(AList.mem_insert _).mpr (Or.inl rfl), hstable, hgen⟩
    | inr hrest => simp [hrest.2] at hzero

/-- The heartbeat of the one member is answered without an error, and its sender is gone. -/
theorem clean_heartbeat_of_nobody :
    ((JoinHistory.run soleMember).manager.heartbeat GroupEnv.plain soleBeat).2 = 0 ∧
      (((JoinHistory.run soleMember).manager.heartbeat GroupEnv.plain soleBeat).1.groups.lookup
        (ascii "g")).map (fun group => (group.members.keys, group.state)) =
          some ([], .empty) := by
  decide +kernel

end StrikeMQ.Analysis.SessionExpiry
