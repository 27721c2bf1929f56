import StrikeMQ.Analysis.GroupInvariants

/-!
# What holds of a group over every run

Three facts about the group manager, for any calls by any number of clients, with any clock
readings and any draws: a group's members, state and leader agree; the members of one
generation were told the same leader and the same protocol; and a leader's assignment is
installed only for the members that the leader was told of. The first two rest on the manager
alone. The last one is about clients that send what they got.
-/

set_option autoImplicit false

namespace StrikeMQ.Analysis.GroupSafety

open StrikeMQ.Lib StrikeMQ.Model StrikeMQ.Interface
open StrikeMQ.Model.ConsumerGroupManager
open StrikeMQ.Analysis.GroupCalls StrikeMQ.Analysis.GroupRefinement
open StrikeMQ.Analysis.GroupInvariants

/-! ## Entries under their own ids -/

/-- INTERNAL: **the run lemma** for the entries: each is stored under its own member id. -/
theorem ownIds_run (calls : List GroupCall) :
    AllGroups (fun _ group => EachMember (fun id m => m.memberId = id) group.members)
      (JoinHistory.run calls).manager := by
  have hlasting : Lasting fun id m => m.memberId = id := ⟨fun _ h => h, fun _ h => h⟩
  have hkept := kept_eachMember (D := fun _ => True) hlasting (fun _ _ _ => rfl) fun _ h => h
  exact hkept.run fun call _ => joinsMeet_true call

/-! ## The structure of a group -/

theorem view_eq_of_lookup {h : JoinHistory} {groupId : Bytes} {group : ConsumerGroup}
    (hgroup : h.manager.groups.lookup groupId = some group) : h.view groupId = groupView group := by
  rw [JoinHistory.view, groupOrNew_of_lookup hgroup]

/-- PROPERTY: after any calls, every group has no members exactly if it is in state Empty,
exactly if it has no leader; the leader of a group with members is one of them; and every entry
is stored under its own member id.
SOURCE: storage/consumer_group.h:98-424 -/
theorem group_structure (calls : List GroupCall) (groupId : Bytes) (group : ConsumerGroup)
    (hgroup : (JoinHistory.run calls).manager.groups.lookup groupId = some group) :
    (group.members.entries = [] ↔ group.state = .empty) ∧
    (group.state = .empty ↔ group.leaderId = []) ∧
    (group.members.entries ≠ [] → group.leaderId ∈ group.members) ∧
    ∀ id m, group.members.lookup id = some m → m.memberId = id := by
  have hsound := sound_run calls groupId
  rw [view_eq_of_lookup hgroup] at hsound
  have hempty : (groupView group).memberIds = ∅ ↔ group.members.entries = [] :=
    toFinset_keys_eq_empty
  have hstate : group.members.entries = [] ↔ group.state = .empty :=
    hempty.symm.trans hsound.state_iff
  have hleader : group.members.entries = [] ↔ group.leaderId = [] :=
    hempty.symm.trans hsound.leader_iff
  refine ⟨hstate, hstate.symm.trans hleader, ?_, (ownIds_run calls).of_lookup hgroup⟩
  intro hne
  exact mem_memberIds.mp (hsound.leader_mem fun h => hne (hempty.mp h))

/-- Member `a` joins group `g`, member `b-00000000` joins it, and `a` joins it again. -/
def threeJoins : List GroupCall :=
  [.join GroupEnv.plain { groupId := ascii "g", memberId := ascii "a", clientId := ascii "a" },
   .join GroupEnv.plain { groupId := ascii "g", clientId := ascii "b" },
   .join GroupEnv.plain { groupId := ascii "g", memberId := ascii "a", clientId := ascii "a" }]

/-- The group of the two members: `a` leads it. -/
theorem group_structure_two_members :
    ∃ group, (JoinHistory.run threeJoins).manager.groups.lookup (ascii "g") = some group ∧
      group.members.keys = [ascii "a", ascii "b-00000000"] ∧
      group.leaderId ∈ group.members := by
  have hkeys : ((JoinHistory.run threeJoins).manager.groups.lookup (ascii "g")).map
      (fun group => group.members.keys) = some [ascii "a", ascii "b-00000000"] := by
    decide +kernel
  obtain ⟨group, hgroup, hmembers⟩ := Option.map_eq_some_iff.mp hkeys
  obtain ⟨-, -, hleader, -⟩ := group_structure threeJoins (ascii "g") group hgroup
  refine ⟨group, hgroup, hmembers, hleader fun hnil => ?_⟩
  rw [AList.keys, hnil] at hmembers
  exact absurd hmembers (by simp)

/-! ## Generations -/

/-- INTERNAL: a step starts at most one generation. -/
theorem generation_step {v v' : GroupView} {a : Option JoinAnswer} (hstep : v.Step a v') :
    v'.generation = v.generation ∨ v'.generation = toInt32 (v.generation + 1) := by
  cases hstep with
  | quiet => exact Or.inl rfl
  | rejoin => exact Or.inl rfl
  | join => exact Or.inr rfl
  | settle => exact Or.inl rfl
  | shrink => exact Or.inr rfl
  | vacate hgen => exact hgen

/-- INTERNAL: a run of `n` calls starts at most `n` generations. -/
theorem generation_le_length (calls : List GroupCall) (groupId : Bytes)
    (hlen : calls.length < 2 ^ 31) :
    0 ≤ ((JoinHistory.run calls).view groupId).generation ∧
      ((JoinHistory.run calls).view groupId).generation ≤ calls.length := by
  induction calls using List.reverseRecOn with
  | nil => exact ⟨le_refl _, le_refl _⟩
  | append_singleton calls call ih =>
    rw [List.length_append, List.length_singleton] at hlen ⊢
    obtain ⟨hpos, hle⟩ := ih (by omega)
    rw [run_concat]
    cases generation_step (step_view (JoinHistory.run calls) call groupId) with
    | inl hsame => omega
    | inr hnext =>
      rw [toInt32_of_fits (by omega) (by omega)] at hnext
      omega

/-- INTERNAL: generations do not run out in fewer than `2^31 - 1` calls. -/
theorem generationsFit_of_length {calls : List GroupCall} (hlen : calls.length < 2 ^ 31 - 1) :
    GenerationsFit calls := by
  intro earlier hearlier groupId group hgroup
  have hle := hearlier.length_le
  obtain ⟨-, hgen⟩ := generation_le_length earlier groupId (by omega)
  rw [view_eq_of_lookup hgroup] at hgen
  have hgen' : group.generationId ≤ earlier.length := hgen
  omega

theorem mem_answers {h : JoinHistory} {groupId : Bytes} {r : Bytes × JoinGroupResponse}
    (hr : r ∈ h.sent) (hacc : Accepted groupId r) : joinAnswer r.2 ∈ h.answers groupId :=
  List.mem_map.mpr ⟨r, List.mem_filter.mpr ⟨hr, decide_eq_true hacc⟩, rfl⟩

/-- PROPERTY: over any run whose generations fit, any two successful JoinGroup responses of one
group that carry the same generation name the same leader and the same protocol.
SOURCE: storage/consumer_group.h:98-424 -/
theorem same_generation_same_leader (calls : List GroupCall) (hfit : GenerationsFit calls)
    (groupId : Bytes) (r r' : Bytes × JoinGroupResponse)
    (hr : r ∈ (JoinHistory.run calls).sent) (hacc : Accepted groupId r)
    (hr' : r' ∈ (JoinHistory.run calls).sent) (hacc' : Accepted groupId r')
    (hgen : r.2.generationId = r'.2.generationId) :
    r.2.leaderId = r'.2.leaderId ∧ r.2.protocolName = r'.2.protocolName :=
  (fenced_run hfit groupId).agree _ (mem_answers hr hacc) _ (mem_answers hr' hacc') hgen

/-- The SyncGroup of the leader `a`, in the generation it was told last. -/
def leaderSync : SyncGroupRequest :=
  { groupId := ascii "g", generationId := 3, memberId := ascii "a"
    assignments := [⟨ascii "a", [1]⟩, ⟨ascii "b-00000000", [2]⟩] }

/-- `a` leads the group, makes it stable, and `b-00000000` joins again. -/
def stableRejoin : List GroupCall :=
  threeJoins ++
    [.sync leaderSync,
     .join GroupEnv.plain
       { groupId := ascii "g", memberId := ascii "b-00000000", clientId := ascii "b" }]

/-- The third and the fourth response carry generation 3. -/
theorem same_generation_same_leader_stable_rejoin :
    ∃ r ∈ (JoinHistory.run stableRejoin).sent, ∃ r' ∈ (JoinHistory.run stableRejoin).sent,
      r.2.memberId = ascii "a" ∧ r'.2.memberId = ascii "b-00000000" ∧
      r.2.leaderId = r'.2.leaderId ∧ r.2.protocolName = r'.2.protocolName := by
  have hfit : GenerationsFit stableRejoin := generationsFit_of_length (by decide)
  have hlast : ∃ r ∈ (JoinHistory.run stableRejoin).sent,
      Accepted (ascii "g") r ∧ r.2.memberId = ascii "a" ∧ r.2.generationId = 3 := by
    decide +kernel
  have hrejoin : ∃ r ∈ (JoinHistory.run stableRejoin).sent,
      Accepted (ascii "g") r ∧ r.2.memberId = ascii "b-00000000" ∧ r.2.generationId = 3 := by
    decide +kernel
  obtain ⟨r, hr, hacc, hid, hgen⟩ := hlast
  obtain ⟨r', hr', hacc', hid', hgen'⟩ := hrejoin
  exact ⟨r, hr, r', hr', hid, hid', same_generation_same_leader stableRejoin hfit (ascii "g") r r'
    hr hacc hr' hacc' (hgen.trans hgen'.symm)⟩

/-! ## Assignments -/

/-- INTERNAL: what a member was told in the current generation is what the group would tell it
now. -/
theorem told_is_current {calls : List GroupCall} (hfit : GenerationsFit calls) {groupId : Bytes}
    {group : ConsumerGroup}
    (hgroup : (JoinHistory.run calls).manager.groups.lookup groupId = some group)
    (hne : group.members.entries ≠ []) {r : Bytes × JoinGroupResponse}
    (hr : r ∈ (JoinHistory.run calls).sent) (hacc : Accepted groupId r)
    (hgen : r.2.generationId = group.generationId) :
    joinAnswer r.2 = (groupView group).answer r.2.memberId ∧
      (group.state = .completingRebalance ∨ group.state = .stable) := by
  have hfenced := fenced_run hfit groupId
  rw [view_eq_of_lookup hgroup] at hfenced
  exact hfenced.current _ (mem_answers hr hacc) hgen fun h => hne (toFinset_keys_eq_empty.mp h)

/-- INTERNAL: the leader's SyncGroup makes the group stable and keeps its members. -/
theorem acceptSync_leader {group : ConsumerGroup} {req : SyncGroupRequest}
    (hleader : req.memberId = group.leaderId) (hne : req.assignments ≠ []) :
    (acceptSync group req).state = .stable ∧
      ∀ id, id ∈ (acceptSync group req).members ↔ id ∈ group.members := by
  rw [acceptSync, if_pos ⟨hleader, hne⟩]
  refine ⟨rfl, fun id => ?_⟩
  rw [← mem_toFinset_keys, toFinset_keys_storeAssignments, mem_toFinset_keys]

/-- PROPERTY: over any run whose generations fit, when SyncGroup accepts a non-empty assignment
list from the leader, and the leader sends a member id and a generation that it got in a
successful JoinGroup response, then the group was in state CompletingRebalance or Stable, is
Stable now, and every successful JoinGroup response that gave the leader this generation listed
exactly the group's members.
SOURCE: storage/consumer_group.h:98-424 -/
theorem installed_assignment_is_for_members (calls : List GroupCall) (hfit : GenerationsFit calls)
    (req : SyncGroupRequest) (hholds : (JoinHistory.run calls).Holds req) (group : ConsumerGroup)
    (hgroup : (JoinHistory.run calls).manager.groups.lookup req.groupId = some group)
    (hok : ((JoinHistory.run calls).manager.syncGroup req).2.errorCode = 0)
    (hleader : req.memberId = group.leaderId) (hne : req.assignments ≠ []) :
    (group.state = .completingRebalance ∨ group.state = .stable) ∧
    (∃ group', ((JoinHistory.run calls).manager.syncGroup req).1.groups.lookup req.groupId =
        some group' ∧ group'.state = .stable ∧ ∀ id, id ∈ group'.members ↔ id ∈ group.members) ∧
    ∀ r ∈ (JoinHistory.run calls).sent, Accepted req.groupId r → r.2.memberId = req.memberId →
      r.2.generationId = req.generationId →
        ∀ id, id ∈ r.2.members.map JoinGroupMember.memberId ↔ id ∈ group.members := by
  rcases syncGroup_cases (JoinHistory.run calls).manager req with
    ⟨-, herr, -⟩ | ⟨group₀, hgroup₀, hmem, hgen⟩
  · exact absurd hok herr
  obtain rfl : group = group₀ := Option.some.inj (hgroup.symm.trans hgroup₀)
  have hmembers : group.members.entries ≠ [] := by
    intro hnil
    rw [AList.mem_keys, AList.keys, hnil] at hmem
    exact absurd hmem List.not_mem_nil
  obtain ⟨held, hheld, hacc, -, hheldGen⟩ := hholds
  obtain ⟨-, hstate⟩ :=
    told_is_current hfit hgroup hmembers hheld hacc (hheldGen.trans hgen)
  refine ⟨hstate, ⟨acceptSync group req, ?_, acceptSync_leader hleader hne⟩, ?_⟩
  · rw [syncGroup_accept hgroup hmem hgen, lookup_put]
  · intro r hr hrAcc hrId hrGen id
    obtain ⟨htold, -⟩ := told_is_current hfit hgroup hmembers hr hrAcc (hrGen.trans hgen)
    -- the response went to the leader, so it lists the members
    have hids : (r.2.members.map JoinGroupMember.memberId).toFinset =
        group.members.keys.toFinset := by
      have hlist := congrArg JoinAnswer.memberIds htold
      rw [hrId] at hlist
      simpa [joinAnswer, GroupView.answer, groupView, hleader] using hlist
    rw [← List.mem_toFinset, hids, mem_toFinset_keys]

/-- The leader of the two members was told of both, and its list is installed. -/
theorem installed_assignment_is_for_members_two_members :
    ∃ group, (JoinHistory.run threeJoins).manager.groups.lookup (ascii "g") = some group ∧
      ∃ r ∈ (JoinHistory.run threeJoins).sent, r.2.members.map JoinGroupMember.memberId =
          [ascii "a", ascii "b-00000000"] ∧
        ∀ id, id ∈ r.2.members.map JoinGroupMember.memberId ↔ id ∈ group.members := by
  have hlead : ((JoinHistory.run threeJoins).manager.groups.lookup (ascii "g")).map
      ConsumerGroup.leaderId = some leaderSync.memberId := by
    decide +kernel
  obtain ⟨group, hgroup, hleader⟩ := Option.map_eq_some_iff.mp hlead
  have hlast : ∃ r ∈ (JoinHistory.run threeJoins).sent, Accepted leaderSync.groupId r ∧
      r.2.memberId = leaderSync.memberId ∧ r.2.generationId = leaderSync.generationId ∧
      r.2.members.map JoinGroupMember.memberId = [ascii "a", ascii "b-00000000"] := by
    decide +kernel
  obtain ⟨r, hr, hacc, hid, hgen, hlist⟩ := hlast
  obtain ⟨-, -, hall⟩ := installed_assignment_is_for_members threeJoins
    (generationsFit_of_length (by decide)) leaderSync ⟨r, hr, hacc, hid, hgen⟩ group hgroup
    (by decide +kernel) hleader.symm (by decide)
  exact ⟨group, hgroup, r, hr, hlist, hall r hr hacc hid hgen⟩

end StrikeMQ.Analysis.GroupSafety
