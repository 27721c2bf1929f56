import StrikeMQ.Analysis.GroupCalls
import StrikeMQ.Interface.JoinHistory

/-!
# The group manager follows the group protocol

Every call is a step of the protocol for every group: a step of its own group, if it stores it,
and nothing for the others. So what the protocol guarantees over its runs, the manager
guarantees over its own.
-/

set_option autoImplicit false

namespace StrikeMQ.Analysis.GroupRefinement

open StrikeMQ.Lib StrikeMQ.Model StrikeMQ.Interface
open StrikeMQ.Model.ConsumerGroupManager StrikeMQ.Analysis.GroupCalls

/-! ## Members as a set -/

theorem mem_toFinset_keys {members : Members} {id : Bytes} :
    id ∈ members.keys.toFinset ↔ id ∈ members := by
  rw [List.mem_toFinset, AList.mem_keys]

theorem mem_memberIds {group : ConsumerGroup} {id : Bytes} :
    id ∈ (groupView group).memberIds ↔ id ∈ group.members :=
  mem_toFinset_keys

theorem toFinset_keys_insert (members : Members) (id : Bytes) (m : MemberMetadata) :
    (members.insert id m).keys.toFinset = insert id members.keys.toFinset := by
  ext k
  rw [mem_toFinset_keys, AList.mem_insert, Finset.mem_insert, mem_toFinset_keys]

theorem toFinset_keys_replace {members : Members} {id : Bytes} (hmem : id ∈ members)
    (m : MemberMetadata) : (members.insert id m).keys.toFinset = members.keys.toFinset := by
  rw [toFinset_keys_insert]
  exact Finset.insert_eq_of_mem (mem_toFinset_keys.mpr hmem)

theorem mem_of_lookup {members : Members} {id : Bytes} {m : MemberMetadata}
    (h : members.lookup id = some m) : id ∈ members := by
  rw [← AList.lookup_isSome, h]
  rfl

theorem toFinset_keys_eq_empty {members : Members} :
    members.keys.toFinset = ∅ ↔ members.entries = [] := by
  rw [List.toFinset_eq_empty_iff, AList.keys, List.keys, List.map_eq_nil_iff]

theorem toFinset_keys_foldl_erase (ids : List Bytes) (members : Members) :
    (ids.foldl (fun ms id => ms.erase id) members).keys.toFinset ⊆ members.keys.toFinset := by
  intro k hk
  rw [mem_toFinset_keys] at hk ⊢
  exact (mem_foldl_erase.mp hk).1

/-- INTERNAL: storing assignments keeps the members. -/
theorem toFinset_keys_storeAssignments (members : Members)
    (assignments : List SyncGroupAssignment) :
    (storeAssignments members assignments).keys.toFinset = members.keys.toFinset := by
  unfold storeAssignments
  induction assignments generalizing members with
  | nil => rfl
  | cons a assignments ih =>
    rw [List.foldl_cons, ih]
    cases hm : members.lookup a.memberId with
    | none => rfl
    | some m => exact toFinset_keys_replace (mem_of_lookup hm) _

theorem mem_order_iff (env : GroupEnv) (members : Members) (id : Bytes) :
    id ∈ (env.order members).map Prod.fst ↔ id ∈ members := by
  rw [((env.order_perm members).map Prod.fst).mem_iff, List.map_map, AList.mem_keys]
  rfl

/-- INTERNAL: the new leader is a member. -/
theorem firstMember_mem (env : GroupEnv) {members : Members} (hne : members.entries ≠ []) :
    firstMember env members ∈ members := by
  rw [← mem_order_iff env]
  unfold firstMember
  cases horder : env.order members with
  | nil =>
    have hperm := env.order_perm members
    rw [horder] at hperm
    exact absurd (List.map_eq_nil_iff.mp hperm.nil_eq.symm) hne
  | cons e es => simp

/-! ## One call -/

/-- INTERNAL: what a response says, in the words of the protocol. -/
theorem joinAnswer_joinResponse (env : GroupEnv) (group : ConsumerGroup) (memberId : Bytes) :
    joinAnswer (joinResponse env group memberId) = (groupView group).answer memberId := by
  have hlist : ((memberList env group).map JoinGroupMember.memberId).toFinset =
      group.members.keys.toFinset := by
    ext id
    rw [mem_toFinset_keys, ← mem_order_iff env, List.mem_toFinset, memberList, List.map_map]
    rfl
  unfold joinAnswer joinResponse GroupView.answer
  by_cases hleader : memberId = group.leaderId
  · simp [groupView, hleader, hlist]
  · simp [groupView, hleader]

/-- INTERNAL: adding a member is a join of the abstract group. -/
theorem groupView_addMember (env : GroupEnv) (group : ConsumerGroup) (req : JoinGroupRequest)
    (memberId : Bytes) : ∃ protocolName,
      groupView (addMember env group req memberId) =
        (groupView group).joined memberId protocolName := by
  refine ⟨(addMember env group req memberId).protocolName, ?_⟩
  simp only [groupView, GroupView.joined, addMember, toFinset_keys_insert, AList.mem_insert,
    Finset.mem_insert, mem_toFinset_keys]

/-- INTERNAL: an accepted SyncGroup is a step of the abstract group. -/
theorem step_acceptSync {group : ConsumerGroup} {req : SyncGroupRequest}
    (hmem : req.memberId ∈ group.members) :
    GroupView.Step (groupView group) none (groupView (acceptSync group req)) := by
  unfold acceptSync
  split
  · next hleader =>
    have hview : groupView
        { group with
          members := storeAssignments group.members req.assignments
          state := .stable } = { groupView group with state := .stable } := by
      simp [groupView, toFinset_keys_storeAssignments]
    rw [hview]
    apply GroupView.Step.settle
    rw [hleader.1] at hmem
    exact mem_memberIds.mpr hmem
  · exact GroupView.Step.quiet _

/-- INTERNAL: so is a session check. -/
theorem step_checkSessionTimeouts (env : GroupEnv) (group : ConsumerGroup) :
    GroupView.Step (groupView group) none (groupView (checkSessionTimeouts env group)) := by
  rcases checkSessionTimeouts_cases env group with hnobody | ⟨hnone, hall⟩ | ⟨hrest, hsome⟩
  · rw [hnobody]
    exact GroupView.Step.quiet _
  · rw [hall]
    simp only [groupView, toFinset_keys_eq_empty.mpr hnone]
    exact GroupView.Step.vacate (Or.inl rfl)
  · rw [hsome]
    refine GroupView.Step.shrink (toFinset_keys_foldl_erase _ _)
      (fun h => hrest (toFinset_keys_eq_empty.mp h)) ?_
    intro _
    rw [mem_toFinset_keys]
    split
    · exact firstMember_mem env hrest
    · next hstays => exact not_not.mp hstays

/-- INTERNAL: so is a leave. -/
theorem step_removeMember (env : GroupEnv) (group : ConsumerGroup) (memberId : Bytes) :
    GroupView.Step (groupView group) none (groupView (removeMember env group memberId)) := by
  have hsub : (group.members.erase memberId).keys.toFinset ⊆ group.members.keys.toFinset :=
    toFinset_keys_foldl_erase [memberId] group.members
  rcases removeMember_cases env group memberId with ⟨hnone, hlast⟩ | ⟨hrest, hleft⟩
  · rw [hlast]
    simp only [groupView, toFinset_keys_eq_empty.mpr hnone]
    exact GroupView.Step.vacate (Or.inr rfl)
  · rw [hleft]
    refine GroupView.Step.shrink hsub (fun h => hrest (toFinset_keys_eq_empty.mp h)) ?_
    intro hleader
    rw [mem_toFinset_keys]
    split
    · exact firstMember_mem env hrest
    · next hstays =>
      exact AList.mem_erase.mpr ⟨fun h => hstays h.symm, mem_memberIds.mp hleader⟩

/-- INTERNAL: what a call tells a member of the group. -/
def told (call : GroupCall) (mgr : ConsumerGroupManager) (groupId : Bytes) : Option JoinAnswer :=
  ((call.joinResponse mgr).filter fun r => Accepted groupId r).map fun r => joinAnswer r.2

theorem answers_step (h : JoinHistory) (call : GroupCall) (groupId : Bytes) :
    (h.step call).answers groupId =
      h.answers groupId ++ (told call h.manager groupId).toList := by
  unfold JoinHistory.answers JoinHistory.step told
  rw [List.filter_append, List.map_append]
  congr 1
  cases call.joinResponse h.manager with
  | none => rfl
  | some r => by_cases hr : Accepted groupId r <;> simp [hr, Option.filter]

/-- INTERNAL: a call that stores its group is a step for every group if it is one for that
group and tells the others nothing. -/
theorem step_put {mgr : ConsumerGroupManager} {id groupId : Bytes} {group' : ConsumerGroup}
    {a : Option JoinAnswer}
    (hown : groupId = id → GroupView.Step (groupView (mgr.groupOrNew id)) a (groupView group'))
    (hother : groupId ≠ id → a = none) :
    GroupView.Step (groupView (mgr.groupOrNew groupId)) a
      (groupView ((mgr.put id group').groupOrNew groupId)) := by
  by_cases hid : groupId = id
  · have hstep := hown hid
    rw [hid]
    rwa [groupOrNew_put]
  · rw [hother hid, groupOrNew_put_ne hid]
    exact GroupView.Step.quiet _

/-- INTERNAL: a call that sends no JoinGroup response. -/
theorem step_put_quiet {mgr : ConsumerGroupManager} {id groupId : Bytes}
    {group group' : ConsumerGroup} (hgroup : mgr.groups.lookup id = some group)
    (hstep : GroupView.Step (groupView group) none (groupView group')) :
    GroupView.Step (groupView (mgr.groupOrNew groupId)) none
      (groupView ((mgr.put id group').groupOrNew groupId)) := by
  refine step_put (fun _ => ?_) (fun _ => rfl)
  rwa [groupOrNew_of_lookup hgroup]

/-- INTERNAL: so is a JoinGroup, with what it tells the joiner. -/
theorem step_joinGroup (env : GroupEnv) (mgr : ConsumerGroupManager) (req : JoinGroupRequest)
    (groupId : Bytes) :
    GroupView.Step (groupView (mgr.groupOrNew groupId)) (told (.join env req) mgr groupId)
      (groupView ((mgr.joinGroup env req).1.groupOrNew groupId)) := by
  have hjoining : groupView (joining mgr req) = groupView (mgr.groupOrNew req.groupId) := rfl
  have hother : groupId ≠ req.groupId → told (.join env req) mgr groupId = none := by
    intro hne
    simp [told, GroupCall.joinResponse, Accepted, Option.filter, Ne.symm hne]
  rcases joinGroup_cases env mgr req with ⟨id, hid, hjoin⟩ | ⟨member, hmember, hstable, hjoin⟩ |
    ⟨-, hjoin⟩
  · rw [hjoin]
    refine step_put ?_ hother
    rintro rfl
    obtain ⟨protocolName, hview⟩ := groupView_addMember env (joining mgr req) req id
    have htold : told (.join env req) mgr req.groupId =
        some ((groupView (addMember env (joining mgr req) req id)).answer id) := by
      rw [← joinAnswer_joinResponse env]
      simp [told, GroupCall.joinResponse, hjoin, Accepted, Option.filter,
        ConsumerGroupManager.joinResponse]
    rw [htold, hview, ← hjoining]
    exact GroupView.Step.join _ protocolName hid
  · rw [hjoin]
    refine step_put ?_ hother
    rintro rfl
    have hmem := mem_of_lookup hmember
    have hview : groupView (rejoinStable env (joining mgr req) req member) =
        groupView (joining mgr req) := by
      simp only [groupView, rejoinStable, toFinset_keys_replace hmem]
    have htold : told (.join env req) mgr req.groupId =
        some ((groupView (joining mgr req)).answer req.memberId) := by
      rw [← hview, ← joinAnswer_joinResponse env]
      simp [told, GroupCall.joinResponse, hjoin, Accepted, Option.filter,
        ConsumerGroupManager.joinResponse]
    rw [htold, hview, ← hjoining]
    exact GroupView.Step.rejoin hstable (mem_memberIds.mpr hmem)
  · rw [hjoin]
    refine step_put ?_ hother
    rintro rfl
    have htold : told (.join env req) mgr req.groupId = none := by
      simp [told, GroupCall.joinResponse, hjoin, Accepted, Option.filter]
    rw [htold]
    exact GroupView.Step.quiet _

/-- INTERNAL: **the step lemma**: every call is a step of every group. -/
theorem step_apply (mgr : ConsumerGroupManager) (call : GroupCall) (groupId : Bytes) :
    GroupView.Step (groupView (mgr.groupOrNew groupId)) (told call mgr groupId)
      (groupView ((call.apply mgr).groupOrNew groupId)) := by
  cases call with
  | join env req => exact step_joinGroup env mgr req groupId
  | sync req =>
    show GroupView.Step _ none (groupView ((mgr.syncGroup req).1.groupOrNew groupId))
    rcases syncGroup_cases mgr req with ⟨hsame, -, -⟩ | ⟨group, hgroup, hmem, hgen⟩
    · rw [hsame]
      exact GroupView.Step.quiet _
    · rw [syncGroup_accept hgroup hmem hgen]
      exact step_put_quiet hgroup (step_acceptSync hmem)
  | heartbeat env req =>
    show GroupView.Step _ none (groupView ((mgr.heartbeat env req).1.groupOrNew groupId))
    rcases heartbeat_cases env mgr req with ⟨hsame, -⟩ | ⟨group, member, hgroup, hmember, hgen⟩
    · rw [hsame]
      exact GroupView.Step.quiet _
    · rw [heartbeat_accept env hgroup hmember hgen]
      have htouched : groupView (touched env group req.memberId member) = groupView group := by
        simp only [groupView, touched, toFinset_keys_replace (mem_of_lookup hmember)]
      exact step_put_quiet hgroup (htouched ▸ step_checkSessionTimeouts env _)
  | leave env req =>
    show GroupView.Step _ none (groupView ((mgr.leaveGroup env req).1.groupOrNew groupId))
    rcases leaveGroup_cases env mgr req with hsame | ⟨group, hgroup, -, hleave⟩
    · rw [hsame]
      exact GroupView.Step.quiet _
    · rw [hleave]
      exact step_put_quiet hgroup (step_removeMember env group _)
  | offsetCommit req =>
    obtain ⟨offsets, metadata, hfold⟩ :=
      foldl_commitOffset req.partitions (mgr.groupOrNew req.groupId)
    refine step_put (fun _ => ?_) (fun _ => rfl)
    rw [hfold]
    exact GroupView.Step.quiet _
  | offsetFetch req => exact GroupView.Step.quiet _

/-! ## Runs -/

theorem step_view (h : JoinHistory) (call : GroupCall) (groupId : Bytes) :
    GroupView.Step (h.view groupId) (told call h.manager groupId) ((h.step call).view groupId) :=
  step_apply h.manager call groupId

theorem run_concat (calls : List GroupCall) (call : GroupCall) :
    JoinHistory.run (calls ++ [call]) = (JoinHistory.run calls).step call := by
  rw [JoinHistory.run, List.foldl_append]
  rfl

/-- INTERNAL: **the run lemma**: a property that every step of the protocol keeps holds after
any calls. -/
theorem run_induction {P : List JoinAnswer → GroupView → Prop} (hnew : P [] GroupView.new)
    {calls : List GroupCall} (groupId : Bytes)
    (hstep : ∀ earlier a v', earlier <+: calls →
      P ((JoinHistory.run earlier).answers groupId) ((JoinHistory.run earlier).view groupId) →
      GroupView.Step ((JoinHistory.run earlier).view groupId) a v' →
      P ((JoinHistory.run earlier).answers groupId ++ a.toList) v') :
    P ((JoinHistory.run calls).answers groupId) ((JoinHistory.run calls).view groupId) := by
  induction calls using List.reverseRecOn with
  | nil => exact hnew
  | append_singleton calls call ih =>
    have hpre := List.prefix_append calls [call]
    have hcalls := ih fun earlier a v' hearlier => hstep earlier a v' (hearlier.trans hpre)
    rw [run_concat, answers_step]
    exact hstep calls _ _ hpre hcalls (step_view _ call groupId)

/-- INTERNAL: after any calls, a group's members, state and leader agree. -/
theorem sound_run (calls : List GroupCall) (groupId : Bytes) :
    GroupView.Sound ((JoinHistory.run calls).view groupId) :=
  run_induction (P := fun _ v => GroupView.Sound v) GroupView.sound_new groupId
    fun _ _ _ _ h hstep => h.step hstep

theorem view_generation_lt {calls earlier : List GroupCall} (hfit : GenerationsFit calls)
    (hearlier : earlier <+: calls) (groupId : Bytes) :
    ((JoinHistory.run earlier).view groupId).generation < 2 ^ 31 - 1 := by
  have hgroup := hfit earlier hearlier groupId
  unfold JoinHistory.view groupOrNew
  cases hlookup : (JoinHistory.run earlier).manager.groups.lookup groupId with
  | none => decide
  | some group => exact hgroup group hlookup

/-- INTERNAL: as long as generations do not run out, what members of a group were told is
fenced off by them. -/
theorem fenced_run {calls : List GroupCall} (hfit : GenerationsFit calls) (groupId : Bytes) :
    GroupView.Fenced ((JoinHistory.run calls).answers groupId)
      ((JoinHistory.run calls).view groupId) :=
  run_induction (P := GroupView.Fenced) GroupView.fenced_new groupId
    fun _ _ _ hearlier h hstep => h.step (view_generation_lt hfit hearlier groupId) hstep

end StrikeMQ.Analysis.GroupRefinement
