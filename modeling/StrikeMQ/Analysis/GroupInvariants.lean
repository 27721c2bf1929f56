import StrikeMQ.Analysis.GroupRefinement

/-!
# Invariants of single groups

A property of a group and the id it is stored under holds after any calls if it holds of a new
group and each thing that a call can do to its group keeps it. `Kept` lists these things once;
where an invariant rests on what JoinGroup requests carry, it says so by the property it asks of
them. The last part is about the properties of single members that nobody but a JoinGroup of the
member can change.
-/

set_option autoImplicit false

namespace StrikeMQ.Analysis.GroupInvariants

open StrikeMQ.Lib StrikeMQ.Model StrikeMQ.Interface
open StrikeMQ.Model.ConsumerGroupManager
open StrikeMQ.Analysis.GroupCalls StrikeMQ.Analysis.GroupRefinement

/-! ## The rule -/

/-- INTERNAL: everything that a call does to its group keeps the property, as long as the
JoinGroup requests are as `D` says.
SOURCE: storage/consumer_group.h:98-333, 400-424 -/
structure Kept (D : JoinGroupRequest → Prop) (P : Bytes → ConsumerGroup → Prop) : Prop where
  new : ∀ id, P id {}
  named : ∀ {id group}, P id group → P id { group with groupId := id }
  add : ∀ {id env group req memberId}, D req → group.groupId = id → P id group →
    P id (addMember env group req memberId)
  rejoin : ∀ {id env group req member}, D req →
    group.members.lookup req.memberId = some member → P id group →
    P id (rejoinStable env group req member)
  sync : ∀ {id group req}, P id group → P id (acceptSync group req)
  touch : ∀ {id env group memberId member}, group.members.lookup memberId = some member →
    P id group → P id (touched env group memberId member)
  expire : ∀ {id env group}, P id group → P id (checkSessionTimeouts env group)
  leave : ∀ {id env group memberId}, P id group → P id (removeMember env group memberId)
  commit : ∀ {id group offsets metadata}, P id group →
    P id { group with committedOffsets := offsets, offsetMetadata := metadata }

/-- INTERNAL: the JoinGroup requests of a call are as `D` says. -/
def JoinsMeet (D : JoinGroupRequest → Prop) : GroupCall → Prop
  | .join _ req => D req
  | _ => True

section Rule

variable {D : JoinGroupRequest → Prop} {P : Bytes → ConsumerGroup → Prop}

/-- INTERNAL: the property holds of every group, one that is not there counting as new. -/
def AllGroups (P : Bytes → ConsumerGroup → Prop) (mgr : ConsumerGroupManager) : Prop :=
  ∀ id, P id (mgr.groupOrNew id)

theorem AllGroups.put {mgr : ConsumerGroupManager} (h : AllGroups P mgr) {id : Bytes}
    {group : ConsumerGroup} (hgroup : P id group) : AllGroups P (mgr.put id group) := by
  intro k
  by_cases hid : k = id
  · rw [hid, groupOrNew_put]
    exact hgroup
  · rw [groupOrNew_put_ne hid]
    exact h k

theorem AllGroups.of_lookup {mgr : ConsumerGroupManager} (h : AllGroups P mgr) {id : Bytes}
    {group : ConsumerGroup} (hgroup : mgr.groups.lookup id = some group) : P id group := by
  have hid := h id
  rwa [groupOrNew_of_lookup hgroup] at hid

/-- INTERNAL: **the step lemma.** -/
theorem AllGroups.apply {mgr : ConsumerGroupManager} (hP : Kept D P) (h : AllGroups P mgr)
    {call : GroupCall} (hcall : JoinsMeet D call) : AllGroups P (call.apply mgr) := by
  cases call with
  | join env req =>
    show AllGroups P (mgr.joinGroup env req).1
    have hjoining : P req.groupId (joining mgr req) := hP.named (h req.groupId)
    rcases joinGroup_cases env mgr req with ⟨id, -, hjoin⟩ | ⟨member, hmember, -, hjoin⟩ | ⟨-, hjoin⟩
    · rw [hjoin]
      exact h.put (hP.add hcall rfl hjoining)
    · rw [hjoin]
      exact h.put (hP.rejoin hcall hmember hjoining)
    · rw [hjoin]
      exact h.put hjoining
  | sync req =>
    show AllGroups P (mgr.syncGroup req).1
    rcases syncGroup_cases mgr req with ⟨hsame, -, -⟩ | ⟨group, hgroup, hmem, hgen⟩
    · rwa [hsame]
    · rw [syncGroup_accept hgroup hmem hgen]
      exact h.put (hP.sync (h.of_lookup hgroup))
  | heartbeat env req =>
    show AllGroups P (mgr.heartbeat env req).1
    rcases heartbeat_cases env mgr req with ⟨hsame, -⟩ | ⟨group, member, hgroup, hmember, hgen⟩
    · rwa [hsame]
    · rw [heartbeat_accept env hgroup hmember hgen]
      exact h.put (hP.expire (hP.touch hmember (h.of_lookup hgroup)))
  | leave env req =>
    show AllGroups P (mgr.leaveGroup env req).1
    rcases leaveGroup_cases env mgr req with hsame | ⟨group, hgroup, -, hleave⟩
    · rwa [hsame]
    · rw [hleave]
      exact h.put (hP.leave (h.of_lookup hgroup))
  | offsetCommit req =>
    obtain ⟨offsets, metadata, hfold⟩ :=
      foldl_commitOffset req.partitions (mgr.groupOrNew req.groupId)
    refine h.put ?_
    rw [hfold]
    exact hP.commit (h req.groupId)
  | offsetFetch req => exact h

/-- INTERNAL: **the run lemma.** -/
theorem Kept.run (hP : Kept D P) {calls : List GroupCall} (hcalls : ∀ c ∈ calls, JoinsMeet D c) :
    AllGroups P (JoinHistory.run calls).manager := by
  induction calls using List.reverseRecOn with
  | nil => exact hP.new
  | append_singleton calls call ih =>
    rw [run_concat]
    refine AllGroups.apply hP (ih fun c hc => hcalls c ?_) (hcalls call ?_)
    · exact List.mem_append_left _ hc
    · exact List.mem_append_right _ List.mem_cons_self

theorem joinsMeet_true (call : GroupCall) : JoinsMeet (fun _ => True) call := by
  cases call <;> exact trivial

end Rule

/-! ## Members -/

/-- INTERNAL: the property holds of every entry and the id it is stored under. -/
def EachMember (R : Bytes → MemberMetadata → Prop) (members : Members) : Prop :=
  ∀ id m, members.lookup id = some m → R id m

/-- INTERNAL: neither an assignment nor a heartbeat changes the property. -/
structure Lasting (R : Bytes → MemberMetadata → Prop) : Prop where
  assign : ∀ {id m} (assignment : Bytes), R id m → R id { m with assignment := assignment }
  beat : ∀ {id m} (now : ℤ), R id m → R id { m with lastHeartbeatMs := now }

section Members

variable {R : Bytes → MemberMetadata → Prop} {members : Members}

theorem EachMember.insert (h : EachMember R members) {id : Bytes} {m : MemberMetadata}
    (hm : R id m) : EachMember R (members.insert id m) := by
  intro k m' hk
  by_cases hid : k = id
  · subst hid
    rw [AList.lookup_insert, Option.some.injEq] at hk
    rwa [← hk]
  · rw [AList.lookup_insert_ne hid] at hk
    exact h k m' hk

theorem EachMember.foldl_erase (h : EachMember R members) (ids : List Bytes) :
    EachMember R (ids.foldl (fun ms id => ms.erase id) members) :=
  fun id m hm => h id m (lookup_foldl_erase hm)

/-- INTERNAL: what lasts of each member survives the leader's assignments. -/
theorem EachMember.storeAssignments (h : EachMember R members) (hR : Lasting R)
    (assignments : List SyncGroupAssignment) :
    EachMember R (ConsumerGroupManager.storeAssignments members assignments) := by
  unfold ConsumerGroupManager.storeAssignments
  induction assignments generalizing members with
  | nil => exact h
  | cons a assignments ih =>
    rw [List.foldl_cons]
    cases hm : members.lookup a.memberId with
    | none => exact ih h
    | some m => exact ih (h.insert (hR.assign _ (h a.memberId m hm)))

variable {group : ConsumerGroup}

/-- INTERNAL: what lasts of each member survives a SyncGroup. -/
theorem EachMember.acceptSync (h : EachMember R group.members) (hR : Lasting R)
    (req : SyncGroupRequest) :
    EachMember R (ConsumerGroupManager.acceptSync group req).members := by
  unfold ConsumerGroupManager.acceptSync
  split
  · exact h.storeAssignments hR _
  · exact h

/-- INTERNAL: a session check only takes members away. -/
theorem EachMember.checkSessionTimeouts (h : EachMember R group.members) (env : GroupEnv) :
    EachMember R (ConsumerGroupManager.checkSessionTimeouts env group).members := by
  rcases checkSessionTimeouts_cases env group with hnobody | ⟨-, hall⟩ | ⟨-, hsome⟩
  · rw [hnobody]
    exact h
  · rw [hall]
    exact h.foldl_erase _
  · rw [hsome]
    exact h.foldl_erase _

/-- INTERNAL: so does a leave. -/
theorem EachMember.removeMember (h : EachMember R group.members) (env : GroupEnv)
    (memberId : Bytes) :
    EachMember R (ConsumerGroupManager.removeMember env group memberId).members := by
  rcases removeMember_cases env group memberId with ⟨-, hlast⟩ | ⟨-, hleft⟩
  · rw [hlast]
    exact h.foldl_erase [memberId]
  · rw [hleft]
    exact h.foldl_erase [memberId]

/-- INTERNAL: **a property of single members.** What is left to show is that it holds of a member
as a JoinGroup stores it. -/
theorem kept_eachMember {D : JoinGroupRequest → Prop} (hR : Lasting R)
    (hadd : ∀ {id req} (m : MemberMetadata) (now : ℤ), D req →
      R id { m with
        memberId := id, clientId := req.clientId, protocolType := req.protocolType
        protocols := req.protocols, sessionTimeoutMs := req.sessionTimeoutMs
        rebalanceTimeoutMs := req.rebalanceTimeoutMs, lastHeartbeatMs := now })
    (hrejoin : ∀ {id req m}, D req → R id m → R id { m with protocols := req.protocols }) :
    Kept D fun _ group => EachMember R group.members where
  new _ id m hm := absurd hm (by simp)
  named h := h
  add hreq _ h := h.insert (hadd _ _ hreq)
  rejoin hreq hmember h := h.insert (hR.beat _ (hrejoin hreq (h _ _ hmember)))
  sync h := h.acceptSync hR _
  touch hmember h := h.insert (hR.beat _ (h _ _ hmember))
  expire h := h.checkSessionTimeouts _
  leave h := h.removeMember _ _
  commit h := h

end Members

end StrikeMQ.Analysis.GroupInvariants
