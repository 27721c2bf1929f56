import StrikeMQ.Model.RestHandlers
import StrikeMQ.Analysis.GroupInvariants

/-!
# The entries of the map of groups

What the map of groups has under an id, after any calls. A request that is refused leaves the
map as it is: JoinGroup names its group before it looks at the request, but it refuses only
members of a group that has members, and such a group has its name. A commit of offsets makes an
entry as well, and does not name it. So the two queries agree on the name of every group exactly
if every group that was committed to was also joined.
-/

set_option autoImplicit false

namespace StrikeMQ.Analysis.GroupEntries

open StrikeMQ.Lib StrikeMQ.Model StrikeMQ.Interface
open StrikeMQ.Model.ConsumerGroupManager
open StrikeMQ.Analysis.GroupCalls StrikeMQ.Analysis.GroupRefinement
open StrikeMQ.Analysis.GroupInvariants

/-! ## Nobody but JoinGroup names a group -/

theorem groupId_acceptSync (group : ConsumerGroup) (req : SyncGroupRequest) :
    (acceptSync group req).groupId = group.groupId := by
  unfold acceptSync
  split <;> rfl

theorem groupId_checkSessionTimeouts (env : GroupEnv) (group : ConsumerGroup) :
    (checkSessionTimeouts env group).groupId = group.groupId := by
  rcases checkSessionTimeouts_cases env group with h | ⟨-, h⟩ | ⟨-, h⟩ <;> rw [h]

theorem groupId_removeMember (env : GroupEnv) (group : ConsumerGroup) (memberId : Bytes) :
    (removeMember env group memberId).groupId = group.groupId := by
  rcases removeMember_cases env group memberId with ⟨-, h⟩ | ⟨-, h⟩ <;> rw [h]

/-- INTERNAL: a group with a member has the name it is stored under. -/
theorem kept_named : Kept (fun _ => True) fun id group =>
    EachMember (fun _ _ => group.groupId = id) group.members where
  new _ _ m hm := absurd hm (by simp)
  named _ _ _ _ := rfl
  add _ hid _ _ _ _ := hid
  rejoin _ hmember h _ _ _ := h _ _ hmember
  sync h := by
    rw [groupId_acceptSync]
    exact h.acceptSync ⟨fun _ h => h, fun _ h => h⟩ _
  touch hmember h _ _ _ := h _ _ hmember
  expire h := by
    rw [groupId_checkSessionTimeouts]
    exact h.checkSessionTimeouts _
  leave h := by
    rw [groupId_removeMember]
    exact h.removeMember _ _
  commit h := h

/-! ## Refused requests -/

/-- The error codes with which the calls refuse a request. -/
def Refused (mgr : ConsumerGroupManager) : GroupCall → Prop
  | .join env req => (mgr.joinGroup env req).2.errorCode = 25
  | .sync req => (mgr.syncGroup req).2.errorCode = 25 ∨ (mgr.syncGroup req).2.errorCode = 22
  | .heartbeat env req => (mgr.heartbeat env req).2 = 25 ∨ (mgr.heartbeat env req).2 = 22
  | .leave env req => (mgr.leaveGroup env req).2 = 25
  | .offsetCommit _ => False
  | .offsetFetch _ => False

/-- INTERNAL: naming a group that has members again changes nothing. -/
theorem lookup_put_joining {mgr : ConsumerGroupManager} {req : JoinGroupRequest}
    (hnamed : AllGroups (fun id group => EachMember (fun _ _ => group.groupId = id) group.members)
      mgr) (hmembers : (joining mgr req).members.entries ≠ []) (id : Bytes) :
    (mgr.put req.groupId (joining mgr req)).groups.lookup id = mgr.groups.lookup id := by
  by_cases hid : id = req.groupId
  · subst hid
    cases hgroup : mgr.groups.lookup req.groupId with
    | none =>
      have hnew : (mgr.groupOrNew req.groupId).members.entries = [] := by
        rw [groupOrNew, hgroup]
        rfl
      exact absurd hnew hmembers
    | some group =>
      have hsame : mgr.groupOrNew req.groupId = group := groupOrNew_of_lookup hgroup
      rw [joining, hsame] at hmembers
      obtain ⟨e, rest, hentries⟩ := List.exists_cons_of_ne_nil hmembers
      have hname : group.groupId = req.groupId := by
        refine hnamed.of_lookup hgroup e.1 e.2 (AList.mem_lookup_iff.mpr ?_)
        rw [hentries]
        exact List.mem_cons_self
      rw [lookup_put, joining, hsame, ← hname]
  · exact lookup_put_ne hid

/-- PROPERTY: after any calls, a call that is refused leaves every entry of the map of groups as
it is, and adds and removes none.
SOURCE: storage/consumer_group.h:98-163, 217-300 -/
theorem refused_changes_nothing (calls : List GroupCall) (call : GroupCall)
    (hrefused : Refused (JoinHistory.run calls).manager call) (id : Bytes) :
    (call.apply (JoinHistory.run calls).manager).groups.lookup id =
      (JoinHistory.run calls).manager.groups.lookup id := by
  have hnamed := kept_named.run fun c (_ : c ∈ calls) => joinsMeet_true c
  generalize (JoinHistory.run calls).manager = mgr at hrefused hnamed ⊢
  cases call with
  | join env req =>
    show (mgr.joinGroup env req).1.groups.lookup id = _
    rcases joinGroup_cases env mgr req with ⟨_, -, hjoin⟩ | ⟨_, -, -, hjoin⟩ | ⟨hmembers, hjoin⟩
    · rw [Refused, hjoin] at hrefused
      exact absurd hrefused (by simp [joinResponse])
    · rw [Refused, hjoin] at hrefused
      exact absurd hrefused (by simp [joinResponse])
    · rw [hjoin]
      exact lookup_put_joining hnamed hmembers id
  | sync req =>
    rcases syncGroup_cases mgr req with ⟨hsame, -, -⟩ | ⟨group, hgroup, hmem, hgen⟩
    · rw [GroupCall.apply, hsame]
    · rw [Refused, syncGroup_accept hgroup hmem hgen] at hrefused
      exact absurd hrefused (by simp)
  | heartbeat env req =>
    rcases heartbeat_cases env mgr req with ⟨hsame, -⟩ | ⟨group, member, hgroup, hmember, hgen⟩
    · rw [GroupCall.apply, hsame]
    · rw [Refused, heartbeat_accept env hgroup hmember hgen] at hrefused
      dsimp only at hrefused
      split at hrefused <;> exact absurd hrefused (by decide)
  | leave env req =>
    rcases leaveGroup_cases env mgr req with hsame | ⟨group, hgroup, -, hleave⟩
    · rw [GroupCall.apply, hsame]
    · rw [Refused, hleave] at hrefused
      exact absurd hrefused (by simp)
  | offsetCommit req => exact hrefused.elim
  | offsetFetch req => exact hrefused.elim

/-- A JoinGroup of group `g`. -/
def joinG (memberId : Bytes) : GroupCall :=
  .join GroupEnv.plain { groupId := ascii "g", memberId := memberId, clientId := ascii "c" }

/-- A JoinGroup of a member that the group does not know: it writes the name of the group, which
the group has. -/
theorem refused_changes_nothing_join :
    ((joinG (ascii "x")).apply (JoinHistory.run [joinG []]).manager).groups.lookup (ascii "g") =
      (JoinHistory.run [joinG []]).manager.groups.lookup (ascii "g") :=
  refused_changes_nothing [joinG []] (joinG (ascii "x"))
    (show (_ : ℤ) = 25 by decide +kernel) (ascii "g")

/-! ## Names -/

/-- The name that the entry of an id has, if there is one. -/
def nameOf (mgr : ConsumerGroupManager) (id : Bytes) : Option Bytes :=
  (mgr.groups.lookup id).map ConsumerGroup.groupId

/-- Every entry has the name it is stored under, and the detail of a group is what the list says
about it. -/
structure SelfNamed (mgr : ConsumerGroupManager) : Prop where
  entry : ∀ id group, mgr.groups.lookup id = some group → group.groupId = id
  detail : ∀ id d, mgr.getGroup id = some d → d.groupId = id ∧
    ∀ info, info ∈ mgr.listGroups ∧ info.groupId = id ↔
      info = ⟨d.groupId, d.state, d.generationId, d.members.length⟩

/-- A call that joins the group, or tries to. -/
def Joins (id : Bytes) : GroupCall → Prop
  | .join _ req => req.groupId = id
  | _ => False

def Commits (id : Bytes) : GroupCall → Prop
  | .offsetCommit req => req.groupId = id
  | _ => False

section Steps

variable {mgr : ConsumerGroupManager} {id : Bytes}

theorem nameOf_put (group : ConsumerGroup) (key : Bytes) :
    nameOf (mgr.put key group) id = if key = id then some group.groupId else nameOf mgr id := by
  unfold nameOf
  split
  · next h => rw [h, lookup_put, Option.map_some]
  · next h => rw [lookup_put_ne (Ne.symm h)]

/-- INTERNAL: a group that is stored again under its name. -/
theorem nameOf_put_same {group group' : ConsumerGroup} {key : Bytes}
    (hgroup : mgr.groups.lookup key = some group) (hname : group'.groupId = group.groupId) :
    nameOf (mgr.put key group') id = nameOf mgr id := by
  rw [nameOf_put]
  split
  · next h => rw [← h, nameOf, hgroup, hname, Option.map_some]
  · rfl

/-- INTERNAL: the entry that a join stores has its id as its name. -/
theorem nameOf_of_joins {call : GroupCall} (h : Joins id call) :
    nameOf (call.apply mgr) id = some id := by
  cases call with
  | join env req =>
    have hput : ∃ group, (mgr.joinGroup env req).1 = mgr.put req.groupId group ∧
        group.groupId = req.groupId := by
      rcases joinGroup_cases env mgr req with ⟨_, -, h⟩ | ⟨_, -, -, h⟩ | ⟨-, h⟩
      all_goals exact ⟨_, congrArg Prod.fst h, rfl⟩
    obtain ⟨group, hjoin, hname⟩ := hput
    obtain rfl : req.groupId = id := h
    rw [GroupCall.apply, hjoin, nameOf_put, hname, if_pos rfl]
  | sync | heartbeat | leave | offsetCommit | offsetFetch => exact h.elim

/-- INTERNAL: a commit leaves the name as it is, and names a new entry not at all. -/
theorem nameOf_of_commits {call : GroupCall} (h : Commits id call) :
    nameOf (call.apply mgr) id = some ((nameOf mgr id).getD []) := by
  cases call with
  | offsetCommit req =>
    obtain ⟨offsets, metadata, hfold⟩ :=
      foldl_commitOffset req.partitions (mgr.groupOrNew req.groupId)
    have hname : (mgr.groupOrNew req.groupId).groupId = (nameOf mgr req.groupId).getD [] := by
      unfold groupOrNew nameOf
      cases mgr.groups.lookup req.groupId <;> rfl
    obtain rfl : req.groupId = id := h
    show nameOf (mgr.put req.groupId _) req.groupId = _
    rw [nameOf_put, hfold, if_pos rfl, ← hname]
  | join | sync | heartbeat | leave | offsetFetch => exact h.elim

/-- INTERNAL: no other call names a group, or makes an entry. -/
theorem nameOf_of_other {call : GroupCall} (hjoins : ¬ Joins id call)
    (hcommits : ¬ Commits id call) : nameOf (call.apply mgr) id = nameOf mgr id := by
  cases call with
  | join env req =>
    have hid : ¬ req.groupId = id := hjoins
    rcases joinGroup_cases env mgr req with ⟨_, -, h⟩ | ⟨_, -, -, h⟩ | ⟨-, h⟩
    all_goals rw [GroupCall.apply, h, nameOf_put, if_neg hid]
  | sync req =>
    rcases syncGroup_cases mgr req with ⟨hsame, -, -⟩ | ⟨group, hgroup, hmem, hgen⟩
    · rw [GroupCall.apply, hsame]
    · rw [GroupCall.apply, syncGroup_accept hgroup hmem hgen]
      exact nameOf_put_same hgroup (groupId_acceptSync group req)
  | heartbeat env req =>
    rcases heartbeat_cases env mgr req with ⟨hsame, -⟩ | ⟨group, member, hgroup, hmember, hgen⟩
    · rw [GroupCall.apply, hsame]
    · rw [GroupCall.apply, heartbeat_accept env hgroup hmember hgen]
      exact nameOf_put_same hgroup (groupId_checkSessionTimeouts env _)
  | leave env req =>
    rcases leaveGroup_cases env mgr req with hsame | ⟨group, hgroup, -, hleave⟩
    · rw [GroupCall.apply, hsame]
    · rw [GroupCall.apply, hleave]
      exact nameOf_put_same hgroup (groupId_removeMember env group _)
  | offsetCommit req =>
    have hid : ¬ req.groupId = id := hcommits
    show nameOf (mgr.put req.groupId _) id = _
    rw [nameOf_put, if_neg hid]
  | offsetFetch req => rfl

end Steps

/-- INTERNAL: **the run lemma**: a group is named once it was joined, and has an entry without a
name if it was only committed to. -/
theorem nameOf_run (calls : List GroupCall) (id : Bytes) :
    ((∃ c ∈ calls, Joins id c) → nameOf (JoinHistory.run calls).manager id = some id) ∧
    ((¬ ∃ c ∈ calls, Joins id c) → (∃ c ∈ calls, Commits id c) →
      nameOf (JoinHistory.run calls).manager id = some []) ∧
    ((¬ ∃ c ∈ calls, Joins id c) → (¬ ∃ c ∈ calls, Commits id c) →
      nameOf (JoinHistory.run calls).manager id = none) := by
  induction calls using List.reverseRecOn with
  | nil => exact ⟨by simp, by simp, fun _ _ => rfl⟩
  | append_singleton calls call ih =>
    obtain ⟨hjoined, hcommitted, hnone⟩ := ih
    rw [run_concat]
    simp only [List.mem_append, List.mem_singleton, or_and_right, exists_or, exists_eq_left,
      JoinHistory.step, not_or]
    refine ⟨fun h => ?_, fun h hc => ?_, fun h hc => ?_⟩
    · by_cases hjoins : Joins id call
      · exact nameOf_of_joins hjoins
      · have hname := hjoined (h.resolve_right hjoins)
        by_cases hcommits : Commits id call
        · rw [nameOf_of_commits hcommits, hname, Option.getD_some]
        · rw [nameOf_of_other hjoins hcommits, hname]
    · by_cases hcommits : Commits id call
      · rw [nameOf_of_commits hcommits]
        by_cases hearlier : ∃ c ∈ calls, Commits id c
        · rw [hcommitted h.1 hearlier, Option.getD_some]
        · rw [hnone h.1 hearlier, Option.getD_none]
      · rw [nameOf_of_other h.2 hcommits]
        exact hcommitted h.1 (hc.resolve_right hcommits)
    · rw [nameOf_of_other h.2 hc.2]
      exact hnone h.1 hc.1

/-- INTERNAL: the queries agree where the names do. -/
theorem selfNamed_iff {mgr : ConsumerGroupManager} :
    SelfNamed mgr ↔ ∀ id name, nameOf mgr id = some name → name = id := by
  constructor
  · intro h id name hname
    obtain ⟨group, hgroup, rfl⟩ := Option.map_eq_some_iff.mp hname
    exact h.entry id group hgroup
  · intro h
    have hentry : ∀ id group, mgr.groups.lookup id = some group → group.groupId = id := by
      intro id group hgroup
      exact h id _ (by rw [nameOf, hgroup, Option.map_some])
    refine ⟨hentry, fun id d hd => ?_⟩
    obtain ⟨group, hgroup, hdetail⟩ := Option.bind_eq_some_iff.mp hd
    obtain rfl := Option.some.inj hdetail
    refine ⟨hentry id group hgroup, fun info => ?_⟩
    dsimp only
    rw [hentry id group hgroup, List.length_map]
    constructor
    · rintro ⟨hinfo, hid⟩
      obtain ⟨⟨key, group'⟩, hmem, rfl⟩ := List.mem_map.mp hinfo
      obtain rfl : key = id := hid
      have hgroup' := AList.mem_lookup_iff.mpr hmem
      obtain rfl : group = group' := Option.some.inj (hgroup.symm.trans hgroup')
      rfl
    · rintro rfl
      exact ⟨List.mem_map.mpr ⟨⟨id, group⟩, AList.mem_lookup_iff.mp hgroup, rfl⟩, rfl⟩

/-- PROPERTY: after any calls, every entry of the map of groups has the name it is stored under,
and the detail of every group agrees with the list, if and only if every group with a non-empty
name that offsets were committed to was also joined.
SOURCE: storage/consumer_group.h:72-101, 317-333 -/
theorem groups_self_named_iff (calls : List GroupCall) :
    SelfNamed (JoinHistory.run calls).manager ↔
      ∀ id, id ≠ [] → (∃ c ∈ calls, Commits id c) → ∃ c ∈ calls, Joins id c := by
  rw [selfNamed_iff]
  constructor
  · intro h id hne hcommitted
    by_contra hnot
    exact hne (h id [] ((nameOf_run calls id).2.1 hnot hcommitted)).symm
  · intro h id name hname
    obtain ⟨hjoined, hcommitted, hnone⟩ := nameOf_run calls id
    by_cases hjoin : ∃ c ∈ calls, Joins id c
    · exact (Option.some.inj ((hjoined hjoin).symm.trans hname)).symm
    · by_cases hcommit : ∃ c ∈ calls, Commits id c
      · by_contra hne
        refine hjoin (h id (fun hnil => hne ?_) hcommit)
        rw [hnil]
        exact (Option.some.inj ((hcommitted hjoin hcommit).symm.trans hname)).symm
      · exact absurd ((hnone hjoin hcommit).symm.trans hname) (by simp)

/-- Offsets are committed for group `g`, which nobody joined: its entry has no name, and the list
and the detail disagree. -/
theorem committed_group_has_no_name :
    let mgr := (JoinHistory.run [.offsetCommit { groupId := ascii "g" }]).manager
    mgr.listGroups.map GroupInfo.groupId = [ascii "g"] ∧
      (mgr.getGroup (ascii "g")).map GroupDetail.groupId = some [] ∧ ¬ SelfNamed mgr := by
  refine ⟨by decide +kernel, by decide +kernel, fun h => ?_⟩
  have hname := selfNamed_iff.mp h (ascii "g") [] (by decide +kernel)
  exact absurd hname (by decide)

end StrikeMQ.Analysis.GroupEntries
