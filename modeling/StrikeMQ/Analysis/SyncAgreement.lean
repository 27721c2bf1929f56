import StrikeMQ.Analysis.GroupCalls

/-!
# Whose assignment a SyncGroup returns

`sync_group` answers at once with whatever assignment the member's entry holds. The
invariant is that the entry holds what the leader of the current generation last supplied,
if it supplied anything: within a generation nothing but the leader's SyncGroup touches
assignments, and every operation that could hand a member's entry to another one starts a
new generation. When the leader has supplied nothing yet, the entry holds what is left of an
earlier generation, or nothing.
-/

set_option autoImplicit false

namespace StrikeMQ.Analysis.SyncAgreement

open StrikeMQ.Lib StrikeMQ.Model StrikeMQ.Interface
open StrikeMQ.Model.ConsumerGroupManager StrikeMQ.Analysis.GroupCalls

theorem toInt32_succ_ne (g : ℤ) : toInt32 (g + 1) ≠ g := by
  simp only [toInt32, Int.bmod_def]
  split <;> omega

/-- INTERNAL: the last entry for a member decides, starting from what was found before. -/
theorem foldl_named (assignments : List SyncGroupAssignment) (memberId : Bytes)
    (found : Option Bytes) :
    assignments.foldl (fun found a => if a.memberId = memberId then some a.assignment else found)
      found = (named assignments memberId).or found := by
  induction assignments generalizing found with
  | nil => simp [named]
  | cons a assignments ih =>
    have htail := ih (if a.memberId = memberId then some a.assignment else none)
    rw [named, List.foldl_cons, List.foldl_cons, ih, htail]
    by_cases ha : a.memberId = memberId
    · simp [ha]
    · simp [ha]

/-- INTERNAL: storing a list gives every named member its last assignment in the list and
leaves the rest of every entry alone. -/
theorem lookup_storeAssignments (members : Members) (assignments : List SyncGroupAssignment)
    (memberId : Bytes) :
    (storeAssignments members assignments).lookup memberId =
      (members.lookup memberId).map fun m =>
        { m with assignment := (named assignments memberId).getD m.assignment } := by
  induction assignments generalizing members with
  | nil => simp [storeAssignments, named]
  | cons a assignments ih =>
    have hnamed : named (a :: assignments) memberId =
        (named assignments memberId).or (if a.memberId = memberId then some a.assignment else none) := by
      rw [← foldl_named]
      rfl
    rw [hnamed]
    unfold storeAssignments at ih ⊢
    rw [List.foldl_cons, ih]
    by_cases ha : a.memberId = memberId
    · subst ha
      cases hm : members.lookup a.memberId with
      | none => simp [hm]
      | some m => cases named assignments a.memberId <;> simp
    · have hne : memberId ≠ a.memberId := fun h => ha h.symm
      cases hm : members.lookup a.memberId with
      | none => simp [ha]
      | some m => simp [ha, AList.lookup_insert_ne hne]

/-! ## What a call does to a group of the same generation -/

/-- INTERNAL: every member of `after` was one of `before`, with the same assignment. -/
def KeepsAssignments (before after : Members) : Prop :=
  ∀ m entry', after.lookup m = some entry' →
    ∃ entry, before.lookup m = some entry ∧ entry.assignment = entry'.assignment

theorem KeepsAssignments.refl (members : Members) : KeepsAssignments members members :=
  fun _ entry' h => ⟨entry', h, rfl⟩

/-- INTERNAL: replacing an entry by one with the same assignment. -/
theorem keepsAssignments_insert {members : Members} {id : Bytes} {m m' : MemberMetadata}
    (hm : members.lookup id = some m) (hsame : m'.assignment = m.assignment) :
    KeepsAssignments members (members.insert id m') := by
  intro k entry' hk
  by_cases h : k = id
  · subst h
    rw [AList.lookup_insert, Option.some.injEq] at hk
    exact ⟨m, hm, by rw [← hk, hsame]⟩
  · rw [AList.lookup_insert_ne h] at hk
    exact ⟨entry', hk, rfl⟩

/-- INTERNAL: session expiry without a new generation erases members and nothing else. -/
theorem keepsAssignments_checkSessionTimeouts (env : GroupEnv) (group : ConsumerGroup) :
    KeepsAssignments group.members (checkSessionTimeouts env group).members := by
  rcases checkSessionTimeouts_cases env group with hnone | ⟨-, hall⟩ | ⟨-, hsome⟩
  · rw [hnone]
    exact KeepsAssignments.refl _
  · rw [hall]
    exact fun _ entry' hk => ⟨entry', lookup_foldl_erase hk, rfl⟩
  · rw [hsome]
    exact fun _ entry' hk => ⟨entry', lookup_foldl_erase hk, rfl⟩

/-- INTERNAL: what a call other than SyncGroup does to any group: the group is as before up
to entries kept or erased, or its generation is another one. -/
def Quiet (mgr mgr' : ConsumerGroupManager) : Prop :=
  ∀ id group', mgr'.groups.lookup id = some group' →
    generation mgr' id = generation mgr id →
    ∃ group, mgr.groups.lookup id = some group ∧
      KeepsAssignments group.members group'.members

theorem Quiet.refl (mgr : ConsumerGroupManager) : Quiet mgr mgr :=
  fun _ group' h _ => ⟨group', h, KeepsAssignments.refl _⟩

/-- INTERNAL: a call that stores one group is quiet if that group is kept or renewed. -/
theorem quiet_put {mgr : ConsumerGroupManager} {id : Bytes} {group' : ConsumerGroup}
    (h : ∀ group, mgr.groups.lookup id = some group →
      group'.generationId = group.generationId →
        KeepsAssignments group.members group'.members) :
    Quiet mgr (mgr.put id group') := by
  intro k g' hk hgen
  by_cases hid : k = id
  · subst hid
    rw [lookup_put, Option.some.injEq] at hk
    subst hk
    cases hold : mgr.groups.lookup k with
    | none => simp [generation, hold] at hgen
    | some group =>
      simp only [generation, hold, lookup_put, Option.map_some, Option.some.injEq] at hgen
      exact ⟨group, rfl, h group hold hgen⟩
  · rw [lookup_put_ne hid] at hk
    exact ⟨g', hk, KeepsAssignments.refl _⟩

/-- INTERNAL: a JoinGroup is quiet. -/
theorem quiet_joinGroup (env : GroupEnv) (mgr : ConsumerGroupManager) (req : JoinGroupRequest) :
    Quiet mgr (mgr.joinGroup env req).1 := by
  rcases joinGroup_cases env mgr req with ⟨id, -, hjoin⟩ | ⟨member, hmember, -, hjoin⟩ | ⟨-, hjoin⟩
  · rw [hjoin]
    apply quiet_put
    intro group hold hgen
    have hnew : toInt32 (group.generationId + 1) = group.generationId := by
      simpa [addMember, joining, groupOrNew, hold] using hgen
    exact absurd hnew (toInt32_succ_ne _)
  · rw [hjoin]
    apply quiet_put
    intro group hold _
    simp only [joining, groupOrNew, hold, Option.getD_some] at hmember ⊢
    exact keepsAssignments_insert hmember rfl
  · rw [hjoin]
    apply quiet_put
    intro group hold _
    simp only [joining, groupOrNew, hold, Option.getD_some]
    exact KeepsAssignments.refl _

/-- INTERNAL: a Heartbeat is quiet. -/
theorem quiet_heartbeat (env : GroupEnv) (mgr : ConsumerGroupManager) (req : HeartbeatRequest) :
    Quiet mgr (mgr.heartbeat env req).1 := by
  rcases heartbeat_cases env mgr req with ⟨hsame, -⟩ | ⟨group, member, hgroup, hmember, hgen⟩
  · rw [hsame]
    exact Quiet.refl mgr
  · rw [heartbeat_accept env hgroup hmember hgen]
    apply quiet_put
    intro group₀ hold _
    obtain rfl : group = group₀ := Option.some.inj (hgroup.symm.trans hold)
    intro k entry' hk
    obtain ⟨entry₁, hk₁, hsame₁⟩ := keepsAssignments_checkSessionTimeouts env _ k entry' hk
    have htouched : KeepsAssignments group.members
        (touched env group req.memberId member).members :=
      keepsAssignments_insert hmember rfl
    obtain ⟨entry₀, hk₀, hsame₀⟩ := htouched k entry₁ hk₁
    exact ⟨entry₀, hk₀, hsame₀.trans hsame₁⟩

/-- INTERNAL: a LeaveGroup is quiet. -/
theorem quiet_leaveGroup (env : GroupEnv) (mgr : ConsumerGroupManager) (req : LeaveGroupRequest) :
    Quiet mgr (mgr.leaveGroup env req).1 := by
  rcases leaveGroup_cases env mgr req with hsame | ⟨group, hgroup, -, hleave⟩
  · rw [hsame]
    exact Quiet.refl mgr
  · rw [hleave]
    apply quiet_put
    intro group₀ hold hgen
    obtain rfl : group = group₀ := Option.some.inj (hgroup.symm.trans hold)
    have hnew : toInt32 (group.generationId + 1) = group.generationId := by
      rcases removeMember_cases env group req.memberId with ⟨-, hlast⟩ | ⟨-, hrest⟩
      · rwa [hlast] at hgen
      · rwa [hrest] at hgen
    exact absurd hnew (toInt32_succ_ne _)

/-- INTERNAL: an OffsetCommit is quiet. -/
theorem quiet_offsetCommit (mgr : ConsumerGroupManager) (req : OffsetCommitRequest) :
    Quiet mgr (mgr.offsetCommit req).1 := by
  apply quiet_put
  intro group hold _ k entry' hk
  obtain ⟨offsets, metadata, hfold⟩ := foldl_commitOffset req.partitions (mgr.groupOrNew req.groupId)
  rw [hfold, groupOrNew, hold] at hk
  exact ⟨entry', hk, rfl⟩

/-! ## The invariant -/

/-- INTERNAL: entries hold what the leader of the current generation supplied. -/
def Inv (h : GroupHistory) : Prop :=
  ∀ id group m entry a, h.manager.groups.lookup id = some group →
    group.members.lookup m = some entry → h.supplied id m = some a → entry.assignment = a

/-- INTERNAL: a call that only keeps or erases entries keeps the invariant. -/
theorem inv_step_of_quiet {h : GroupHistory} {call : GroupCall} (hinv : Inv h)
    (hquiet : Quiet h.manager (call.apply h.manager))
    (hsup : ∀ id m, h.suppliedBy call id m = h.supplied id m) : Inv (h.step call) := by
  intro id group' m entry' a hgroup hmember hsupplied
  have hsupplied' : (if generation (call.apply h.manager) id = generation h.manager id then
      h.suppliedBy call id m else none) = some a := hsupplied
  split at hsupplied'
  · next hgen =>
    obtain ⟨group, hold, hkeeps⟩ := hquiet id group' hgroup hgen
    obtain ⟨entry, hentry, hsame⟩ := hkeeps m entry' hmember
    rw [← hsame]
    exact hinv id group m entry a hold hentry (by rw [← hsup]; exact hsupplied')
  · exact absurd hsupplied' (by simp)

section Accepted

/-! One accepted SyncGroup: the group exists, the caller is a member and names the current
generation. -/

variable {mgr : ConsumerGroupManager} {req : SyncGroupRequest} {group : ConsumerGroup}
  (hgroup : mgr.groups.lookup req.groupId = some group) (hmem : req.memberId ∈ group.members)
  (hgen : req.generationId = group.generationId)

include hgroup hmem hgen

/-- INTERNAL: the request keeps the group's generation and, seen through the members'
entries, stores exactly what the list of a leader names. -/
theorem lookup_acceptSync (m : Bytes) :
    (acceptSync group req).generationId = group.generationId ∧
    (acceptSync group req).members.lookup m = (group.members.lookup m).map fun e =>
      { e with assignment :=
          (if FromLeader mgr req then named req.assignments m else none).getD e.assignment } := by
  have hleader : FromLeader mgr req ↔ req.memberId = group.leaderId := by
    constructor
    · rintro ⟨g, hg, -, -, hl⟩
      obtain rfl : group = g := Option.some.inj (hgroup.symm.trans hg)
      exact hl
    · intro hl
      exact ⟨group, hgroup, hmem, hgen, hl⟩
  unfold acceptSync
  by_cases hl : req.memberId = group.leaderId
  · by_cases ha : req.assignments = []
    · rw [if_neg (by simp [ha]), if_pos (hleader.mpr hl), ha]
      exact ⟨rfl, by simp [named]⟩
    · rw [if_pos ⟨hl, ha⟩, if_pos (hleader.mpr hl)]
      exact ⟨rfl, lookup_storeAssignments _ _ _⟩
  · rw [if_neg (fun h => hl h.1), if_neg (fun h => hl (hleader.mp h))]
    exact ⟨rfl, by simp⟩

/-- INTERNAL: the request keeps every group's generation. -/
theorem generation_syncGroup (id : Bytes) :
    generation (mgr.syncGroup req).1 id = generation mgr id := by
  rw [syncGroup_accept hgroup hmem hgen]
  unfold generation
  by_cases hid : id = req.groupId
  · subst hid
    rw [lookup_put, hgroup, Option.map_some, Option.map_some,
      (lookup_acceptSync hgroup hmem hgen []).1]
  · rw [lookup_put_ne hid]

end Accepted

/-- INTERNAL: what the history holds after an accepted SyncGroup. -/
theorem supplied_step_sync {h : GroupHistory} {req : SyncGroupRequest} {group : ConsumerGroup}
    (hgroup : h.manager.groups.lookup req.groupId = some group)
    (hmem : req.memberId ∈ group.members) (hgen : req.generationId = group.generationId)
    (id m : Bytes) :
    (h.step (.sync req)).supplied id m = h.suppliedBy (.sync req) id m :=
  if_pos (generation_syncGroup hgroup hmem hgen id)

/-- INTERNAL: **a SyncGroup keeps the invariant**. -/
theorem inv_step_sync {h : GroupHistory} (hinv : Inv h) (req : SyncGroupRequest) :
    Inv (h.step (.sync req)) := by
  rcases syncGroup_cases h.manager req with ⟨hsame, -, hnot⟩ | ⟨group, hgroup, hmem, hgen⟩
  · apply inv_step_of_quiet hinv
    · show Quiet h.manager (h.manager.syncGroup req).1
      rw [hsame]
      exact Quiet.refl _
    · intro id m
      show (if _ then _ else _) = _
      rw [if_neg (fun hcon => hnot hcon.2)]
  · intro id group' m entry' a hid hentry' hsup
    rw [supplied_step_sync hgroup hmem hgen] at hsup
    have hid' : (h.manager.syncGroup req).1.groups.lookup id = some group' := hid
    rw [syncGroup_accept hgroup hmem hgen] at hid'
    by_cases heq : req.groupId = id
    · subst heq
      rw [lookup_put, Option.some.injEq] at hid'
      rw [← hid', (lookup_acceptSync hgroup hmem hgen m).2, Option.map_eq_some_iff] at hentry'
      obtain ⟨entry, hentry, rfl⟩ := hentry'
      have hold := hinv req.groupId group m entry
      by_cases hleader : FromLeader h.manager req
      · simp only [GroupHistory.suppliedBy, hleader, and_self, if_true] at hsup
        rw [if_pos hleader]
        cases hnamed : named req.assignments m with
        | none =>
          rw [hnamed, Option.none_or] at hsup
          exact hold a hgroup hentry hsup
        | some x =>
          rw [hnamed, Option.some_or, Option.some.injEq] at hsup
          exact hsup
      · simp only [GroupHistory.suppliedBy, hleader, and_false, if_false] at hsup
        rw [if_neg hleader]
        exact hold a hgroup hentry hsup
    · have hne : id ≠ req.groupId := fun hcon => heq hcon.symm
      rw [lookup_put_ne hne] at hid'
      simp only [GroupHistory.suppliedBy, heq, false_and, if_false] at hsup
      exact hinv id group' m entry' a hid' hentry' hsup

/-- INTERNAL: **the step lemma**, one case per kind of call. -/
theorem inv_step {h : GroupHistory} (hinv : Inv h) (call : GroupCall) : Inv (h.step call) := by
  cases call with
  | join env req => exact inv_step_of_quiet hinv (quiet_joinGroup env _ req) fun _ _ => rfl
  | sync req => exact inv_step_sync hinv req
  | heartbeat env req => exact inv_step_of_quiet hinv (quiet_heartbeat env _ req) fun _ _ => rfl
  | leave env req => exact inv_step_of_quiet hinv (quiet_leaveGroup env _ req) fun _ _ => rfl
  | offsetCommit req => exact inv_step_of_quiet hinv (quiet_offsetCommit _ req) fun _ _ => rfl
  | offsetFetch req => exact inv_step_of_quiet hinv (Quiet.refl _) fun _ _ => rfl

/-- INTERNAL: **the run lemma**. -/
theorem inv_run (calls : List GroupCall) : Inv (GroupHistory.run calls) := by
  induction calls using List.reverseRecOn with
  | nil =>
    intro id group m entry a hid
    exact absurd hid (by simp [GroupHistory.run])
  | append_singleton calls call ih =>
    have hrun : GroupHistory.run (calls ++ [call]) = (GroupHistory.run calls).step call := by
      simp [GroupHistory.run]
    rw [hrun]
    exact inv_step ih call

/-- PROPERTY: after any calls by any clients, an accepted SyncGroup of member `m` returns the
assignment that the leader of the current generation last supplied for `m` if and only if
the leader has supplied one, in an earlier request or in this one.
SOURCE: storage/consumer_group.h:98-315 -/
theorem sync_returns_leader_assignment_iff (calls : List GroupCall) (req : SyncGroupRequest)
    (hok : ((GroupHistory.run calls).manager.syncGroup req).2.errorCode = 0) :
    ((GroupHistory.run calls).step (.sync req)).supplied req.groupId req.memberId =
        some ((GroupHistory.run calls).manager.syncGroup req).2.memberAssignment ↔
      (GroupHistory.run calls).LeaderNamed req := by
  have hinv := inv_step (inv_run calls) (.sync req)
  generalize GroupHistory.run calls = h at hok hinv ⊢
  rcases syncGroup_cases h.manager req with ⟨-, herr, -⟩ | ⟨group, hgroup, hmem, hgen⟩
  · exact absurd hok herr
  have hsup := supplied_step_sync hgroup hmem hgen req.groupId req.memberId
  have hby : (h.suppliedBy (.sync req) req.groupId req.memberId).isSome ↔ h.LeaderNamed req := by
    unfold GroupHistory.suppliedBy GroupHistory.LeaderNamed
    by_cases hleader : FromLeader h.manager req
    · simp [hleader, or_comm]
    · simp [hleader]
  rw [← hby, ← hsup]
  constructor
  · intro heq
    rw [heq]
    rfl
  · intro hsome
    obtain ⟨a, ha⟩ := Option.isSome_iff_exists.mp hsome
    -- the caller's entry, as the request leaves it
    obtain ⟨entry, hentry⟩ := Option.isSome_iff_exists.mp (AList.lookup_isSome.mpr hmem)
    have hafter := (lookup_acceptSync hgroup hmem hgen req.memberId).2
    rw [hentry, Option.map_some] at hafter
    have hmgr : (h.step (.sync req)).manager.groups.lookup req.groupId =
        some (acceptSync group req) := by
      show (h.manager.syncGroup req).1.groups.lookup req.groupId = _
      rw [syncGroup_accept hgroup hmem hgen, lookup_put]
    have hassign := hinv req.groupId _ req.memberId _ a hmgr hafter ha
    rw [ha, syncGroup_accept hgroup hmem hgen, hafter, ← hassign]
    rfl

/-- The first member of group `g` joins as `a` and is its leader; the second one joins
without an id and is given `b-00000000`. -/
def twoJoins : List GroupCall :=
  [.join GroupEnv.plain { groupId := ascii "g", memberId := ascii "a", clientId := ascii "a" },
   .join GroupEnv.plain { groupId := ascii "g", clientId := ascii "b" }]

/-- The leader's SyncGroup for both members. -/
def leaderSync : SyncGroupRequest :=
  { groupId := ascii "g", generationId := 2, memberId := ascii "a"
    assignments := [⟨ascii "a", [1]⟩, ⟨ascii "b-00000000", [2]⟩] }

/-- The second member's SyncGroup in generation `g`. -/
def memberSync (g : ℤ) : SyncGroupRequest :=
  { groupId := ascii "g", generationId := g, memberId := ascii "b-00000000" }

/-- The leader has named the second member, whose SyncGroup is answered with what it was given. -/
theorem sync_returns_leader_assignment_iff_after_leader :
    let h := GroupHistory.run (twoJoins ++ [.sync leaderSync])
    (h.manager.syncGroup (memberSync 2)).2.errorCode = 0 ∧ h.LeaderNamed (memberSync 2) ∧
      (h.step (.sync (memberSync 2))).supplied (memberSync 2).groupId (memberSync 2).memberId =
        some (h.manager.syncGroup (memberSync 2)).2.memberAssignment := by
  intro h
  have hnamed : h.LeaderNamed (memberSync 2) := Or.inl (by decide +kernel)
  refine ⟨by decide +kernel, hnamed, (sync_returns_leader_assignment_iff _ _ ?_).mpr hnamed⟩
  decide +kernel

/-- A third member joins after the leader assigned both of the first two. -/
def thirdJoin : List GroupCall :=
  twoJoins ++
    [.sync leaderSync, .join GroupEnv.plain { groupId := ascii "g", clientId := ascii "c" }]

/-- The second member syncs in the new generation before the leader does, and is given its
assignment of the generation before, although the leader of this one supplied nothing. -/
theorem sync_returns_assignment_of_earlier_generation :
    ((GroupHistory.run thirdJoin).manager.syncGroup (memberSync 3)).2 = ⟨0, [2]⟩ ∧
    ((GroupHistory.run thirdJoin).step (.sync (memberSync 3))).supplied
      (memberSync 3).groupId (memberSync 3).memberId = none := by
  decide +kernel

end StrikeMQ.Analysis.SyncAgreement
