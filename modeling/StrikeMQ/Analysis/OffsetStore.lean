import StrikeMQ.Analysis.GroupRefinement

/-!
# The offset store

A consumer that comes back asks its group where it was. The store it asks is two maps in the
group object, one for the offsets and one for their metadata, which every other operation of
the manager shares and which come into being with whatever operation names the group first.

Of a run, only the entries that were committed to the group matter. A commit stores them one
after the other in both maps, and no other operation touches either, so that after any run
both maps are what all entries of the run, stored in their order, make of an empty map. A
fetch therefore gives the latest entry of each partition.
-/

set_option autoImplicit false

namespace StrikeMQ.Analysis.OffsetStore

open StrikeMQ.Lib StrikeMQ.Model StrikeMQ.Interface
open StrikeMQ.Model.ConsumerGroupManager
open StrikeMQ.Analysis.GroupCalls StrikeMQ.Analysis.GroupRefinement

/-! ## What was committed -/

/-- The entries that a call commits to the group, in their order. -/
def committedBy (groupId : Bytes) : GroupCall → List OffsetCommitPartitionRequest
  | .offsetCommit req => if req.groupId = groupId then req.partitions else []
  | _ => []

/-- The entries that a run commits to the group, in their order. -/
def committed (groupId : Bytes) (calls : List GroupCall) : List OffsetCommitPartitionRequest :=
  calls.flatMap (committedBy groupId)

/-- The latest entry for the partition. -/
def latest (groupId : Bytes) (tp : TopicPartition) (calls : List GroupCall) :
    Option OffsetCommitPartitionRequest :=
  ((committed groupId calls).filter fun p => p.tp = tp).getLast?

/-! ## The two maps -/

/-- INTERNAL: the two maps of a group. -/
structure Offsets where
  offsets : AList fun _ : TopicPartition => ℤ
  metadata : AList fun _ : TopicPartition => Bytes

def offsetsOf (group : ConsumerGroup) : Offsets :=
  ⟨group.committedOffsets, group.offsetMetadata⟩

/-- INTERNAL: the maps with entries stored in both, one after the other.
SOURCE: storage/consumer_group.h:322-324 -/
def Offsets.store (o : Offsets) (ps : List OffsetCommitPartitionRequest) : Offsets where
  offsets := ps.foldl (fun m p => m.insert p.tp p.offset) o.offsets
  metadata := ps.foldl (fun m p => m.insert p.tp p.metadata) o.metadata

theorem Offsets.store_append (o : Offsets) (ps qs : List OffsetCommitPartitionRequest) :
    o.store (ps ++ qs) = (o.store ps).store qs := by
  simp only [store, List.foldl_append]

theorem offsetsOf_foldl_commitOffset (ps : List OffsetCommitPartitionRequest)
    (group : ConsumerGroup) :
    offsetsOf (ps.foldl commitOffset group) = (offsetsOf group).store ps := by
  induction ps generalizing group with
  | nil => rfl
  | cons p ps ih =>
    rw [List.foldl_cons, ih]
    rfl

/-- INTERNAL: a call that stores a group with the offsets it had. -/
theorem offsetsOf_put {mgr : ConsumerGroupManager} {id : Bytes} {group' : ConsumerGroup}
    (hsame : offsetsOf group' = offsetsOf (mgr.groupOrNew id)) (groupId : Bytes) :
    offsetsOf ((mgr.put id group').groupOrNew groupId) = offsetsOf (mgr.groupOrNew groupId) := by
  by_cases hid : groupId = id
  · rw [hid, groupOrNew_put, hsame]
  · rw [groupOrNew_put_ne hid]

/-- INTERNAL: a JoinGroup changes no offset. -/
theorem offsetsOf_joinGroup (env : GroupEnv) (mgr : ConsumerGroupManager)
    (req : JoinGroupRequest) (groupId : Bytes) :
    offsetsOf ((mgr.joinGroup env req).1.groupOrNew groupId) =
      offsetsOf (mgr.groupOrNew groupId) := by
  rcases joinGroup_cases env mgr req with ⟨id, -, hjoin⟩ | ⟨member, -, -, hjoin⟩ | ⟨-, hjoin⟩
  · rw [hjoin]
    apply offsetsOf_put
    rfl
  · rw [hjoin]
    apply offsetsOf_put
    rfl
  · rw [hjoin]
    apply offsetsOf_put
    rfl

/-- INTERNAL: a SyncGroup changes no offset. -/
theorem offsetsOf_syncGroup (mgr : ConsumerGroupManager) (req : SyncGroupRequest)
    (groupId : Bytes) :
    offsetsOf ((mgr.syncGroup req).1.groupOrNew groupId) =
      offsetsOf (mgr.groupOrNew groupId) := by
  rcases syncGroup_cases mgr req with ⟨hsame, -, -⟩ | ⟨group, hgroup, hmem, hgen⟩
  · rw [hsame]
  · rw [syncGroup_accept hgroup hmem hgen]
    refine offsetsOf_put ?_ groupId
    rw [groupOrNew_of_lookup hgroup]
    unfold acceptSync
    split
    · rfl
    · rfl

/-- INTERNAL: a Heartbeat changes no offset. -/
theorem offsetsOf_heartbeat (env : GroupEnv) (mgr : ConsumerGroupManager)
    (req : HeartbeatRequest) (groupId : Bytes) :
    offsetsOf ((mgr.heartbeat env req).1.groupOrNew groupId) =
      offsetsOf (mgr.groupOrNew groupId) := by
  rcases heartbeat_cases env mgr req with ⟨hsame, -⟩ | ⟨group, member, hgroup, hmember, hgen⟩
  · rw [hsame]
  · rw [heartbeat_accept env hgroup hmember hgen]
    refine offsetsOf_put ?_ groupId
    rw [groupOrNew_of_lookup hgroup]
    rcases checkSessionTimeouts_cases env (touched env group req.memberId member) with
      hnobody | ⟨-, hall⟩ | ⟨-, hrest⟩
    · rw [hnobody]
      rfl
    · rw [hall]
      rfl
    · rw [hrest]
      rfl

/-- INTERNAL: a LeaveGroup changes no offset. -/
theorem offsetsOf_leaveGroup (env : GroupEnv) (mgr : ConsumerGroupManager)
    (req : LeaveGroupRequest) (groupId : Bytes) :
    offsetsOf ((mgr.leaveGroup env req).1.groupOrNew groupId) =
      offsetsOf (mgr.groupOrNew groupId) := by
  rcases leaveGroup_cases env mgr req with hsame | ⟨group, hgroup, -, hleave⟩
  · rw [hsame]
  · rw [hleave]
    refine offsetsOf_put ?_ groupId
    rw [groupOrNew_of_lookup hgroup]
    rcases removeMember_cases env group req.memberId with ⟨-, hlast⟩ | ⟨-, hleft⟩
    · rw [hlast]
      rfl
    · rw [hleft]
      rfl

/-- INTERNAL: **the step lemma**: a call stores the entries it commits to the group, and
nothing else. -/
theorem offsetsOf_apply (mgr : ConsumerGroupManager) (call : GroupCall) (groupId : Bytes) :
    offsetsOf ((call.apply mgr).groupOrNew groupId) =
      (offsetsOf (mgr.groupOrNew groupId)).store (committedBy groupId call) := by
  cases call with
  | join env req => exact offsetsOf_joinGroup env mgr req groupId
  | sync req => exact offsetsOf_syncGroup mgr req groupId
  | heartbeat env req => exact offsetsOf_heartbeat env mgr req groupId
  | leave env req => exact offsetsOf_leaveGroup env mgr req groupId
  | offsetFetch req => rfl
  | offsetCommit req =>
    simp only [GroupCall.apply, offsetCommit, committedBy]
    by_cases hid : req.groupId = groupId
    · rw [if_pos hid, ← hid, groupOrNew_put, offsetsOf_foldl_commitOffset]
    · rw [if_neg hid, groupOrNew_put_ne (Ne.symm hid)]
      rfl

/-- INTERNAL: **the run lemma**: the maps of a group hold what was committed to it. -/
theorem offsetsOf_run (calls : List GroupCall) (groupId : Bytes) :
    offsetsOf ((JoinHistory.run calls).manager.groupOrNew groupId) =
      Offsets.store ⟨∅, ∅⟩ (committed groupId calls) := by
  induction calls using List.reverseRecOn with
  | nil => rfl
  | append_singleton calls call ih =>
    have hstep : (JoinHistory.run (calls ++ [call])).manager =
        call.apply (JoinHistory.run calls).manager := by
      rw [run_concat]
      rfl
    have hnew : committed groupId (calls ++ [call]) =
        committed groupId calls ++ committedBy groupId call := by
      simp [committed]
    rw [hstep, offsetsOf_apply, ih, hnew, Offsets.store_append]

/-! ## Fetches -/

theorem lookup_offsets_run (calls : List GroupCall) (groupId : Bytes) (tp : TopicPartition) :
    ((JoinHistory.run calls).manager.groupOrNew groupId).committedOffsets.lookup tp =
      (latest groupId tp calls).map OffsetCommitPartitionRequest.offset := by
  have hmap := congrArg Offsets.offsets (offsetsOf_run calls groupId)
  simp only [offsetsOf, Offsets.store] at hmap
  rw [hmap, lookup_foldl_insert, AList.lookup_empty, Option.or_none, latest]

theorem lookup_metadata_run (calls : List GroupCall) (groupId : Bytes) (tp : TopicPartition) :
    ((JoinHistory.run calls).manager.groupOrNew groupId).offsetMetadata.lookup tp =
      (latest groupId tp calls).map OffsetCommitPartitionRequest.metadata := by
  have hmap := congrArg Offsets.metadata (offsetsOf_run calls groupId)
  simp only [offsetsOf, Offsets.store] at hmap
  rw [hmap, lookup_foldl_insert, AList.lookup_empty, Option.or_none, latest]

/-- INTERNAL: a group that is not there answers as a new one. -/
theorem offsetFetch_eq (mgr : ConsumerGroupManager) (req : OffsetFetchRequest) :
    mgr.offsetFetch req = req.partitions.map fun p =>
      match (mgr.groupOrNew req.groupId).committedOffsets.lookup p.tp with
      | none => { tp := p.tp, offset := -1 }
      | some offset =>
        { tp := p.tp
          offset := offset
          metadata := ((mgr.groupOrNew req.groupId).offsetMetadata.lookup p.tp).getD [] } := by
  unfold offsetFetch groupOrNew
  cases hgroup : mgr.groups.lookup req.groupId with
  | none => rfl
  | some group => rfl

/-- PROPERTY: after any calls, a fetch answers every partition it asks for, in its order, with
the offset and the metadata of the latest entry committed for the group and the partition, or
with the offset -1 and no metadata if there is none.
SOURCE: storage/consumer_group.h:98-365 -/
theorem offsetFetch_run (calls : List GroupCall) (req : OffsetFetchRequest) :
    (JoinHistory.run calls).manager.offsetFetch req = req.partitions.map fun p =>
      match latest req.groupId p.tp calls with
      | none => { tp := p.tp, offset := -1, metadata := [], errorCode := 0 }
      | some entry =>
        { tp := p.tp, offset := entry.offset, metadata := entry.metadata, errorCode := 0 } := by
  rw [offsetFetch_eq]
  refine List.map_congr_left fun p _ => ?_
  rw [lookup_offsets_run, lookup_metadata_run]
  cases latest req.groupId p.tp calls with
  | none => rfl
  | some entry => rfl

end StrikeMQ.Analysis.OffsetStore
