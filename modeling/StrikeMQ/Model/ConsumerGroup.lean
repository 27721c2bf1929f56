import Mathlib.Data.List.AList
import StrikeMQ.Model.Types

/-!
# Consumer groups

`storage/consumer_group.h`. Every operation runs under the manager's mutex, so it is one
function from the manager's state to the next one and its response.

The unordered maps are finite maps. The order in which one is walked is not specified; an
operation gets it from its environment, together with the clock readings it takes and the
number it draws for a member id. `++` on the generation is the 32-bit increment.
-/

set_option autoImplicit false

namespace StrikeMQ.Model

open StrikeMQ.Lib

/-- SOURCE: storage/consumer_group.h:16 -/
inductive GroupState where
  | empty
  | preparingRebalance
  | completingRebalance
  | stable
  | dead
  deriving DecidableEq, Repr

/-- SOURCE: storage/consumer_group.h:29-38 -/
structure MemberMetadata where
  memberId : Bytes := []
  clientId : Bytes := []
  protocolType : Bytes := []
  protocols : List JoinGroupProtocol := []
  assignment : Bytes := []
  sessionTimeoutMs : ℤ := 10000
  rebalanceTimeoutMs : ℤ := 300000
  lastHeartbeatMs : ℤ := 0
  deriving DecidableEq, Repr

abbrev Members := AList fun _ : Bytes => MemberMetadata

/-- SOURCE: storage/consumer_group.h:40-50 -/
structure ConsumerGroup where
  groupId : Bytes := []
  state : GroupState := .empty
  generationId : ℤ := 0
  protocolType : Bytes := []
  protocolName : Bytes := []
  leaderId : Bytes := []
  members : Members := ∅
  committedOffsets : AList (fun _ : TopicPartition => ℤ) := ∅
  offsetMetadata : AList (fun _ : TopicPartition => Bytes) := ∅
  deriving DecidableEq

/-- What one operation takes from outside the manager: the readings of `now_ms` in the
order it takes them, the number drawn for a member id, and the order in which it walks a
member map. -/
structure GroupEnv where
  now : ℤ
  nowCheck : ℤ
  random : ℕ
  order : Members → List (Bytes × MemberMetadata)
  order_perm : ∀ m, (order m).Perm (m.entries.map fun e => (e.1, e.2))

/-- A moment at which the clock shows 1, the generator draws 0 and the maps are walked in the
order of their entries. -/
def GroupEnv.plain : GroupEnv where
  now := 1
  nowCheck := 1
  random := 0
  order m := m.entries.map fun e => (e.1, e.2)
  order_perm _ := List.Perm.refl _

/-- SOURCE: storage/consumer_group.h:70-428 -/
structure ConsumerGroupManager where
  groups : AList (fun _ : Bytes => ConsumerGroup) := ∅
  deriving DecidableEq

namespace ConsumerGroupManager

/-- `groups_[id]`, which default-constructs a missing group. -/
def groupOrNew (mgr : ConsumerGroupManager) (id : Bytes) : ConsumerGroup :=
  (mgr.groups.lookup id).getD {}

def put (mgr : ConsumerGroupManager) (id : Bytes) (group : ConsumerGroup) :
    ConsumerGroupManager :=
  { groups := mgr.groups.insert id group }

@[simp]
theorem lookup_put (mgr : ConsumerGroupManager) (id : Bytes) (group : ConsumerGroup) :
    (mgr.put id group).groups.lookup id = some group :=
  AList.lookup_insert mgr.groups

theorem lookup_put_ne {mgr : ConsumerGroupManager} {id id' : Bytes} {group : ConsumerGroup}
    (h : id' ≠ id) : (mgr.put id group).groups.lookup id' = mgr.groups.lookup id' :=
  AList.lookup_insert_ne h

@[simp]
theorem groupOrNew_put (mgr : ConsumerGroupManager) (id : Bytes) (group : ConsumerGroup) :
    (mgr.put id group).groupOrNew id = group := by
  rw [groupOrNew, lookup_put, Option.getD_some]

theorem groupOrNew_put_ne {mgr : ConsumerGroupManager} {id id' : Bytes} {group : ConsumerGroup}
    (h : id' ≠ id) : (mgr.put id group).groupOrNew id' = mgr.groupOrNew id' := by
  rw [groupOrNew, groupOrNew, lookup_put_ne h]

theorem groupOrNew_of_lookup {mgr : ConsumerGroupManager} {id : Bytes} {group : ConsumerGroup}
    (h : mgr.groups.lookup id = some group) : mgr.groupOrNew id = group := by
  rw [groupOrNew, h, Option.getD_some]

/-- SOURCE: storage/consumer_group.h:373-379 -/
def generateMemberId (env : GroupEnv) (clientId : Bytes) : Bytes :=
  clientId ++ ascii "-" ++ hexDigits 8 env.random

/-- The first listed protocol that got as many votes as there are members, else the first
one of the first member.
SOURCE: storage/consumer_group.h:381-398 -/
def chooseProtocol (env : GroupEnv) (group : ConsumerGroup) : Bytes :=
  let members := env.order group.members
  let protocols := members.flatMap fun e => e.2.protocols
  let votes (name : Bytes) : ℕ := (protocols.filter fun p => p.name = name).length
  match protocols.find? fun p => votes p.name = group.members.entries.length with
  | some p => p.name
  | none =>
    match members with
    | [] => []
    | (_, m) :: _ =>
      match m.protocols with
      | [] => []
      | p :: _ => p.name

/-- The member list the leader is given, with each member's metadata for the chosen
protocol.
SOURCE: storage/consumer_group.h:136-146, 197-207 -/
def memberList (env : GroupEnv) (group : ConsumerGroup) : List JoinGroupMember :=
  (env.order group.members).map fun e =>
    ⟨e.1, ((e.2.protocols.find? fun p => p.name = group.protocolName).map
      JoinGroupProtocol.metadata).getD []⟩

/-- SOURCE: storage/consumer_group.h:129-147, 189-208 -/
def joinResponse (env : GroupEnv) (group : ConsumerGroup) (memberId : Bytes) :
    JoinGroupResponse :=
  { errorCode := 0
    generationId := group.generationId
    protocolName := group.protocolName
    leaderId := group.leaderId
    memberId := memberId
    members := if memberId = group.leaderId then memberList env group else [] }

/-- A known member re-joins a stable group: no rebalance.
SOURCE: storage/consumer_group.h:123-151 -/
def rejoinStable (env : GroupEnv) (group : ConsumerGroup) (req : JoinGroupRequest)
    (member : MemberMetadata) : ConsumerGroup :=
  { group with
    members := group.members.insert req.memberId
      { member with lastHeartbeatMs := env.now, protocols := req.protocols } }

/-- Adds or updates the member and starts a new generation.
SOURCE: storage/consumer_group.h:165-187 -/
def addMember (env : GroupEnv) (group : ConsumerGroup) (req : JoinGroupRequest)
    (memberId : Bytes) : ConsumerGroup :=
  -- an existing member keeps its assignment
  let member : MemberMetadata :=
    { (group.members.lookup memberId).getD {} with
      memberId := memberId
      clientId := req.clientId
      protocolType := req.protocolType
      protocols := req.protocols
      sessionTimeoutMs := req.sessionTimeoutMs
      rebalanceTimeoutMs := req.rebalanceTimeoutMs
      lastHeartbeatMs := env.now }
  let joined : ConsumerGroup :=
    { group with
      members := group.members.insert memberId member
      protocolType := if group.protocolType = [] then req.protocolType else group.protocolType
      generationId := toInt32 (group.generationId + 1) }
  { joined with
    protocolName := chooseProtocol env joined
    leaderId :=
      if joined.leaderId = [] ∨ joined.leaderId ∉ joined.members then memberId
      else joined.leaderId
    state := .completingRebalance }

/-- SOURCE: storage/consumer_group.h:98-215 -/
def joinGroup (env : GroupEnv) (mgr : ConsumerGroupManager) (req : JoinGroupRequest) :
    ConsumerGroupManager × JoinGroupResponse :=
  let group : ConsumerGroup := { mgr.groupOrNew req.groupId with groupId := req.groupId }
  let add (memberId : Bytes) : ConsumerGroupManager × JoinGroupResponse :=
    let group' := addMember env group req memberId
    (mgr.put req.groupId group', joinResponse env group' memberId)
  if req.memberId = [] then add (generateMemberId env req.clientId)
  else
    match group.members.lookup req.memberId with
    | some member =>
      if group.state = .stable then
        let group' := rejoinStable env group req member
        (mgr.put req.groupId group', joinResponse env group' req.memberId)
      else add req.memberId
    | none =>
      if group.members.entries ≠ [] ∧ group.state ≠ .empty then
        (mgr.put req.groupId group,
          { errorCode := 25, memberId := req.memberId, generationId := -1 })
      else add req.memberId

/-- The leader's assignments, stored with the members they name.
SOURCE: storage/consumer_group.h:246-251 -/
def storeAssignments (members : Members) (assignments : List SyncGroupAssignment) : Members :=
  assignments.foldl (fun ms a =>
    match ms.lookup a.memberId with
    | some m => ms.insert a.memberId { m with assignment := a.assignment }
    | none => ms) members

/-- SOURCE: storage/consumer_group.h:244-254 -/
def acceptSync (group : ConsumerGroup) (req : SyncGroupRequest) : ConsumerGroup :=
  if req.memberId = group.leaderId ∧ req.assignments ≠ [] then
    { group with
      members := storeAssignments group.members req.assignments
      state := .stable }
  else group

/-- SOURCE: storage/consumer_group.h:217-264 -/
def syncGroup (mgr : ConsumerGroupManager) (req : SyncGroupRequest) :
    ConsumerGroupManager × SyncGroupResponse :=
  match mgr.groups.lookup req.groupId with
  | none => (mgr, { errorCode := 25 })
  | some group =>
    if req.memberId ∉ group.members then (mgr, { errorCode := 25 })
    else if req.generationId ≠ group.generationId then (mgr, { errorCode := 22 })
    else
      let group' := acceptSync group req
      (mgr.put req.groupId group',
        { errorCode := 0
          memberAssignment :=
            ((group'.members.lookup req.memberId).map MemberMetadata.assignment).getD [] })

/-- The members whose last heartbeat is older than their session timeout.
SOURCE: storage/consumer_group.h:401-408 -/
def expiredMembers (env : GroupEnv) (group : ConsumerGroup) : List Bytes :=
  ((env.order group.members).filter fun e =>
    e.2.lastHeartbeatMs > 0 ∧ env.nowCheck - e.2.lastHeartbeatMs > e.2.sessionTimeoutMs).map
      Prod.fst

/-- `members.begin()->first`. -/
def firstMember (env : GroupEnv) (members : Members) : Bytes :=
  ((env.order members).head?.map Prod.fst).getD []

/-- SOURCE: storage/consumer_group.h:400-424 -/
def checkSessionTimeouts (env : GroupEnv) (group : ConsumerGroup) : ConsumerGroup :=
  let expired := expiredMembers env group
  let members := expired.foldl (fun ms id => ms.erase id) group.members
  if expired = [] then group
  else if members.entries = [] then
    -- the generation is not increased here
    { group with members := members, state := .empty, leaderId := [] }
  else
    { group with
      members := members
      leaderId := if group.leaderId ∉ members then firstMember env members else group.leaderId
      generationId := toInt32 (group.generationId + 1)
      state := .preparingRebalance }

/-- SOURCE: storage/consumer_group.h:266-286 -/
def heartbeat (env : GroupEnv) (mgr : ConsumerGroupManager) (req : HeartbeatRequest) :
    ConsumerGroupManager × ℤ :=
  match mgr.groups.lookup req.groupId with
  | none => (mgr, 25)
  | some group =>
    match group.members.lookup req.memberId with
    | none => (mgr, 25)
    | some member =>
      if req.generationId ≠ group.generationId then (mgr, 22)
      else
        let touched : ConsumerGroup :=
          { group with
            members := group.members.insert req.memberId
              { member with lastHeartbeatMs := env.now } }
        let group' := checkSessionTimeouts env touched
        (mgr.put req.groupId group',
          if group'.state = .preparingRebalance ∨ group'.state = .completingRebalance then 27
          else 0)

/-- SOURCE: storage/consumer_group.h:300-312 -/
def removeMember (env : GroupEnv) (group : ConsumerGroup) (memberId : Bytes) : ConsumerGroup :=
  let members := group.members.erase memberId
  if members.entries = [] then
    { group with
      members := members
      state := .empty
      generationId := toInt32 (group.generationId + 1)
      leaderId := [] }
  else
    { group with
      members := members
      leaderId := if memberId = group.leaderId then firstMember env members else group.leaderId
      generationId := toInt32 (group.generationId + 1)
      state := .preparingRebalance }

/-- SOURCE: storage/consumer_group.h:288-315 -/
def leaveGroup (env : GroupEnv) (mgr : ConsumerGroupManager) (req : LeaveGroupRequest) :
    ConsumerGroupManager × ℤ :=
  match mgr.groups.lookup req.groupId with
  | none => (mgr, 0)
  | some group =>
    if req.memberId ∉ group.members then (mgr, 25)
    else (mgr.put req.groupId (removeMember env group req.memberId), 0)

/-- One round of the commit loop.
SOURCE: storage/consumer_group.h:323-324 -/
def commitOffset (group : ConsumerGroup) (p : OffsetCommitPartitionRequest) : ConsumerGroup :=
  { group with
    committedOffsets := group.committedOffsets.insert p.tp p.offset
    offsetMetadata := group.offsetMetadata.insert p.tp p.metadata }

/-- SOURCE: storage/consumer_group.h:317-333 -/
def offsetCommit (mgr : ConsumerGroupManager) (req : OffsetCommitRequest) :
    ConsumerGroupManager × List OffsetCommitPartitionResponse :=
  (mgr.put req.groupId (req.partitions.foldl commitOffset (mgr.groupOrNew req.groupId)),
    req.partitions.map fun p => ⟨p.tp, 0⟩)

/-- SOURCE: storage/consumer_group.h:335-365 -/
def offsetFetch (mgr : ConsumerGroupManager) (req : OffsetFetchRequest) :
    List OffsetFetchPartitionResponse :=
  req.partitions.map fun p =>
    match mgr.groups.lookup req.groupId with
    | none => { tp := p.tp, offset := -1 }
    | some group =>
      match group.committedOffsets.lookup p.tp with
      | none => { tp := p.tp, offset := -1 }
      | some offset =>
        { tp := p.tp, offset := offset, metadata := (group.offsetMetadata.lookup p.tp).getD [] }

end ConsumerGroupManager

end StrikeMQ.Model
