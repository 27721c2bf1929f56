import StrikeMQ.Model.ConsumerGroup

/-!
# What a group's leader has supplied

A run of the group manager is any sequence of calls by any clients. Beside the manager's
state it keeps a history that the manager does not see: for each group and member, the
assignment that the leader of the group's current generation last sent for the member in an
accepted SyncGroup. A new generation starts with nothing supplied.
-/

set_option autoImplicit false

namespace StrikeMQ.Interface

open StrikeMQ.Lib StrikeMQ.Model

inductive GroupCall where
  | join (env : GroupEnv) (req : JoinGroupRequest)
  | sync (req : SyncGroupRequest)
  | heartbeat (env : GroupEnv) (req : HeartbeatRequest)
  | leave (env : GroupEnv) (req : LeaveGroupRequest)
  | offsetCommit (req : OffsetCommitRequest)
  | offsetFetch (req : OffsetFetchRequest)

namespace GroupCall

/-- The manager after the call. -/
def apply (mgr : ConsumerGroupManager) : GroupCall → ConsumerGroupManager
  | .join env req => (mgr.joinGroup env req).1
  | .sync req => (mgr.syncGroup req).1
  | .heartbeat env req => (mgr.heartbeat env req).1
  | .leave env req => (mgr.leaveGroup env req).1
  | .offsetCommit req => (mgr.offsetCommit req).1
  | .offsetFetch _ => mgr

end GroupCall

/-- The generation of a group, if the group is there. -/
def generation (mgr : ConsumerGroupManager) (groupId : Bytes) : Option ℤ :=
  (mgr.groups.lookup groupId).map ConsumerGroup.generationId

/-- The assignment a list gives a member: the last one, when it names it several times. -/
def named (assignments : List SyncGroupAssignment) (memberId : Bytes) : Option Bytes :=
  assignments.foldl (fun found a => if a.memberId = memberId then some a.assignment else found)
    none

/-- The request is one the manager accepts, and comes from the group's leader. -/
def FromLeader (mgr : ConsumerGroupManager) (req : SyncGroupRequest) : Prop :=
  ∃ group, mgr.groups.lookup req.groupId = some group ∧ req.memberId ∈ group.members ∧
    req.generationId = group.generationId ∧ req.memberId = group.leaderId

instance (mgr : ConsumerGroupManager) (req : SyncGroupRequest) :
    Decidable (FromLeader mgr req) :=
  match h : mgr.groups.lookup req.groupId with
  | none => isFalse (by rintro ⟨g, hg, -⟩; rw [h] at hg; exact absurd hg (by simp))
  | some group =>
    decidable_of_iff (req.memberId ∈ group.members ∧ req.generationId = group.generationId ∧
      req.memberId = group.leaderId)
      ⟨fun hg => ⟨group, h, hg⟩, fun ⟨g, hg, hrest⟩ => by
        obtain rfl : group = g := Option.some.inj (h.symm.trans hg)
        exact hrest⟩

/-- A run so far: the manager, and what the leaders of the current generations supplied, by
group and member. -/
structure GroupHistory where
  manager : ConsumerGroupManager := {}
  supplied : Bytes → Bytes → Option Bytes := fun _ _ => none

namespace GroupHistory

/-- What a call adds to the history of one member. -/
def suppliedBy (h : GroupHistory) (call : GroupCall) (groupId memberId : Bytes) : Option Bytes :=
  match call with
  | .sync req =>
    if req.groupId = groupId ∧ FromLeader h.manager req then
      (named req.assignments memberId).or (h.supplied groupId memberId)
    else h.supplied groupId memberId
  | _ => h.supplied groupId memberId

def step (h : GroupHistory) (call : GroupCall) : GroupHistory where
  manager := call.apply h.manager
  supplied groupId memberId :=
    if generation (call.apply h.manager) groupId = generation h.manager groupId then
      h.suppliedBy call groupId memberId
    else none

def run (calls : List GroupCall) : GroupHistory :=
  calls.foldl step {}

/-- The leader of the caller's generation has sent an assignment for the caller: with an
earlier request, or with this one. -/
def LeaderNamed (h : GroupHistory) (req : SyncGroupRequest) : Prop :=
  (h.supplied req.groupId req.memberId).isSome ∨
    (FromLeader h.manager req ∧ (named req.assignments req.memberId).isSome)

end GroupHistory

end StrikeMQ.Interface
