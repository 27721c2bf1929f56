import StrikeMQ.Interface.GroupHistory
import StrikeMQ.Interface.GroupProtocol

/-!
# What the clients of a group hold

Beside the manager's state a run keeps every JoinGroup response that was sent, with the group
it was about: any of them may still be in a client's hands. A SyncGroup is *held* if its member
id and its generation came together in a successful JoinGroup response of its group.
-/

set_option autoImplicit false

namespace StrikeMQ.Interface

open StrikeMQ.Lib StrikeMQ.Model

/-- A group as its protocol sees it. -/
def groupView (group : ConsumerGroup) : GroupView where
  state := group.state
  generation := group.generationId
  protocolName := group.protocolName
  leaderId := group.leaderId
  memberIds := group.members.keys.toFinset

/-- A JoinGroup response as the protocol sees it. -/
def joinAnswer (r : JoinGroupResponse) : JoinAnswer where
  generation := r.generationId
  protocolName := r.protocolName
  leaderId := r.leaderId
  memberId := r.memberId
  memberIds := (r.members.map JoinGroupMember.memberId).toFinset

/-- The response of a call that is a JoinGroup, with the group it is about. -/
def GroupCall.joinResponse (mgr : ConsumerGroupManager) :
    GroupCall → Option (Bytes × JoinGroupResponse)
  | .join env req => some (req.groupId, (mgr.joinGroup env req).2)
  | _ => none

/-- The response tells a member of the group that it has joined. -/
def Accepted (groupId : Bytes) (r : Bytes × JoinGroupResponse) : Prop :=
  r.1 = groupId ∧ r.2.errorCode = 0

instance (groupId : Bytes) (r : Bytes × JoinGroupResponse) : Decidable (Accepted groupId r) :=
  inferInstanceAs (Decidable (_ ∧ _))

/-- A run so far: the manager, and the JoinGroup responses in the order they were sent. -/
structure JoinHistory where
  manager : ConsumerGroupManager := {}
  sent : List (Bytes × JoinGroupResponse) := []

namespace JoinHistory

def step (h : JoinHistory) (call : GroupCall) : JoinHistory where
  manager := call.apply h.manager
  sent := h.sent ++ (call.joinResponse h.manager).toList

def run (calls : List GroupCall) : JoinHistory :=
  calls.foldl step {}

/-- The group, as its protocol sees it; one that is not there is new. -/
def view (h : JoinHistory) (groupId : Bytes) : GroupView :=
  groupView (h.manager.groupOrNew groupId)

/-- What members of the group were told so far. -/
def answers (h : JoinHistory) (groupId : Bytes) : List JoinAnswer :=
  (h.sent.filter fun r => Accepted groupId r).map fun r => joinAnswer r.2

/-- The caller got the member id and the generation it sends in one successful response. -/
def Holds (h : JoinHistory) (req : SyncGroupRequest) : Prop :=
  ∃ r ∈ h.sent, Accepted req.groupId r ∧ r.2.memberId = req.memberId ∧
    r.2.generationId = req.generationId

end JoinHistory

/-- No group's generation reaches the last 32-bit value before the end of the run. -/
def GenerationsFit (calls : List GroupCall) : Prop :=
  ∀ earlier, earlier <+: calls → ∀ groupId group,
    (JoinHistory.run earlier).manager.groups.lookup groupId = some group →
      group.generationId < 2 ^ 31 - 1

end StrikeMQ.Interface
