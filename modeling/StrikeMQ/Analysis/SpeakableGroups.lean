import StrikeMQ.Analysis.JoinResponses
import StrikeMQ.Analysis.OffsetStore

/-!
# Groups whose responses can be sent

A response takes strings and numbers from the group that it is about: the ids of the members and of
the leader, the protocol, the generation, the committed offsets and their metadata. All of them come
from earlier requests, where they were strings and numbers of the protocol, but for the ids that the
broker makes itself. As long as those are short enough, everything that a group holds fits the field
of the response that it goes to.
-/

set_option autoImplicit false

namespace StrikeMQ.Analysis.SpeakableGroups

open StrikeMQ.Lib StrikeMQ.Model StrikeMQ.Interface
open StrikeMQ.Model.ConsumerGroupManager
open StrikeMQ.Analysis.GroupCalls StrikeMQ.Analysis.GroupRefinement
open StrikeMQ.Analysis.GroupInvariants StrikeMQ.Analysis.JoinResponses
open StrikeMQ.Analysis.OffsetStore

theorem length_nil_lt : ([] : Bytes).length < 2 ^ 15 := by
  decide

/-! ## Ids and generations -/

/-- INTERNAL: the ids and the generation of a group fit their fields. -/
structure ShortIds (v : GroupView) : Prop where
  sound : v.Sound
  memberIds : ∀ id ∈ v.memberIds, id.length < 2 ^ 15
  generation : Fits 4 v.generation

theorem shortIds_new : ShortIds GroupView.new where
  sound := GroupView.sound_new
  memberIds _ h := absurd h (Finset.notMem_empty _)
  generation := by decide

theorem ShortIds.leaderId {v : GroupView} (h : ShortIds v) : v.leaderId.length < 2 ^ 15 := by
  by_cases hnone : v.memberIds = ∅
  · rw [h.sound.leader_iff.mp hnone]
    exact length_nil_lt
  · exact h.memberIds _ (h.sound.leader_mem hnone)

/-- INTERNAL: the only id that comes in is the one that its member is told. -/
theorem ShortIds.step {v v' : GroupView} {a : Option JoinAnswer} (h : ShortIds v)
    (hstep : GroupView.Step v a v') (hjoiner : ∀ t, a = some t → t.memberId.length < 2 ^ 15) :
    ShortIds v' := by
  have hsound := h.sound.step hstep
  cases hstep with
  | quiet => exact h
  | rejoin => exact h
  | join protocolName hne =>
    refine ⟨hsound, fun id hid => ?_, fits_bmod 4 _⟩
    rcases Finset.mem_insert.mp hid with rfl | hid
    · exact hjoiner _ rfl
    · exact h.memberIds id hid
  | settle => exact ⟨hsound, h.memberIds, h.generation⟩
  | shrink hkept => exact ⟨hsound, fun id hid => h.memberIds id (hkept hid), fits_bmod 4 _⟩
  | vacate hgeneration =>
    refine ⟨hsound, fun id hid => absurd hid (Finset.notMem_empty _), ?_⟩
    rcases hgeneration with rfl | rfl
    · exact h.generation
    · exact fits_bmod 4 _

/-- INTERNAL: a joiner is told the id that it joined with. -/
theorem memberId_told {mgr : ConsumerGroupManager} {env : GroupEnv} {req : JoinGroupRequest}
    {groupId : Bytes} {t : JoinAnswer}
    (hsound : GroupView.Sound (groupView (mgr.groupOrNew req.groupId)))
    (htold : told (.join env req) mgr groupId = some t) : t.memberId = joinerId env req := by
  obtain ⟨r, hr, rfl⟩ := Option.map_eq_some_iff.mp htold
  obtain ⟨hresp, haccepted⟩ := Option.filter_eq_some_iff.mp hr
  obtain rfl := Option.some.inj hresp
  have hzero : (mgr.joinGroup env req).2.errorCode = 0 := (of_decide_eq_true haccepted).2
  show (mgr.joinGroup env req).2.memberId = _
  rcases join_outcome hsound env with ⟨-, hrefused⟩ | ⟨-, group', hjoin, -⟩
  · rw [hrefused] at hzero
    cases hzero
  · rw [hjoin]
    rfl

/-! ## Offsets -/

/-- INTERNAL: what was committed fits the fields it is fetched in. -/
structure OffsetsFetchable (o : Offsets) : Prop where
  offsets : ∀ tp v, o.offsets.lookup tp = some v → Fits 8 v
  metadata : ∀ tp v, o.metadata.lookup tp = some v → v.length < 2 ^ 15

/-- INTERNAL: a commit stores what it was sent. -/
theorem lookup_store {α : Type} {P : α → Prop} (value : OffsetCommitPartitionRequest → α)
    {ps : List OffsetCommitPartitionRequest} (hps : ∀ p ∈ ps, P (value p))
    {m : AList fun _ : TopicPartition => α} (hm : ∀ tp v, m.lookup tp = some v → P v)
    {tp : TopicPartition} {v : α}
    (h : (ps.foldl (fun m p => m.insert p.tp (value p)) m).lookup tp = some v) : P v := by
  rw [lookup_foldl_insert (fun p : OffsetCommitPartitionRequest => p.tp) value, Option.or_eq_some_iff,
    Option.map_eq_some_iff] at h
  rcases h with ⟨p, hp, rfl⟩ | ⟨-, hold⟩
  · exact hps p (List.mem_filter.mp (List.mem_of_getLast? hp)).1
  · exact hm tp v hold

theorem OffsetsFetchable.store {o : Offsets} (h : OffsetsFetchable o)
    {ps : List OffsetCommitPartitionRequest}
    (hps : ∀ p ∈ ps, Fits 8 p.offset ∧ p.metadata.length < 2 ^ 15) :
    OffsetsFetchable (o.store ps) where
  offsets _ _ := lookup_store OffsetCommitPartitionRequest.offset (fun p hp => (hps p hp).1) h.offsets
  metadata _ _ :=
    lookup_store OffsetCommitPartitionRequest.metadata (fun p hp => (hps p hp).2) h.metadata

/-! ## All groups -/

/-- INTERNAL: everything that a response takes from a group fits its field. -/
structure Speakable (mgr : ConsumerGroupManager) : Prop where
  ids : ∀ id, ShortIds (groupView (mgr.groupOrNew id))
  protocols : AllGroups (fun _ group => EachMember (Listed fun name => name.length < 2 ^ 15)
    group.members ∧ (group.protocolName = [] ∨ group.protocolName.length < 2 ^ 15)) mgr
  offsets : ∀ id, OffsetsFetchable (offsetsOf (mgr.groupOrNew id))

/-- INTERNAL: the strings and numbers of a call are those of the protocol, and so is the id of a
new member. -/
def Spoken : GroupCall → Prop
  | .join env req => ShortNames req ∧ (joinerId env req).length < 2 ^ 15
  | .offsetCommit req => ∀ p ∈ req.partitions, Fits 8 p.offset ∧ p.metadata.length < 2 ^ 15
  | _ => True

theorem speakable_new : Speakable {} where
  ids _ := shortIds_new
  protocols := kept_protocolName.new
  offsets _ := ⟨fun _ _ h => absurd h (by simp [offsetsOf, groupOrNew]),
    fun _ _ h => absurd h (by simp [offsetsOf, groupOrNew])⟩

variable {mgr : ConsumerGroupManager}

/-- INTERNAL: **the step lemma.** -/
theorem Speakable.apply (h : Speakable mgr) {call : GroupCall} (hcall : Spoken call) :
    Speakable (call.apply mgr) where
  ids id := by
    refine (h.ids id).step (step_apply mgr call id) fun t htold => ?_
    cases call with
    | join env req =>
      rw [memberId_told (h.ids req.groupId).sound htold]
      exact hcall.2
    | _ => cases htold
  protocols := by
    refine AllGroups.apply kept_protocolName h.protocols ?_
    cases call with
    | join env req => exact hcall.1.protocols
    | _ => trivial
  offsets id := by
    rw [offsetsOf_apply]
    refine (h.offsets id).store fun p hp => ?_
    cases call with
    | offsetCommit req =>
      simp only [committedBy] at hp
      split at hp
      · exact hcall p hp
      · exact absurd hp List.not_mem_nil
    | _ => exact absurd hp List.not_mem_nil

/-! ## What is sent -/

/-- INTERNAL: **a JoinGroup response can be sent.** -/
theorem Speakable.joinGroup (h : Speakable mgr) {env : GroupEnv} {req : JoinGroupRequest}
    (hcall : Spoken (.join env req)) :
    Fits 2 (mgr.joinGroup env req).2.errorCode ∧ Fits 4 (mgr.joinGroup env req).2.generationId ∧
      Sendable (mgr.joinGroup env req).2 := by
  have hafter := h.apply hcall
  have hids := hafter.ids req.groupId
  have hprotocol := length_lt_of_listed (hafter.protocols req.groupId).2
  have hzero : Fits 2 0 := by decide
  have hunknown : Fits 2 25 := by decide
  have hnever : Fits 4 (-1) := by decide
  rcases join_outcome (h.ids req.groupId).sound env with ⟨-, hrefused⟩ | ⟨-, group', hjoin, -⟩
  · rw [hrefused]
    exact ⟨hunknown, hnever, length_nil_lt, length_nil_lt, hcall.1.memberId,
      fun m hm => absurd hm List.not_mem_nil⟩
  · -- what was joined is stored under the id of the request, so the response is about that group
    simp only [GroupCall.apply, hjoin, groupOrNew_put] at hids hprotocol
    rw [hjoin]
    exact ⟨hzero, hids.generation, (sendable_joinResponse_iff hprotocol).mpr
      ⟨hids.leaderId, hcall.2, fun _ k hk => hids.memberIds k (mem_memberIds.mpr hk)⟩⟩

/-- INTERNAL: what OffsetFetch answers fits its fields. -/
theorem Speakable.offsetFetch (h : Speakable mgr) {req : OffsetFetchRequest}
    (hreq : ∀ p ∈ req.partitions, TopicPartition.Sendable p.tp) :
    ∀ p ∈ mgr.offsetFetch req, OffsetFetchSendable p := by
  intro p hp
  rw [offsetFetch_eq] at hp
  obtain ⟨q, hq, rfl⟩ := List.mem_map.mp hp
  have hzero : Fits 2 0 := by decide
  have hnever : Fits 8 (-1) := by decide
  cases hoffset : (mgr.groupOrNew req.groupId).committedOffsets.lookup q.tp with
  | none => exact ⟨hreq q hq, hnever, length_nil_lt, hzero⟩
  | some offset =>
    refine ⟨hreq q hq, (h.offsets req.groupId).offsets q.tp offset hoffset, ?_, hzero⟩
    show (((mgr.groupOrNew req.groupId).offsetMetadata.lookup q.tp).getD []).length < 2 ^ 15
    cases hmetadata : (mgr.groupOrNew req.groupId).offsetMetadata.lookup q.tp with
    | none => exact length_nil_lt
    | some v => exact (h.offsets req.groupId).metadata q.tp v hmetadata

end StrikeMQ.Analysis.SpeakableGroups
