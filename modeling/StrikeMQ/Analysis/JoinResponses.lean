import StrikeMQ.Interface.JoinReplies
import StrikeMQ.Analysis.GroupInvariants
import StrikeMQ.Analysis.RequestDecoding
import StrikeMQ.Analysis.ResponseRegrouping
import StrikeMQ.Analysis.SessionExpiry

/-!
# JoinGroup responses and the ids in them

The encoder writes every field of a JoinGroup response as the schema of the version has it, and
cuts the length of a string to 16 bits. So a client gets back what `join_group` returned exactly
if no string in it is too long. The protocol names come from requests, where they were strings of
the protocol; a member id may be one that the broker made from a client id, and such an id can be
too long for the response to its own JoinGroup and for every later one that names it.
-/

set_option autoImplicit false

namespace StrikeMQ.Analysis.JoinResponses

open StrikeMQ.Lib StrikeMQ.Lib.Parser StrikeMQ.Lib.MemReader StrikeMQ.Model StrikeMQ.Interface
open StrikeMQ.Model.BinaryReader StrikeMQ.Model.KafkaDecoder StrikeMQ.Model.KafkaEncoder
open StrikeMQ.Model.ConsumerGroupManager
open StrikeMQ.Analysis.GroupCalls StrikeMQ.Analysis.GroupRefinement
open StrikeMQ.Analysis.GroupInvariants StrikeMQ.Analysis.WireWriting
open StrikeMQ.Analysis.ResponseRegrouping (throttleBytes parses_throttle)
open StrikeMQ.Analysis.WireReading (returns_readRaw)

/-! ## What the decoder returns -/

theorem returns_word (n : ℕ) :
    (do let bs ← readRaw n; return intOfBe bs : ReaderM ℤ).Returns (Fits n) := by
  refine (returns_readRaw n).bind fun bs hlen => returns_pure ?_
  rw [← hlen]
  exact fits_intOfBe bs

/-- INTERNAL: a string that is read is shorter than `2^15`. -/
theorem returns_readString : readString.Returns fun v => v.size < 2 ^ 15 := by
  refine (returns_word 2).bind fun len hlen => ?_
  unfold readView
  split
  · exact returns_pure (by norm_num)
  · refine Returns.skip fun at_ => Returns.skip fun _ => returns_pure ?_
    have hhi := hlen.2
    norm_num at hhi
    show len.toNat < 2 ^ 15
    omega

theorem returns_copy {v : View} (h : v.size < 2 ^ 15) :
    (copy v).Returns fun bs => bs.length < 2 ^ 15 := by
  intro m r bs r' hrun
  rwa [returns_load v.start v.size m r bs r' hrun]

theorem returns_readStdString : readStdString.Returns fun bs => bs.length < 2 ^ 15 :=
  returns_readString.bind fun _ hv => returns_copy hv

/-- INTERNAL: the strings of a request are strings of the protocol. -/
structure ShortNames (q : JoinGroupRequest) : Prop where
  correlationId : Fits 4 q.correlationId
  clientId : q.clientId.length < 2 ^ 15
  memberId : q.memberId.length < 2 ^ 15
  protocols : ∀ p ∈ q.protocols, p.name.length < 2 ^ 15

/-- INTERNAL: the names in a decoded JoinGroup are shorter than `2^15`. -/
theorem shortNames_of_decoded {q : JoinGroupRequest} (h : Decoded q) : ShortNames q := by
  obtain ⟨m, r, r', hrun⟩ := h
  have hheader : decodeHeader.Returns fun h =>
      Fits 4 h.correlationId ∧ h.clientId.size < 2 ^ 15 := by
    refine Returns.skip fun _ => Returns.skip fun _ => (returns_word 4).bind fun cid hcid => ?_
    exact returns_readString.bind fun v hv => returns_pure ⟨hcid, hv⟩
  have hprotocol : decodeProtocol.Returns fun p => p.name.length < 2 ^ 15 := by
    refine returns_readStdString.bind fun name hname => Returns.skip fun _ => ?_
    exact Returns.skip fun _ => returns_pure hname
  have hrequest : (decodeHeader >>= decodeJoinGroup).Returns ShortNames := by
    refine hheader.bind fun h hh => (returns_copy hh.2).bind fun clientId hclient => ?_
    refine Returns.skip fun _ => Returns.skip fun _ => ?_
    -- the rebalance timeout is read from version 1 on; what follows is the same
    dsimp only
    split
    all_goals
      refine Returns.skip fun _ => ?_
      refine returns_readStdString.bind fun memberId hmember => Returns.skip fun _ => ?_
      refine Returns.skip fun np => (hprotocol.times np.toNat).bind fun protocols hprotocols => ?_
      exact returns_pure ⟨hh.1, hclient, hmember, hprotocols⟩
  exact hrequest m r q r' hrun

/-! ## Protocol names -/

/-- INTERNAL: the chosen protocol is one that a member listed, or none. -/
theorem chooseProtocol_cases (env : GroupEnv) (group : ConsumerGroup) :
    chooseProtocol env group = [] ∨ ∃ id m, group.members.lookup id = some m ∧
      ∃ p ∈ m.protocols, chooseProtocol env group = p.name := by
  have hlookup : ∀ e ∈ env.order group.members, group.members.lookup e.1 = some e.2 := by
    intro e he
    obtain ⟨⟨id, m⟩, hmem, rfl⟩ := List.mem_map.mp ((env.order_perm group.members).mem_iff.mp he)
    exact AList.mem_lookup_iff.mpr hmem
  unfold chooseProtocol
  dsimp only
  split
  · next p hp =>
    obtain ⟨e, he, hmem⟩ := List.mem_flatMap.mp (List.mem_of_find?_eq_some hp)
    exact Or.inr ⟨e.1, e.2, hlookup e he, p, hmem, rfl⟩
  · split
    · exact Or.inl rfl
    · next id m rest horder =>
      split
      · exact Or.inl rfl
      · next p ps hps =>
        refine Or.inr ⟨id, m, hlookup (id, m) ?_, p, ?_, rfl⟩
        · rw [horder]
          exact List.mem_cons_self
        · rw [hps]
          exact List.mem_cons_self

/-- INTERNAL: what holds of the names that a member listed. -/
def Listed (N : Bytes → Prop) (_ : Bytes) (m : MemberMetadata) : Prop :=
  ∀ p ∈ m.protocols, N p.name

theorem chooseProtocol_of_listed {N : Bytes → Prop} (env : GroupEnv) {group : ConsumerGroup}
    (h : EachMember (Listed N) group.members) :
    chooseProtocol env group = [] ∨ N (chooseProtocol env group) := by
  rcases chooseProtocol_cases env group with hnone | ⟨id, m, hm, p, hp, hname⟩
  · exact Or.inl hnone
  · rw [hname]
    exact Or.inr (h id m hm p hp)

theorem protocolName_checkSessionTimeouts (env : GroupEnv) (group : ConsumerGroup) :
    (checkSessionTimeouts env group).protocolName = group.protocolName := by
  rcases checkSessionTimeouts_cases env group with h | ⟨-, h⟩ | ⟨-, h⟩ <;> rw [h]

theorem protocolName_removeMember (env : GroupEnv) (group : ConsumerGroup) (memberId : Bytes) :
    (removeMember env group memberId).protocolName = group.protocolName := by
  rcases removeMember_cases env group memberId with ⟨-, h⟩ | ⟨-, h⟩ <;> rw [h]

theorem protocolName_acceptSync (group : ConsumerGroup) (req : SyncGroupRequest) :
    (acceptSync group req).protocolName = group.protocolName := by
  unfold acceptSync
  split <;> rfl

section Names

variable {N : Bytes → Prop}

theorem kept_protocols : Kept (fun q => ∀ p ∈ q.protocols, N p.name)
    fun _ group => EachMember (Listed N) group.members :=
  kept_eachMember ⟨fun _ h => h, fun _ h => h⟩ (fun _ _ hreq => hreq) fun hreq _ => hreq

/-- INTERNAL: the protocol of a group is chosen from the names that its members listed. -/
theorem kept_protocolName : Kept (fun q => ∀ p ∈ q.protocols, N p.name) fun _ group =>
    EachMember (Listed N) group.members ∧ (group.protocolName = [] ∨ N group.protocolName) where
  new id := ⟨kept_protocols.new id, Or.inl rfl⟩
  named h := h
  add hreq hid h :=
    have hmembers := kept_protocols.add hreq hid h.1
    ⟨hmembers, chooseProtocol_of_listed _ hmembers⟩
  rejoin hreq hmember h :=
    ⟨@Kept.rejoin _ _ kept_protocols [] _ _ _ _ hreq hmember h.1, h.2⟩
  sync h := ⟨@Kept.sync _ _ kept_protocols [] _ _ h.1, by
    rw [protocolName_acceptSync]; exact h.2⟩
  touch hmember h := ⟨@Kept.touch _ _ kept_protocols [] _ _ _ _ hmember h.1, h.2⟩
  expire h := ⟨@Kept.expire _ _ kept_protocols [] _ _ h.1, by
    rw [protocolName_checkSessionTimeouts]; exact h.2⟩
  leave h := ⟨@Kept.leave _ _ kept_protocols [] _ _ _ h.1, by
    rw [protocolName_removeMember]; exact h.2⟩
  commit h := h

/-- INTERNAL: after calls whose JoinGroup requests list such names only, a group's protocol is
such a name. -/
theorem protocolName_run {calls : List GroupCall}
    (h : ∀ env q, GroupCall.join env q ∈ calls → ∀ p ∈ q.protocols, N p.name) (id : Bytes) :
    ((JoinHistory.run calls).manager.groupOrNew id).protocolName = [] ∨
      N ((JoinHistory.run calls).manager.groupOrNew id).protocolName := by
  refine (kept_protocolName.run (fun c hc => ?_) id).2
  cases c with
  | join env q => exact h env q hc
  | _ => trivial

end Names

/-! ## The response on the wire -/

section Wire

variable {cap version : ℕ} {cid : ℤ} {resp : JoinGroupResponse}

def memberBytes (m : JoinGroupMember) : Bytes :=
  wireString m.memberId ++ wireBytes m.metadata

def replyBytes (version : ℕ) (cid : ℤ) (resp : JoinGroupResponse) : Bytes :=
  beInt 4 cid ++ (throttleBytes version 2 ++ (beInt 2 resp.errorCode ++
    (beInt 4 resp.generationId ++ (wireString resp.protocolName ++ (wireString resp.leaderId ++
      (wireString resp.memberId ++ wireArray memberBytes resp.members))))))

/-- INTERNAL: the bytes of a JoinGroup response. -/
theorem encodeJoinGroupResponse_eq :
    encodeJoinGroupResponse cap cid version resp = wireBytes (replyBytes version cid resp) := by
  have hmember : ∀ (w : BinaryWriter) (m : JoinGroupMember),
      ((w.writeString m.memberId).writeBytes m.metadata).data = w.data ++ memberBytes m := by
    intro w m
    rw [data_writeBytes, data_writeString, List.append_assoc]
    rfl
  refine encodeFrame_eq fun w => ?_
  dsimp only
  rw [data_writeArray _ hmember]
  unfold replyBytes throttleBytes
  by_cases h : 2 ≤ version
  · have hcast : (version : ℤ) ≥ 2 := by omega
    simp [h, hcast]
  · have hcast : ¬ (version : ℤ) ≥ 2 := by omega
    simp [h, hcast]

/-- INTERNAL: every string of a response is short enough for it. -/
structure Sendable (resp : JoinGroupResponse) : Prop where
  protocolName : resp.protocolName.length < 2 ^ 15
  leaderId : resp.leaderId.length < 2 ^ 15
  memberId : resp.memberId.length < 2 ^ 15
  members : ∀ m ∈ resp.members, m.memberId.length < 2 ^ 15

theorem parses_reply (hcid : Fits 4 cid) (herror : Fits 2 resp.errorCode)
    (hgeneration : Fits 4 resp.generationId)
    (hlen : (replyBytes version cid resp).length < 2 ^ 31) (h : Sendable resp) :
    Parses (JoinReply.parser version) (replyBytes version cid resp) (JoinReply.of cid resp) := by
  have hmembers : (resp.members.flatMap memberBytes).length < 2 ^ 31 := by
    simp only [replyBytes, wireArray, List.length_append] at hlen
    omega
  have hcount : resp.members.length ≤ (resp.members.flatMap memberBytes).length := by
    apply length_le_length_flatMap
    intro m _
    rw [← List.length_pos_iff, memberBytes, wireString, List.length_append, List.length_append,
      length_beInt]
    omega
  have hmember : ∀ m ∈ resp.members,
      Parses JoinReply.member (memberBytes m) (m.memberId, m.metadata) := by
    intro m hm
    have hle := length_le_of_mem memberBytes hm
    simp only [memberBytes, wireBytes, List.length_append] at hle
    refine (parses_string (h.members m hm)).bind ?_
    exact (parses_bytes (by omega)).bind_pure _
  refine (parses_word hcid).bind ((parses_throttle version 2).bind ?_)
  refine (parses_word herror).bind ((parses_word hgeneration).bind ?_)
  refine (parses_string h.protocolName).bind ((parses_string h.leaderId).bind ?_)
  refine (parses_string h.memberId).bind ?_
  exact (parses_array (by omega) hmember).bind_pure _

/-- INTERNAL: no reply that a client parses has a longer string. -/
theorem yields_reply (version : ℕ) : Yields (JoinReply.parser version) fun reply =>
    reply.protocolName.length < 2 ^ 15 ∧ reply.leader.length < 2 ^ 15 ∧
      reply.memberId.length < 2 ^ 15 ∧ ∀ m ∈ reply.members, m.1.length < 2 ^ 15 := by
  have hmember : Yields JoinReply.member fun m => m.1.length < 2 ^ 15 :=
    yields_string.bind fun _ hid => Yields.skip fun _ => yields_pure hid
  refine Yields.skip fun _ => Yields.skip fun _ => Yields.skip fun _ => Yields.skip fun _ => ?_
  refine yields_string.bind fun _ hprotocol => yields_string.bind fun _ hleader => ?_
  refine yields_string.bind fun _ hid => hmember.array.bind fun _ hmembers => ?_
  exact yields_pure ⟨hprotocol, hleader, hid, hmembers⟩

/-- INTERNAL: **a client gets back a response exactly if its strings are short.** -/
theorem message_reply_iff (hcap : cap < 2 ^ 31) (hcid : Fits 4 cid)
    (herror : Fits 2 resp.errorCode) (hgeneration : Fits 4 resp.generationId)
    (hlen : (encodeJoinGroupResponse cap cid version resp).length ≤ cap) :
    message (JoinReply.parser version) (encodeJoinGroupResponse cap cid version resp) =
      some (JoinReply.of cid resp) ↔ Sendable resp := by
  rw [encodeJoinGroupResponse_eq] at hlen ⊢
  rw [wireBytes, List.length_append] at hlen
  constructor
  · intro h
    obtain ⟨hprotocol, hleader, hid, hmembers⟩ := (yields_reply version).message h
    refine ⟨hprotocol, hleader, hid, fun m hm => ?_⟩
    exact hmembers (m.memberId, m.metadata) (List.mem_map_of_mem hm)
  · intro h
    exact message_wireBytes (parses_reply hcid herror hgeneration (by omega) h) (by omega)

end Wire

/-! ## The ids in a response -/

section Ids

variable {env : GroupEnv} {mgr : ConsumerGroupManager} {q : JoinGroupRequest}

theorem length_hexDigits (w n : ℕ) : (hexDigits w n).length = w := by
  induction w generalizing n with
  | zero => rfl
  | succ w ih => rw [hexDigits, List.length_append, ih, List.length_singleton]

theorem length_generateMemberId (env : GroupEnv) (clientId : Bytes) :
    (generateMemberId env clientId).length = clientId.length + 9 := by
  rw [generateMemberId, List.length_append, List.length_append, length_hexDigits]
  rfl

theorem joinerId_ne_nil : joinerId env q ≠ [] := by
  unfold joinerId
  split
  · exact generateMemberId_ne_nil env _
  · assumption

theorem length_joinerId_lt_iff (h : ShortNames q) :
    (joinerId env q).length < 2 ^ 15 ↔ (q.memberId = [] → q.clientId.length + 9 < 2 ^ 15) := by
  unfold joinerId
  split
  · next hnew => simp only [length_generateMemberId, hnew, forall_const]
  · next hid => exact iff_of_true h.memberId fun hnew => absurd hnew hid

/-- INTERNAL: the groups that a JoinGroup answers from: the joiner is among their members, and
their leader is the old one if there was one. -/
def JoinedBy (env : GroupEnv) (q : JoinGroupRequest) (group group' : ConsumerGroup) : Prop :=
  group'.leaderId = (if group.leaderId = [] then joinerId env q else group.leaderId) ∧
    ∀ id, id ∈ group'.members ↔ id = joinerId env q ∨ id ∈ group.members

/-- INTERNAL: a new member joins the group that it is answered from. -/
theorem joinedBy_addMember {group : ConsumerGroup} (hsound : GroupView.Sound (groupView group)) :
    JoinedBy env q group (addMember env group q (joinerId env q)) := by
  refine ⟨?_, fun id => ?_⟩
  · show (if group.leaderId = [] ∨ group.leaderId ∉ group.members.insert (joinerId env q) _ then
      joinerId env q else group.leaderId) = _
    by_cases hleader : group.leaderId = []
    · rw [if_pos (Or.inl hleader), if_pos hleader]
    · have hmem : group.leaderId ∈ group.members := by
        refine mem_memberIds.mp (hsound.leader_mem fun hnone => hleader ?_)
        exact hsound.leader_iff.mp hnone
      rw [if_neg hleader, if_neg]
      rw [not_or, not_not, AList.mem_insert]
      exact ⟨hleader, Or.inr hmem⟩
  · exact AList.mem_insert _

/-- INTERNAL: so does a member that joins a stable group again. -/
theorem joinedBy_rejoinStable {group : ConsumerGroup} {member : MemberMetadata}
    (hsound : GroupView.Sound (groupView group)) (hid : q.memberId ≠ [])
    (hmember : group.members.lookup q.memberId = some member) :
    JoinedBy env q group (rejoinStable env group q member) := by
  have hjoiner : joinerId env q = q.memberId := if_neg hid
  have hmem : q.memberId ∈ group.members := mem_of_lookup hmember
  refine ⟨?_, fun id => ?_⟩
  · rw [if_neg]
    · rfl
    · intro hleader
      have hnone := hsound.leader_iff.mpr hleader
      have hin := mem_memberIds.mpr hmem
      rw [hnone] at hin
      exact Finset.notMem_empty _ hin
  · rw [hjoiner]
    exact AList.mem_insert _

/-- INTERNAL: what a JoinGroup answers in a group whose members, state and leader agree. -/
theorem join_outcome (hsound : GroupView.Sound (groupView (mgr.groupOrNew q.groupId)))
    (env : GroupEnv) :
    (UnknownMember mgr q ∧
      (mgr.joinGroup env q).2 = { errorCode := 25, memberId := q.memberId, generationId := -1 }) ∨
    (¬ UnknownMember mgr q ∧ ∃ group',
      mgr.joinGroup env q =
        (mgr.put q.groupId group', joinResponse env group' (joinerId env q)) ∧
      JoinedBy env q (mgr.groupOrNew q.groupId) group') := by
  have hjoining : GroupView.Sound (groupView (joining mgr q)) := hsound
  have hadd : JoinedBy env q (mgr.groupOrNew q.groupId)
      (addMember env (joining mgr q) q (joinerId env q)) :=
    joinedBy_addMember hjoining
  unfold joinGroup
  dsimp only
  by_cases hid : q.memberId = []
  · rw [if_pos hid]
    have hjoiner : joinerId env q = generateMemberId env q.clientId := if_pos hid
    rw [hjoiner] at hadd ⊢
    exact Or.inr ⟨fun hunknown => hunknown.1 hid, _, rfl, hadd⟩
  · rw [if_neg hid]
    have hjoiner : joinerId env q = q.memberId := if_neg hid
    rw [hjoiner] at hadd
    cases hmember : (mgr.groupOrNew q.groupId).members.lookup q.memberId with
    | some member =>
      have hknown : ¬ UnknownMember mgr q := fun hunknown =>
        hunknown.2.1 (mem_of_lookup hmember)
      have hrejoin : JoinedBy env q (mgr.groupOrNew q.groupId)
          (rejoinStable env (joining mgr q) q member) :=
        joinedBy_rejoinStable hjoining hid hmember
      rw [hjoiner]
      dsimp only
      split
      · exact Or.inr ⟨hknown, _, rfl, hrejoin⟩
      · exact Or.inr ⟨hknown, _, rfl, hadd⟩
    | none =>
      have hnot : q.memberId ∉ (mgr.groupOrNew q.groupId).members :=
        AList.lookup_eq_none.mp hmember
      have hstate : (mgr.groupOrNew q.groupId).members.entries = [] ↔
          (mgr.groupOrNew q.groupId).state = .empty :=
        toFinset_keys_eq_empty.symm.trans hsound.state_iff
      rw [hjoiner]
      dsimp only
      split
      · next hmembers => exact Or.inl ⟨⟨hid, hnot, hmembers.1⟩, rfl⟩
      · next hempty =>
        refine Or.inr ⟨fun hunknown => hempty ⟨hunknown.2.2, fun hs => ?_⟩, _, rfl, hadd⟩
        exact hunknown.2.2 (hstate.mpr hs)

/-- INTERNAL: a response can be sent if the ids that it names are short enough. -/
theorem sendable_joinResponse_iff {group : ConsumerGroup} {id : Bytes}
    (hprotocol : group.protocolName.length < 2 ^ 15) :
    Sendable (joinResponse env group id) ↔
      group.leaderId.length < 2 ^ 15 ∧ id.length < 2 ^ 15 ∧
        (group.leaderId = id → ∀ k ∈ group.members, k.length < 2 ^ 15) := by
  constructor
  · intro h
    refine ⟨h.leaderId, h.memberId, fun hleader k hk => ?_⟩
    have hlisted := (mem_order_iff env group.members k).mpr hk
    obtain ⟨e, he, rfl⟩ := List.mem_map.mp hlisted
    have hmembers := h.members
    simp only [joinResponse, hleader, if_true] at hmembers
    exact hmembers _ (List.mem_map_of_mem he)
  · rintro ⟨hleader, hid, hlist⟩
    refine ⟨hprotocol, hleader, hid, fun m hm => ?_⟩
    simp only [joinResponse] at hm
    split at hm
    · next heq =>
      obtain ⟨e, he, rfl⟩ := List.mem_map.mp hm
      exact hlist heq.symm e.1 ((mem_order_iff env group.members e.1).mp (List.mem_map_of_mem he))
    · exact absurd hm List.not_mem_nil

/-- INTERNAL: the ids in a response are short exactly if those it is made from are. -/
theorem sendable_joined_iff (hsound : GroupView.Sound (groupView (mgr.groupOrNew q.groupId)))
    (hnames : ShortNames q) {group' : ConsumerGroup}
    (hjoined : JoinedBy env q (mgr.groupOrNew q.groupId) group')
    (hprotocol : group'.protocolName.length < 2 ^ 15) :
    Sendable (joinResponse env group' (joinerId env q)) ↔ IdsFit env mgr q := by
  obtain ⟨hleader, hmembers⟩ := hjoined
  have hjoiner : (joinerId env q).length < 2 ^ 15 ↔
      (q.memberId = [] → q.clientId.length + 9 < 2 ^ 15) := length_joinerId_lt_iff hnames
  rw [sendable_joinResponse_iff hprotocol, hleader]
  by_cases hnone : (mgr.groupOrNew q.groupId).leaderId = []
  · -- the first member leads the group and is alone in it
    have hnobody : ∀ id, id ∉ (mgr.groupOrNew q.groupId).members := by
      intro id hid
      have hempty := hsound.leader_iff.mpr hnone
      have hin := mem_memberIds.mpr hid
      rw [hempty] at hin
      exact Finset.notMem_empty _ hin
    rw [if_pos hnone]
    constructor
    · rintro ⟨hshort, -, -⟩
      refine ⟨hjoiner.mp hshort, by rw [hnone]; norm_num, fun hself => ?_⟩
      exact absurd (hself.symm.trans hnone) joinerId_ne_nil
    · intro hfit
      have hshort := hjoiner.mpr hfit.joiner
      refine ⟨hshort, hshort, fun _ k hk => ?_⟩
      rcases (hmembers k).mp hk with rfl | hk
      · exact hshort
      · exact absurd hk (hnobody k)
  · rw [if_neg hnone]
    constructor
    · rintro ⟨hold, hshort, hlist⟩
      refine ⟨hjoiner.mp hshort, hold, fun hself id hid => ?_⟩
      exact hlist hself id ((hmembers id).mpr (Or.inr hid))
    · intro hfit
      have hshort := hjoiner.mpr hfit.joiner
      refine ⟨hfit.leader, hshort, fun hself k hk => ?_⟩
      rcases (hmembers k).mp hk with rfl | hk
      · exact hshort
      · exact hfit.members hself k hk

end Ids

theorem length_lt_of_listed {name : Bytes} (h : name = [] ∨ name.length < 2 ^ 15) :
    name.length < 2 ^ 15 := by
  rcases h with rfl | h
  · norm_num
  · exact h

/-- PROPERTY: after any calls whose JoinGroup requests came off the wire, and for every further
JoinGroup request that comes off the wire: if the response fits its buffer, a client that parses
it by the schema of the version gets exactly what `join_group` returned, if and only if the
request is refused or the member ids that the response names are short enough.
SOURCE: storage/consumer_group.h:98-215, 373-379, protocol/kafka_codec.cpp:453-475 -/
theorem join_reply_parses_iff (calls : List GroupCall)
    (hcalls : ∀ env q, GroupCall.join env q ∈ calls → Decoded q) (env : GroupEnv)
    (q : JoinGroupRequest) (hq : Decoded q) (version : ℕ)
    (hversion : q.apiVersion = version) (cap : ℕ) (hcap : cap < 2 ^ 31)
    (hlen : (encodeJoinGroupResponse cap q.correlationId q.apiVersion
      ((JoinHistory.run calls).manager.joinGroup env q).2).length ≤ cap) :
    message (JoinReply.parser version) (encodeJoinGroupResponse cap q.correlationId q.apiVersion
        ((JoinHistory.run calls).manager.joinGroup env q).2) =
      some (JoinReply.of q.correlationId ((JoinHistory.run calls).manager.joinGroup env q).2) ↔
    UnknownMember (JoinHistory.run calls).manager q ∨ IdsFit env (JoinHistory.run calls).manager q := by
  have hnames := shortNames_of_decoded hq
  have hlisted : ∀ env' q', GroupCall.join env' q' ∈ calls ++ [.join env q] →
      ∀ p ∈ q'.protocols, p.name.length < 2 ^ 15 := by
    intro env' q' hmem
    rcases List.mem_append.mp hmem with hmem | hmem
    · exact (shortNames_of_decoded (hcalls env' q' hmem)).protocols
    · obtain ⟨-, rfl⟩ := GroupCall.join.inj (List.mem_singleton.mp hmem)
      exact hnames.protocols
  have hsound : GroupView.Sound
      (groupView ((JoinHistory.run calls).manager.groupOrNew q.groupId)) :=
    sound_run calls q.groupId
  have hprotocol := length_lt_of_listed
    (protocolName_run (N := fun name => name.length < 2 ^ 15) hlisted q.groupId)
  have hgeneration := SessionExpiry.generation_fits (calls ++ [.join env q]) q.groupId
  rw [JoinHistory.view] at hgeneration
  rw [run_concat] at hprotocol hgeneration
  rw [hversion] at hlen ⊢
  simp only [JoinHistory.step, GroupCall.apply] at hprotocol hgeneration
  rcases join_outcome hsound env with
    ⟨hunknown, hresp⟩ | ⟨hknown, group', hjoin, hjoined⟩
  · rw [hresp] at hlen ⊢
    rw [message_reply_iff hcap hnames.correlationId (show Fits 2 25 by decide)
      (show Fits 4 (-1) by decide) hlen]
    refine iff_of_true ⟨by norm_num, by norm_num, hnames.memberId, ?_⟩ (Or.inl hunknown)
    exact fun m hm => absurd hm List.not_mem_nil
  · rw [hjoin] at hlen hprotocol hgeneration ⊢
    rw [groupOrNew_put] at hprotocol hgeneration
    have hfits : Fits 4 group'.generationId := fits_four_of_bounds hgeneration.1 hgeneration.2
    rw [message_reply_iff hcap hnames.correlationId (show Fits 2 0 by decide) hfits hlen,
      sendable_joined_iff hsound hnames hjoined hprotocol, or_iff_right hknown]

/-- INTERNAL: a layout of a request is decoded to it. -/
theorem decoded_request (msg : JoinGroupMessage) (correlationId : Word 4)
    (clientId : Option ShortString)
    (hlen : ((RequestMessage.joinGroup msg).frame correlationId clientId).length < addressSpace) :
    Decoded (msg.request correlationId ((clientId.map Subtype.val).getD [])) := by
  have hbytes := Memory.holdsAt_zero hlen (Memory.holds_ofBytes _)
  rw [RequestDecoding.requestFrame_eq] at hbytes
  obtain ⟨view, hheader, hcopy⟩ := ProduceDecoding.exists_reads_decodeHeader
    (RequestDecoding.fits_key (.joinGroup msg)) (RequestDecoding.fits_version (.joinGroup msg))
    correlationId.2 clientId 0
  have hbody := RequestDecoding.reads_decodeJoinGroup msg
    (h := ⟨.joinGroup, msg.version.val, correlationId, view⟩) rfl (hcopy hbytes.left)
  exact ⟨_, ⟨0, 0, 0⟩, _, (hheader.bind fun _ => hbody _) hbytes _ rfl⟩

/-- A client of the given name joins group `g` in version 0, with no protocols. -/
def joinMessage : JoinGroupMessage where
  version := 0
  groupId := ⟨ascii "g", by decide⟩
  sessionTimeoutMs := ⟨10000, by decide⟩
  rebalanceTimeoutMs := ⟨300000, by decide⟩
  memberId := ⟨[], by decide⟩
  protocolType := ⟨[], by decide⟩
  protocols := ⟨[], by decide⟩

def joinBy (clientId : ShortString) : JoinGroupRequest :=
  joinMessage.request 1 clientId

theorem decoded_joinBy (clientId : ShortString) : Decoded (joinBy clientId) := by
  refine decoded_request joinMessage ⟨1, by decide⟩ (some clientId) ?_
  have hclient := clientId.2
  simp only [RequestMessage.frame, List.length_append, length_beInt, Option.map_some,
    wireNullableString, wireString, addressSpace]
  have hbody : (RequestMessage.joinGroup joinMessage).body.length = 15 := by decide
  rw [hbody]
  omega

/-- The response to a client with a name of one byte, which leads the group. -/
theorem join_reply_parses_iff_first :
    message (JoinReply.parser 0) (encodeJoinGroupResponse 65536 1 0
        (({} : ConsumerGroupManager).joinGroup GroupEnv.plain (joinBy ⟨ascii "a", by decide⟩)).2) =
      some (JoinReply.of 1
        (({} : ConsumerGroupManager).joinGroup GroupEnv.plain
          (joinBy ⟨ascii "a", by decide⟩)).2) := by
  refine (join_reply_parses_iff [] (fun _ _ h => absurd h List.not_mem_nil) GroupEnv.plain
    (joinBy ⟨ascii "a", by decide⟩) (decoded_joinBy _) 0 rfl 65536 (by norm_num)
    (by decide +kernel)).mpr (Or.inr ⟨fun _ => by decide, by decide, fun h => ?_⟩)
  exact absurd h (by decide)

/-- A client with a name of the full length. -/
def longName : ShortString :=
  ⟨List.replicate 32767 0x63, by rw [List.length_replicate]; norm_num⟩

/-- A client with a name of 32767 bytes joins a group that has a leader. The response fits the
buffer, but the length of the id made for the client is written as a negative number. -/
theorem long_client_id_breaks_reply :
    ∃ (calls : List GroupCall) (q : JoinGroupRequest),
      (∀ env q', GroupCall.join env q' ∈ calls → Decoded q') ∧ Decoded q ∧ q.apiVersion = 0 ∧
      (encodeJoinGroupResponse 65536 q.correlationId 0
        ((JoinHistory.run calls).manager.joinGroup GroupEnv.plain q).2).length ≤ 65536 ∧
      message (JoinReply.parser 0) (encodeJoinGroupResponse 65536 q.correlationId 0
          ((JoinHistory.run calls).manager.joinGroup GroupEnv.plain q).2) ≠
        some (JoinReply.of q.correlationId
          ((JoinHistory.run calls).manager.joinGroup GroupEnv.plain q).2) := by
  let calls : List GroupCall := [.join GroupEnv.plain (joinBy ⟨ascii "a", by decide⟩)]
  let q := joinBy longName
  have hjoins : ∀ env q', GroupCall.join env q' ∈ calls ++ [.join GroupEnv.plain q] →
      Decoded q' ∧ ∀ p ∈ q'.protocols, False := by
    intro env q' hmem
    simp only [calls, List.cons_append, List.nil_append, List.mem_cons, GroupCall.join.injEq,
      List.not_mem_nil, or_false] at hmem
    rcases hmem with ⟨-, rfl⟩ | ⟨-, rfl⟩
    · exact ⟨decoded_joinBy _, fun p hp => absurd hp List.not_mem_nil⟩
    · exact ⟨decoded_joinBy _, fun p hp => absurd hp List.not_mem_nil⟩
  have hsound : GroupView.Sound
      (groupView ((JoinHistory.run calls).manager.groupOrNew q.groupId)) :=
    sound_run calls q.groupId
  have hprotocol := protocolName_run (N := fun _ => False) (fun env q' h => (hjoins env q' h).2)
    q.groupId
  rw [run_concat, or_false] at hprotocol
  simp only [JoinHistory.step, GroupCall.apply] at hprotocol
  obtain ⟨hunknown, -⟩ | ⟨-, group', hjoin, hleader, -⟩ :=
    join_outcome hsound GroupEnv.plain
  · exact absurd rfl hunknown.1
  have hold : ((JoinHistory.run calls).manager.groupOrNew q.groupId).leaderId =
      ascii "a-00000000" := by decide +kernel
  have hjoiner : (joinerId GroupEnv.plain q).length = 32776 := by
    show (generateMemberId GroupEnv.plain longName.val).length = 32776
    rw [length_generateMemberId, longName, List.length_replicate]
  rw [hold, if_neg (by decide)] at hleader
  have hother : joinerId GroupEnv.plain q ≠ group'.leaderId := by
    intro h
    rw [h, hleader] at hjoiner
    exact absurd hjoiner (by decide)
  have hresp : (joinResponse GroupEnv.plain group' (joinerId GroupEnv.plain q)).members = [] :=
    if_neg hother
  rw [hjoin, groupOrNew_put] at hprotocol
  have hlen : (encodeJoinGroupResponse 65536 1 (0 : ℕ)
      (joinResponse GroupEnv.plain group' (joinerId GroupEnv.plain q))).length ≤ 65536 := by
    rw [encodeJoinGroupResponse_eq]
    simp only [wireBytes, replyBytes, wireString, List.length_append, length_beInt, hresp]
    simp only [joinResponse, hprotocol, hleader, hjoiner]
    decide
  refine ⟨calls, q, fun env q' h => (hjoins env q' (List.mem_append_left _ h)).1,
    decoded_joinBy _, rfl, ?_, ?_⟩
  · rw [hjoin]
    exact hlen
  · rw [hjoin]
    intro h
    have hshort : (joinerId GroupEnv.plain q).length < 2 ^ 15 :=
      ((yields_reply 0).message h).2.2.1
    omega

end StrikeMQ.Analysis.JoinResponses
