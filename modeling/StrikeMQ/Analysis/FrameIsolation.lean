import StrikeMQ.Interface.KafkaService
import StrikeMQ.Analysis.ProduceDecoding
import StrikeMQ.Analysis.RequestDecoding

/-!
# What a frame's handling depends on

The decoders check no length against the frame, so what they read is decided by the lengths,
counts and varints in it. Only the decoding reads memory; the handlers and encoders work on
what it returns. A frame that holds a request as the schema of its key lays it out, with or without
bytes behind it, is decoded from its own bytes, so its handling is the same in every memory.
-/

set_option autoImplicit false

namespace StrikeMQ.Analysis.FrameIsolation

open StrikeMQ.Lib StrikeMQ.Model StrikeMQ.Model.BinaryReader StrikeMQ.Model.KafkaDecoder
open StrikeMQ.Model.RequestRouter StrikeMQ.Interface
open StrikeMQ.Analysis.ProduceDecoding StrikeMQ.Analysis.RequestDecoding
open StrikeMQ.Analysis.WireReading

variable {σ : Type} {m : Memory} {len : ℕ}

/-! ## Decoding the calls -/

/-- INTERNAL: the topics of a Metadata request are read in order. -/
theorem reads_decodeMetadataTopics (topics : WireList ShortString) (a : ℕ) :
    Reads m decodeMetadataTopics a (wireArray (fun t : ShortString => wireString t) topics.val)
      (topics.val.map Subtype.val) := by
  refine (reads_readInt32 (fits_four_of_lt topics.2) a).bind fun _ => ?_
  rw [Int.toNat_natCast]
  exact reads_times_map reads_readStdString topics.val _

/-- INTERNAL: a request with a body, from the bytes of its header and its body. -/
theorem exists_decode_body {key version : ℤ} (hkey : Fits 2 key) (hversion : Fits 2 version)
    (metadataHandler : Bool) (correlationId : Word 4) (clientId : Option ShortString)
    {body : Bytes} {request : Request} (hother : ApiKey.ofInt key ≠ .apiVersions)
    (hbytes : m.HoldsAt 0 (headerBytes key version correlationId clientId ++ body))
    (hbody : ∀ view a, (∀ a, Reads m (copy view) a [] ((clientId.map Subtype.val).getD [])) →
      Reads m (decodeBody metadataHandler ⟨ApiKey.ofInt key, version, correlationId, view⟩) a body
        request) :
    ∃ rest, (decodeRequest metadataHandler).run m { length := len } =
      some (⟨correlationId, version, request⟩, rest) := by
  obtain ⟨view, hheader, hcopy⟩ :=
    exists_reads_decodeHeader (m := m) hkey hversion correlationId.2 clientId 0
  have hclient := hcopy hbytes.left
  refine exists_run_decodeRequest hkey hversion correlationId.2 metadataHandler len hbytes hother ?_
  exact hheader.bind fun _ => (hbody view _ hclient).bind_pure rfl

/-- INTERNAL: an ApiVersions request is answered from the first fields. -/
theorem exists_decode_apiVersions (metadataHandler : Bool) (version : Fin 4)
    (correlationId : Word 4) {rest : Bytes}
    (hbytes : m.HoldsAt 0 ((ServiceCall.apiVersions version correlationId rest).frame)) :
    ∃ r', (decodeRequest metadataHandler).run m { length := len } =
      some (⟨correlationId, version.val, .apiVersions⟩, r') := by
  have hkey : Fits 2 18 := by decide
  have hversion : Fits 2 (version.val : ℤ) := fits_two_of_lt (by omega)
  simp only [ServiceCall.frame, List.append_assoc] at hbytes
  obtain ⟨r₁, h₁, hr₁⟩ :=
    (reads_readInt16 hkey 0).exists_run hbytes.left (r := { length := len }) rfl
  obtain ⟨r₂, h₂, hr₂⟩ := (reads_readInt16 hversion _).exists_run hbytes.right.left hr₁
  obtain ⟨r₃, h₃, -⟩ :=
    (reads_readInt32 correlationId.2 _).exists_run hbytes.right.right.left hr₂
  refine ⟨r₃, ?_⟩
  rw [decodeRequest, run_bind]
  show (readInt16 >>= _).run m { length := len } = _
  rw [run_bind, h₁, Option.bind_some, run_bind, h₂, Option.bind_some, run_bind, h₃,
    Option.bind_some]
  exact congrFun (congrFun (congrArg MemReader.run (if_pos (show ApiKey.ofInt 18 = _ from rfl))) m) r₃

/-- INTERNAL: **the frame of a call is decoded from its own bytes**, with a handler for every key
to the request that the call denotes. -/
theorem exists_decoded (metadataHandler : Bool) (len : ℕ) {call : ServiceCall}
    (hlen : call.frame.length < 2 ^ 31) (hshort : call.Short) (hbytes : m.HoldsAt 0 call.frame) :
    ∃ request rest, (decodeRequest metadataHandler).run m { length := len } =
        some (⟨call.correlationId, call.version, request⟩, rest) ∧
      (metadataHandler = true → call.Denotes request) := by
  cases call with
  | produce msg =>
    obtain ⟨q, rest, hdecode, hreceived⟩ :=
      (exists_decodeRequest_produce hlen hbytes metadataHandler len).1 hshort
    exact ⟨_, rest, hdecode, fun _ => ⟨q, rfl, topicPartitions_eq hreceived,
      map_eq_of_forall₂ (hreceived.imp fun _ _ hr => hr.records)⟩⟩
  | apiVersions version cid rest =>
    obtain ⟨r', hdecode⟩ := exists_decode_apiVersions metadataHandler version cid hbytes
    exact ⟨_, r', hdecode, fun _ => rfl⟩
  | metadata cid clientId topics =>
    have hkey : Fits 2 3 := by decide
    have hversion : Fits 2 0 := by decide
    have hframe : (ServiceCall.metadata cid clientId topics).frame =
        headerBytes 3 0 cid clientId ++
          wireArray (fun t : ShortString => wireString t) topics.val := by
      simp only [headerBytes, ServiceCall.frame, List.append_assoc]
    rw [hframe] at hbytes
    cases metadataHandler with
    | true =>
      obtain ⟨r', hdecode⟩ := exists_decode_body hkey hversion true cid clientId (by decide) hbytes
        fun view a _ => (reads_decodeMetadataTopics topics a).bind_pure rfl
      exact ⟨_, r', hdecode, fun _ => rfl⟩
    | false =>
      -- without a handler the body is not looked at
      have hheader : m.HoldsAt 0 (headerBytes 3 0 cid clientId ++ []) := by
        rw [List.append_nil]
        exact hbytes.left
      obtain ⟨r', hdecode⟩ := exists_decode_body hkey hversion false cid clientId (by decide)
        hheader fun view a _ => Reads.pure a _
      exact ⟨_, r', hdecode, fun h => absurd h (by decide)⟩
  | request cid clientId msg =>
    rw [ServiceCall.frame, requestFrame_eq] at hbytes
    have hother : ApiKey.ofInt msg.key ≠ .apiVersions := by
      cases msg <;> exact of_decide_eq_true rfl
    have hbody : ∀ view a, (∀ a, Reads m (copy view) a [] ((clientId.map Subtype.val).getD [])) →
        Reads m (decodeBody metadataHandler ⟨ApiKey.ofInt msg.key, msg.version, cid, view⟩) a
          msg.body (msg.request cid ((clientId.map Subtype.val).getD [])) :=
      fun view a hclient => reads_decodeBody metadataHandler msg rfl rfl hclient a
    obtain ⟨r', hdecode⟩ := exists_decode_body (fits_key msg) (fits_version msg) metadataHandler cid
      clientId hother hbytes hbody
    exact ⟨_, r', hdecode, fun _ => rfl⟩

/-- INTERNAL: of a request that is not served, the client id is not looked at. -/
theorem isSome_decode_unserved (metadataHandler : Bool) {key version : Word 2} {cid : Word 4}
    {clientIdLength : Word 2} {rest : Bytes} (hother : ApiKey.ofInt key = .other key)
    (hbytes : m.HoldsAt 0 (beInt 2 key ++ (beInt 2 version ++ (beInt 4 cid ++
      (beInt 2 clientIdLength ++ rest))))) :
    ((decodeRequest metadataHandler).run m { length := len }).isSome := by
  have hview : ∀ r : BinaryReader, ((readView clientIdLength).run m r).isSome := by
    intro r
    unfold readView
    split <;> rfl
  obtain ⟨r₁, h₁, hr₁⟩ :=
    (reads_readInt16 key.2 0).exists_run hbytes.left (r := { length := len }) rfl
  obtain ⟨r₂, h₂, hr₂⟩ := (reads_readInt16 version.2 _).exists_run hbytes.right.left hr₁
  obtain ⟨r₃, h₃, hr₃⟩ := (reads_readInt32 cid.2 _).exists_run hbytes.right.right.left hr₂
  obtain ⟨r₄, h₄, -⟩ :=
    (reads_readInt16 clientIdLength.2 _).exists_run hbytes.right.right.right.left hr₃
  obtain ⟨⟨view, r₅⟩, h₅⟩ := Option.isSome_iff_exists.mp (hview r₄)
  rw [run_decodeRequest_of_other key.2 version.2 cid.2 metadataHandler len hbytes
    (by rw [hother]; exact ApiKey.noConfusion)]
  simp only [decodeHeader, readString, run_bind, h₁, h₂, h₃, h₄, h₅, Option.bind_some, hother]
  rfl

/-! ## One outcome in all memories -/

/-- Handlers whose state is the list of the groups they were asked about. -/
def groupProbe : Handlers (List Bytes) where
  heartbeat := some fun q seen => (0, seen ++ [q.groupId])
  findCoordinator := some fun q seen => ({}, seen ++ [q.groupId])

/-- A Heartbeat for generation 1 of the group `orders` by the member `m`. -/
def heartbeatCall : ServiceCall :=
  .request (wordOf 4 7) none
    (.heartbeat ⟨⟨0, by decide⟩, ⟨ascii "orders", by decide⟩, wordOf 4 1, ⟨ascii "m", by decide⟩⟩)

/-- The frame of the call, with two bytes behind it that no handler sees. -/
def heartbeatFrame : Bytes :=
  heartbeatCall.frame ++ [0xff, 0xff]

/-- A FindCoordinator frame that ends right after announcing a group id of one byte. -/
def shortCoordinatorFrame : Bytes :=
  [0, 10, 0, 0, 0, 0, 0, 7, 0, 0, 0, 1]

end StrikeMQ.Analysis.FrameIsolation
