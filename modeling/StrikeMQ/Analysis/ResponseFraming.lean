import StrikeMQ.Interface.ResponseFrames
import StrikeMQ.Analysis.WireReading
import StrikeMQ.Analysis.WireWriting

/-!
# Every response is a frame with the request's correlation id

All encoders reserve four bytes, write the correlation id and then whatever their response holds,
and fill in the size last. Nothing that they write is written over what stands there before, so
the size is the number of bytes behind it and the correlation id is the first of these. The router
takes the correlation id from the bytes of the frame in which the request has it, and the encoder
lays it out in the same bytes again.
-/

set_option autoImplicit false

namespace StrikeMQ.Analysis.ResponseFraming

open StrikeMQ.Lib StrikeMQ.Model StrikeMQ.Model.BinaryReader StrikeMQ.Model.KafkaDecoder
open StrikeMQ.Model.KafkaEncoder StrikeMQ.Model.RequestRouter StrikeMQ.Interface
open StrikeMQ.Analysis.WireReading StrikeMQ.Analysis.WireWriting

/-! ## Writing only appends -/

/-- INTERNAL: the program appends the same bytes to whatever was written before, and these start
with `front`. -/
def Appends (front : Bytes) (f : BinaryWriter → BinaryWriter) : Prop :=
  ∃ bs, ∀ w, (f w).data = w.data ++ (front ++ bs)

namespace Appends

variable {front : Bytes} {f g : BinaryWriter → BinaryWriter}

theorem id : Appends [] fun w => w :=
  ⟨[], fun w => (List.append_nil w.data).symm⟩

theorem first (v : ℤ) : Appends (beInt 4 v) fun w => w.writeInt32 v :=
  ⟨[], fun w => by rw [List.append_nil, data_writeInt32]⟩

theorem comp (hg : Appends [] g) (hf : Appends front f) : Appends front fun w => g (f w) := by
  obtain ⟨bs, hbs⟩ := hf
  obtain ⟨cs, hcs⟩ := hg
  refine ⟨bs ++ cs, fun w => ?_⟩
  rw [hcs, hbs, List.nil_append, List.append_assoc, List.append_assoc]

theorem writeRaw (hf : Appends front f) (bs : Bytes) : Appends front fun w => (f w).writeRaw bs :=
  comp (g := fun w => w.writeRaw bs) ⟨bs, fun _ => rfl⟩ hf

theorem writeInt8 (hf : Appends front f) (v : ℤ) : Appends front fun w => (f w).writeInt8 v :=
  hf.writeRaw _

theorem writeInt16 (hf : Appends front f) (v : ℤ) : Appends front fun w => (f w).writeInt16 v :=
  hf.writeRaw _

theorem writeInt32 (hf : Appends front f) (v : ℤ) : Appends front fun w => (f w).writeInt32 v :=
  hf.writeRaw _

theorem writeInt64 (hf : Appends front f) (v : ℤ) : Appends front fun w => (f w).writeInt64 v :=
  hf.writeRaw _

theorem writeString (hf : Appends front f) (s : Bytes) :
    Appends front fun w => (f w).writeString s :=
  (hf.writeInt16 _).writeRaw s

theorem ite {c : Prop} [Decidable c] (hf : Appends front f) (hg : Appends front g) :
    Appends front fun w => if c then f w else g w := by
  by_cases hc : c
  · simpa only [if_pos hc] using hf
  · simpa only [if_neg hc] using hg

theorem writeBytes (hf : Appends front f) (bs : Bytes) :
    Appends front fun w => (f w).writeBytes bs :=
  ite ((hf.writeInt32 _).writeRaw bs) (hf.writeInt32 _)

theorem foldl {α : Type} {entry : BinaryWriter → α → BinaryWriter} (hf : Appends front f)
    (hentry : ∀ x, Appends [] fun w => entry w x) (xs : List α) :
    Appends front fun w => xs.foldl entry (f w) := by
  induction xs generalizing f with
  | nil => exact hf
  | cons x xs ih => exact ih ((hentry x).comp hf)

theorem writeArray {α : Type} {entry : BinaryWriter → α → BinaryWriter} (hf : Appends front f)
    (hentry : ∀ x, Appends [] fun w => entry w x) (xs : List α) :
    Appends front fun w => (f w).writeArray entry xs :=
  (hf.writeInt32 _).foldl hentry xs

theorem writeByTopic {α : Type} {tp : α → TopicPartition}
    {entry : BinaryWriter → α → BinaryWriter} (hf : Appends front f)
    (hentry : ∀ x, Appends [] fun w => entry w x) (parts : List α) :
    Appends front fun w => writeByTopic tp entry (f w) parts :=
  hf.writeArray (fun topic => (id.writeString topic).writeArray hentry _) _

end Appends

/-! ## The frames of the encoders -/

/-- INTERNAL: the response is a frame that starts with the correlation id. -/
def Correlated (cid : ℤ) (response : Bytes) : Prop :=
  ∃ rest, response = wireBytes (beInt 4 cid ++ rest)

theorem correlated_encodeFrame {cid : ℤ} {body : BinaryWriter → BinaryWriter}
    (h : Appends (beInt 4 cid) body) (cap : ℕ) : Correlated cid (encodeFrame cap body) := by
  obtain ⟨bs, hbs⟩ := h
  exact ⟨bs, encodeFrame_eq hbs⟩

section Encoders

variable (cap : ℕ) (cid apiVersion : ℤ)

/-- INTERNAL: the correlation id and the throttle time, which later versions have behind it. -/
theorem appends_throttle (first : ℤ) : Appends (beInt 4 cid) fun w =>
    if apiVersion ≥ first then (w.writeInt32 cid).writeInt32 0 else w.writeInt32 cid :=
  ((Appends.first cid).writeInt32 0).ite (Appends.first cid)

theorem correlated_encodeProduceResponse (parts : List ProducePartitionResponse) (topic : Bytes) :
    Correlated cid (encodeProduceResponse cap cid parts topic) := by
  refine correlated_encodeFrame (Appends.writeInt32 (Appends.writeArray ?_ (fun p => ?_) _) 0) cap
  · exact ((Appends.first cid).writeInt32 1).writeString topic
  · exact ((((Appends.id.writeInt32 _).writeInt16 _).writeInt64 _).writeInt64 _).writeInt64 _

theorem correlated_encodeListOffsetsResponse (parts : List ListOffsetsPartitionResponse) :
    Correlated cid (encodeListOffsetsResponse cap cid parts apiVersion) := by
  refine correlated_encodeFrame ((appends_throttle cid apiVersion 2).writeByTopic (fun p => ?_) _)
    cap
  have hfront := (Appends.id.writeInt32 p.tp.partition).writeInt16 p.errorCode
  exact ((hfront.writeInt32 1).writeInt64 _).ite ((hfront.writeInt64 _).writeInt64 _)

theorem correlated_encodeFetchResponse (parts : List FetchPartitionResponse) :
    Correlated cid (encodeFetchResponse cap cid parts apiVersion) := by
  refine correlated_encodeFrame ((appends_throttle cid apiVersion 1).writeByTopic (fun p => ?_) _)
    cap
  have hfront := ((Appends.id.writeInt32 p.tp.partition).writeInt16 p.errorCode).writeInt64
    p.highWatermark
  exact (((hfront.writeInt64 _).writeInt32 (-1)).ite hfront).writeBytes _

theorem correlated_encodeApiVersionsResponse :
    Correlated cid (encodeApiVersionsResponse cap cid apiVersion) := by
  have hapi : ∀ a, Appends [] fun w => writeApi w a := fun a =>
    ((Appends.id.writeInt16 _).writeInt16 _).writeInt16 _
  have hfront := (Appends.first cid).writeInt16 0
  unfold encodeApiVersionsResponse
  -- the table stays a name, so that no step walks through its entries
  generalize apis = entries
  refine correlated_encodeFrame (Appends.ite ?_ (Appends.ite ?_ ?_)) cap
  · have hentries := (hfront.writeRaw (BinaryWriter.uvarintBytes 5 (13 + 1))).foldl
      (fun a => (hapi a).writeInt8 0) entries
    exact (hentries.writeInt32 0).writeInt8 0
  · exact ((hfront.writeInt32 13).foldl hapi entries).writeInt32 0
  · exact (hfront.writeInt32 13).foldl hapi entries

theorem correlated_encodeMetadataResponse (info : MetadataInfo) :
    Correlated cid (encodeMetadataResponse cap cid info) := by
  have hpartition : ∀ p, Appends [] fun w => writePartitionMetadata info.brokerId w p := by
    intro p
    have hfront := ((Appends.id.writeInt16 0).writeInt32 p).writeInt32 info.brokerId
    exact (((hfront.writeInt32 1).writeInt32 _).writeInt32 1).writeInt32 _
  have hbroker := (((Appends.first cid).writeInt32 1).writeInt32 info.brokerId).writeString info.host
  refine correlated_encodeFrame ((hbroker.writeInt32 info.port).writeArray (fun t => ?_) _) cap
  exact (((Appends.id.writeInt16 0).writeString t).writeInt32 _).foldl hpartition _

theorem correlated_encodeFindCoordinatorResponse (info : CoordinatorInfo) :
    Correlated cid (encodeFindCoordinatorResponse cap cid apiVersion info) := by
  have hfront := (appends_throttle cid apiVersion 1).writeInt16 info.errorCode
  exact correlated_encodeFrame
    (((((hfront.writeString []).ite hfront).writeInt32 _).writeString _).writeInt32 _) cap

theorem correlated_encodeJoinGroupResponse (resp : JoinGroupResponse) :
    Correlated cid (encodeJoinGroupResponse cap cid apiVersion resp) := by
  have hfront := ((appends_throttle cid apiVersion 2).writeInt16 resp.errorCode).writeInt32
    resp.generationId
  have hnames := ((hfront.writeString resp.protocolName).writeString resp.leaderId).writeString
    resp.memberId
  refine correlated_encodeFrame (hnames.writeArray (fun m => ?_) resp.members) cap
  exact (Appends.id.writeString m.memberId).writeBytes m.metadata

theorem correlated_encodeSyncGroupResponse (resp : SyncGroupResponse) :
    Correlated cid (encodeSyncGroupResponse cap cid apiVersion resp) :=
  correlated_encodeFrame (((appends_throttle cid apiVersion 1).writeInt16 _).writeBytes _) cap

theorem correlated_encodeErrorResponse (errorCode : ℤ) :
    Correlated cid (encodeErrorResponse cap cid apiVersion errorCode) :=
  correlated_encodeFrame ((appends_throttle cid apiVersion 1).writeInt16 _) cap

theorem correlated_encodeOffsetCommitResponse (parts : List OffsetCommitPartitionResponse) :
    Correlated cid (encodeOffsetCommitResponse cap cid apiVersion parts) := by
  refine correlated_encodeFrame ((appends_throttle cid apiVersion 3).writeByTopic (fun p => ?_)
    parts) cap
  exact (Appends.id.writeInt32 p.tp.partition).writeInt16 p.errorCode

theorem correlated_encodeOffsetFetchResponse (parts : List OffsetFetchPartitionResponse)
    (groupErrorCode : ℤ) :
    Correlated cid (encodeOffsetFetchResponse cap cid apiVersion parts groupErrorCode) := by
  have hentry : ∀ p : OffsetFetchPartitionResponse, Appends [] fun w =>
      (((w.writeInt32 p.tp.partition).writeInt64 p.offset).writeString p.metadata).writeInt16
        p.errorCode := fun p =>
    (((Appends.id.writeInt32 _).writeInt64 _).writeString _).writeInt16 _
  have htopics : Appends (beInt 4 cid) fun w => KafkaEncoder.writeByTopic (·.tp) _
      (if apiVersion ≥ 3 then (w.writeInt32 cid).writeInt32 0 else w.writeInt32 cid) parts :=
    (appends_throttle cid apiVersion 3).writeByTopic hentry parts
  exact correlated_encodeFrame ((htopics.writeInt16 _).ite htopics) cap

end Encoders

/-! ## The router -/

theorem call_response {σ ρ τ : Type} (handler : Option (ρ → σ → τ × σ)) (body : Request)
    (request : ρ) (encode : τ → Bytes) (s : σ) :
    (call handler body request encode s).response = [] ∨
      ∃ result, (call handler body request encode s).response = encode result := by
  cases handler with
  | none => exact Or.inl rfl
  | some f => exact Or.inr ⟨_, rfl⟩

/-- INTERNAL: **whatever is dispatched, the response is empty or a frame with the correlation id
of the request.** -/
theorem correlated_dispatch {σ : Type} (hs : Handlers σ) (cap : ℕ) (r : RoutedRequest) (s : σ) :
    (dispatch hs cap r s).response = [] ∨
      Correlated r.correlationId (dispatch hs cap r s).response := by
  have hcall : ∀ {ρ τ : Type} (handler : Option (ρ → σ → τ × σ)) (body : Request) (request : ρ)
      (encode : τ → Bytes), (∀ result, Correlated r.correlationId (encode result)) →
      (call handler body request encode s).response = [] ∨
        Correlated r.correlationId (call handler body request encode s).response := by
    intro ρ τ handler body request encode hencode
    rcases call_response handler body request encode s with hnone | ⟨result, hsome⟩
    · exact Or.inl hnone
    · rw [hsome]
      exact Or.inr (hencode result)
  obtain ⟨cid, v, body⟩ := r
  cases body with
  | apiVersions => exact Or.inr (correlated_encodeApiVersionsResponse cap cid v)
  | produce q => exact hcall _ _ _ _ fun _ => correlated_encodeProduceResponse cap cid _ _
  | listOffsets q => exact hcall _ _ _ _ fun _ => correlated_encodeListOffsetsResponse cap cid v _
  | fetch q => exact hcall _ _ _ _ fun _ => correlated_encodeFetchResponse cap cid v _
  | metadata q => exact hcall _ _ _ _ fun _ => correlated_encodeMetadataResponse cap cid _
  | findCoordinator q =>
    exact hcall _ _ _ _ fun _ => correlated_encodeFindCoordinatorResponse cap cid v _
  | joinGroup q => exact hcall _ _ _ _ fun _ => correlated_encodeJoinGroupResponse cap cid v _
  | syncGroup q => exact hcall _ _ _ _ fun _ => correlated_encodeSyncGroupResponse cap cid v _
  | heartbeat q => exact hcall _ _ _ _ fun _ => correlated_encodeErrorResponse cap cid v _
  | leaveGroup q => exact hcall _ _ _ _ fun _ => correlated_encodeErrorResponse cap cid v _
  | offsetCommit q =>
    exact hcall _ _ _ _ fun _ => correlated_encodeOffsetCommitResponse cap cid v _
  | offsetFetch q =>
    exact hcall _ _ _ _ fun _ => correlated_encodeOffsetFetchResponse cap cid v _ 0
  | unsupported => exact Or.inl rfl

/-- INTERNAL: the frame starts with the key, the version and the correlation id. -/
theorem holdsAt_fields (f : RequestFrame) :
    f.memory.HoldsAt 0 (slice f.bytes 0 2 ++ (slice f.bytes 2 2 ++ f.correlationId)) := by
  have hlen := f.header_le
  have hsplit : slice f.bytes 0 2 ++ (slice f.bytes 2 2 ++ f.correlationId) = f.bytes.take 8 := by
    simp only [slice, RequestFrame.correlationId, List.drop_zero]
    rw [show 8 = 2 + (2 + 4) from rfl, List.take_add, List.take_add, List.drop_drop]
  rw [hsplit]
  refine ⟨?_, fun i hi => ?_⟩
  · rw [List.length_take, min_eq_left hlen]
    unfold addressSpace
    norm_num
  · rw [List.length_take, min_eq_left hlen] at hi
    rw [Nat.zero_add, f.holds i (by omega), List.getElem?_take_of_lt hi]

/-- INTERNAL: the fields before the client id, as any reader at the start of the frame finds
them. -/
theorem exists_run_fields (f : RequestFrame) (len : ℕ) :
    ∃ (r₁ r₂ r₃ : BinaryReader) (key version : ℤ),
      readInt16.run f.memory { length := len } = some (key, r₁) ∧
      readInt16.run f.memory r₁ = some (version, r₂) ∧
      readInt32.run f.memory r₂ = some (intOfBe f.correlationId, r₃) := by
  have hlen := f.header_le
  have hbytes := holdsAt_fields f
  have hkey : (slice f.bytes 0 2).length = 2 := by
    rw [length_slice]
    omega
  have hversion : (slice f.bytes 2 2).length = 2 := by
    rw [length_slice]
    omega
  have hid : f.correlationId.length = 4 := by
    rw [RequestFrame.correlationId, length_slice]
    omega
  obtain ⟨r₁, h₁, hr₁⟩ :=
    (reads_word_raw hkey 0).exists_run hbytes.left (r := { length := len }) rfl
  obtain ⟨r₂, h₂, hr₂⟩ := (reads_word_raw hversion _).exists_run hbytes.right.left hr₁
  obtain ⟨r₃, h₃, -⟩ := (reads_word_raw hid _).exists_run hbytes.right.right hr₂
  exact ⟨r₁, r₂, r₃, _, _, h₁, h₂, h₃⟩

/-- INTERNAL: both readers take the correlation id from the same bytes. -/
theorem correlationId_decodeRequest {f : RequestFrame} {metadataHandler : Bool} {len : ℕ}
    {r : RoutedRequest} {r' : BinaryReader}
    (h : (decodeRequest metadataHandler).run f.memory { length := len } = some (r, r')) :
    r.correlationId = intOfBe f.correlationId := by
  obtain ⟨r₁, r₂, r₃, key, version, h₁, h₂, h₃⟩ := exists_run_fields f len
  rw [decodeRequest, run_bind] at h
  change (readInt16 >>= _).run f.memory { length := len } = _ at h
  rw [run_bind, h₁, Option.bind_some, run_bind, h₂, Option.bind_some, run_bind, h₃,
    Option.bind_some] at h
  by_cases hkey : ApiKey.ofInt key = .apiVersions
  · rw [if_pos hkey] at h
    obtain ⟨rfl, -⟩ := Prod.mk.inj (Option.some.inj h)
    rfl
  · rw [if_neg hkey, run_bind] at h
    -- the second reader starts where the first one did
    change (decodeHeader >>= _).run f.memory { length := len } = _ at h
    rw [run_bind, decodeHeader, run_bind, h₁, Option.bind_some, run_bind, h₂, Option.bind_some,
      run_bind, h₃, Option.bind_some, run_bind] at h
    obtain ⟨⟨header, r₄⟩, hheader, h⟩ := Option.bind_eq_some_iff.mp h
    obtain ⟨⟨view, r₅⟩, -, hview⟩ := Option.bind_eq_some_iff.mp hheader
    obtain ⟨rfl, -⟩ := Prod.mk.inj (Option.some.inj hview)
    rw [run_bind] at h
    obtain ⟨⟨body, r₆⟩, -, h⟩ := Option.bind_eq_some_iff.mp h
    obtain ⟨rfl, -⟩ := Prod.mk.inj (Option.some.inj h)
    rfl

/-- INTERNAL: a frame that starts with the correlation id answers the request. -/
theorem answers_of_correlated {f : RequestFrame} {response : Bytes}
    (h : Correlated (intOfBe f.correlationId) response) (hlen : response.length < 2 ^ 31) :
    Answers f response := by
  obtain ⟨rest, rfl⟩ := h
  have hid : f.correlationId.length = 4 := by
    have hheader := f.header_le
    rw [RequestFrame.correlationId, length_slice]
    omega
  have hbytes : beInt 4 (intOfBe f.correlationId) = f.correlationId := by
    rw [← hid]
    exact beInt_intOfBe f.correlationId
  rw [hbytes] at hlen ⊢
  have htotal : (wireBytes (f.correlationId ++ rest)).length = 8 + rest.length := by
    rw [wireBytes, List.length_append, List.length_append, length_beInt, hid]
    omega
  refine ⟨by omega, ?_, ?_⟩
  · have hfits : Fits 4 ((f.correlationId ++ rest).length : ℤ) := by
      apply fits_four_of_lt
      rw [List.length_append]
      omega
    have hfront : slice (wireBytes (f.correlationId ++ rest)) 0 4 =
        beInt 4 (f.correlationId ++ rest).length :=
      slice_middle [] _ _ 0 4 rfl (length_beInt 4 _)
    rw [hfront, intOfBe_beInt_of_fits hfits, htotal, List.length_append]
    omega
  · exact slice_middle _ _ _ 4 4 (length_beInt 4 _) hid

/-- INTERNAL: one request. -/
theorem correlated_routeRequest {σ : Type} {hs : Handlers σ} {f : RequestFrame} {cap : ℕ} {s : σ}
    {out : Outcome σ} (h : routeRequest hs f.memory f.bytes.length cap s = some out) :
    out.response = [] ∨ Correlated (intOfBe f.correlationId) out.response := by
  obtain ⟨⟨r, r'⟩, hdecode, rfl⟩ := Option.map_eq_some_iff.mp h
  rw [← correlationId_decodeRequest hdecode]
  exact correlated_dispatch hs cap r s

/-- INTERNAL: every response of a sequence. -/
theorem correlated_respondAll {σ : Type} {hs : Handlers σ} {cap : ℕ} {frames : List RequestFrame}
    {s : σ} {responses : List Bytes} (h : respondAll hs cap frames s = some responses) :
    List.Forall₂ (fun f response => response = [] ∨ Correlated (intOfBe f.correlationId) response)
      frames responses := by
  induction frames generalizing s responses with
  | nil =>
    obtain rfl : [] = responses := Option.some.inj h
    exact List.Forall₂.nil
  | cons f fs ih =>
    rw [respondAll] at h
    cases hroute : routeRequest hs f.memory f.bytes.length cap s with
    | none => simp [hroute] at h
    | some out =>
      simp only [hroute, Option.map_eq_some_iff] at h
      obtain ⟨rest, hrest, rfl⟩ := h
      exact List.Forall₂.cons (correlated_routeRequest hroute) (ih hrest)

theorem exists_correlated_of_mem {frames : List RequestFrame} {responses : List Bytes}
    (h : List.Forall₂
      (fun f response => response = [] ∨ Correlated (intOfBe f.correlationId) response)
      frames responses) {response : Bytes} (hmem : response ∈ responses) (hne : response ≠ []) :
    ∃ cid, Correlated cid response := by
  induction h with
  | nil => exact absurd hmem List.not_mem_nil
  | cons hhead _ ih =>
    rcases List.mem_cons.mp hmem with rfl | hmem
    · exact ⟨_, hhead.resolve_left hne⟩
    · exact ih hmem

/-- PROPERTY: **Every response says how long it is and carries the correlation id of its
request**, so a stream of responses splits into them by the lengths alone. A request that gets no
answer leaves no trace in the stream. -/
theorem responses_framed {σ : Type} (hs : Handlers σ) (cap : ℕ) (frames : List RequestFrame)
    (s : σ) {responses : List Bytes} (hrun : respondAll hs cap frames s = some responses)
    (hfit : ∀ response ∈ responses, response.length ≤ cap ∧ response.length < 2 ^ 31) :
    List.Forall₂ (fun f response => response ≠ [] → Answers f response) frames responses ∧
      Parser.splitSized responses.flatten.length responses.flatten =
        some (responses.filter (· ≠ [])) := by
  have hall := correlated_respondAll hrun
  constructor
  · refine List.forall₂_iff_zip.mpr ⟨hall.length_eq, fun {f response} hzip hne => ?_⟩
    have hcorrelated := ((List.forall₂_iff_zip.mp hall).2 hzip).resolve_left hne
    exact answers_of_correlated hcorrelated (hfit response (List.of_mem_zip hzip).2).2
  · have hframes : ∀ message ∈ responses.filter (· ≠ []),
        ∃ body : Bytes, message = wireBytes body ∧ body.length < 2 ^ 31 := by
      intro message hmessage
      obtain ⟨hmem, hne⟩ := List.mem_filter.mp hmessage
      obtain ⟨cid, rest, rfl⟩ := exists_correlated_of_mem hall hmem (by simpa using hne)
      have hlen := (hfit _ hmem).2
      rw [wireBytes, List.length_append] at hlen
      exact ⟨_, rfl, by omega⟩
    have hcount : (responses.filter (· ≠ [])).length ≤ responses.flatten.length := by
      rw [← List.flatten_filter_ne_nil, ← List.flatMap_id]
      apply length_le_length_flatMap
      intro message hmessage
      simpa using (List.mem_filter.mp hmessage).2
    have hsplit := Parser.splitSized_flatten hframes hcount
    rwa [List.flatten_filter_ne_nil] at hsplit

/-- ApiVersions v0 with the correlation id 7, and Heartbeat v0 with the correlation id 9 for
member `m` of group `g`. -/
def twoRequests : List RequestFrame :=
  [{ memory := Memory.ofBytes [0, 18, 0, 0, 0, 0, 0, 7, 0, 0]
     bytes := [0, 18, 0, 0, 0, 0, 0, 7, 0, 0]
     holds := Memory.holds_ofBytes _
     header_le := by decide },
   { memory := Memory.ofBytes [0, 12, 0, 0, 0, 0, 0, 9, 0, 0, 0, 1, 103, 0, 0, 0, 1, 0, 1, 109]
     bytes := [0, 12, 0, 0, 0, 0, 0, 9, 0, 0, 0, 1, 103, 0, 0, 0, 1, 0, 1, 109]
     holds := Memory.holds_ofBytes _
     header_le := by decide }]

/-- Both are answered, and the stream of 102 bytes splits into the two answers. -/
theorem responses_framed_two_requests :
    ∃ first second, respondAll { heartbeat := some fun _ _ => (27, ()) } 65536 twoRequests () =
        some [first, second] ∧ first.length = 92 ∧ second.length = 10 ∧
      List.Forall₂ (fun f response => response ≠ [] → Answers f response) twoRequests
        [first, second] ∧
      Parser.splitSized [first, second].flatten.length [first, second].flatten =
        some ([first, second].filter (· ≠ [])) := by
  have hrun : respondAll { heartbeat := some fun _ _ => (27, ()) } 65536 twoRequests () =
      some [encodeApiVersionsResponse 65536 7 0, encodeHeartbeatResponse 65536 9 0 27] := by
    decide +kernel
  have hfirst : (encodeApiVersionsResponse 65536 7 0).length = 92 := rfl
  have hsecond : (encodeHeartbeatResponse 65536 9 0 27).length = 10 := rfl
  refine ⟨_, _, hrun, hfirst, hsecond, responses_framed _ _ _ _ hrun ?_⟩
  intro response hmem
  simp only [List.mem_cons, List.not_mem_nil, or_false] at hmem
  rcases hmem with rfl | rfl <;> omega

end StrikeMQ.Analysis.ResponseFraming
