import StrikeMQ.Analysis.WireReading
import StrikeMQ.Model.RecordWalk

/-!
# The decoder and its walk

The walk of the decoder through a batch, followed by loading the bytes that its records point at, is
the decoder. `Follows x y k` says this of a program `x` and its walk `y`: what `y` returns,
completed by `k` from the memory, is what `x` returns, and both leave the reader in the same place.
-/

set_option autoImplicit false

namespace StrikeMQ.Analysis.RecordWalk

open StrikeMQ.Lib StrikeMQ.Model StrikeMQ.Model.BinaryReader StrikeMQ.Model.KafkaDecoder

variable {α β γ δ : Type}

def Follows (x : ReaderM β) (y : WalkM α) (k : Memory → α → Option β) : Prop :=
  ∀ m r notes, x.run m r = (y.run m (r, notes)).bind fun w => (k m w.1).map fun b => (b, w.2.1)

theorem follows_op (x : ReaderM α) : Follows x (WalkM.op x) fun _ a => some a := by
  intro m r notes
  show x.run m r = ((x.run m r).map _).bind _
  cases x.run m r with
  | none => rfl
  | some w => rfl

theorem follows_pure (a : α) : Follows (pure a) (pure a) fun _ a => some a :=
  fun _ _ _ => rfl

/-- A step with the same result in both programs. -/
theorem Follows.bind {x : ReaderM α} {y : WalkM α} (h : Follows x y fun _ a => some a)
    {f : α → ReaderM β} {g : α → WalkM γ} {k : Memory → γ → Option β}
    (hf : ∀ a, Follows (f a) (g a) k) : Follows (x >>= f) (y >>= g) k := by
  intro m r notes
  show (x.run m r).bind _ = ((y.run m (r, notes)).bind _).bind _
  rw [h m r notes]
  cases y.run m (r, notes) with
  | none => rfl
  | some w => exact hf w.1 m w.2.1 w.2.2

/-- The last step: what is returned is put together in both programs. -/
theorem Follows.bind_pure {x : ReaderM β} {y : WalkM α} {k : Memory → α → Option β}
    (h : Follows x y k) {f : β → δ} {g : α → γ} {l : Memory → γ → Option δ}
    (hl : ∀ m a, l m (g a) = (k m a).map f) :
    Follows (x >>= fun b => pure (f b)) (y >>= fun a => pure (g a)) l := by
  intro m r notes
  show (x.run m r).bind _ = ((y.run m (r, notes)).bind _).bind _
  rw [h m r notes]
  cases y.run m (r, notes) with
  | none => rfl
  | some w =>
    show ((k m w.1).map _).bind _ = (l m (g w.1)).map _
    rw [hl]
    cases k m w.1 with
    | none => rfl
    | some b => rfl

theorem Follows.times {x : ReaderM β} {y : WalkM α} {k : Memory → α → Option β}
    (h : Follows x y k) (n : ℕ) :
    Follows (MemReader.times x n) (MemReader.times y n) fun m as => as.mapM (k m) := by
  induction n with
  | zero => exact fun _ _ _ => rfl
  | succ n ih =>
    intro m r notes
    show (x.run m r).bind (fun w => ((MemReader.times x n).run m w.2).bind fun v =>
        some (w.1 :: v.1, v.2)) =
      ((y.run m (r, notes)).bind fun w => ((MemReader.times y n).run m w.2).bind fun v =>
        some (w.1 :: v.1, v.2)).bind _
    rw [h m r notes]
    cases y.run m (r, notes) with
    | none => rfl
    | some w =>
      simp only [Option.bind_some]
      cases hk : k m w.1 with
      | none =>
        cases (MemReader.times y n).run m w.2 with
        | none => rfl
        | some v => simp [List.mapM_cons, hk]
      | some b =>
        simp only [Option.map_some, Option.bind_some]
        rw [ih m w.2.1 w.2.2]
        cases (MemReader.times y n).run m w.2 with
        | none => rfl
        | some v =>
          simp only [Option.bind_some, List.mapM_cons, hk, Option.bind_eq_bind, Option.pure_def]
          cases v.1.mapM (k m) with
          | none => rfl
          | some bs => rfl

/-- INTERNAL: skipping a byte string that may be missing follows its walk. -/
theorem follows_present (n : ℤ) :
    Follows (if n ≥ 0 then skip n else pure ()) (walkPresent n) fun _ a => some a := by
  unfold walkPresent
  split
  · exact follows_op _
  · exact follows_pure ()

theorem follows_recordHeader : Follows skipRecordHeader walkRecordHeader fun _ a => some a := by
  refine (follows_op _).bind fun hk => (follows_op _).bind fun _ => ?_
  exact (follows_op _).bind fun hv => follows_present hv

theorem follows_recordHeaders (n : ℕ) :
    Follows (MemReader.times skipRecordHeader n) (MemReader.times walkRecordHeader n)
      fun _ a => some a := by
  have hall : ∀ as : List Unit, as.mapM some = some as := by
    intro as
    induction as with
    | nil => rfl
    | cons a as ih => rw [List.mapM_cons, ih]; rfl
  intro m r notes
  rw [follows_recordHeader.times n m r notes]
  simp only [hall]

theorem follows_present_bind (n : ℤ) {x : ReaderM β} {y : WalkM γ} {k : Memory → γ → Option β}
    (h : Follows x y k) :
    Follows (if n ≥ 0 then skip n >>= fun _ => x else x) (walkPresent n >>= fun _ => y) k := by
  have hbind := (follows_present n).bind (f := fun _ => x) fun _ => h
  split at hbind
  · next hpos =>
    rw [if_pos hpos]
    exact hbind
  · next hneg =>
    rw [if_neg hneg]
    exact hbind

/-- INTERNAL: the decoder loads what the record points at. -/
theorem follows_load (s : RecordSpan) {n : ℤ} (hsize : s.totalSize = toUInt32 n) :
    Follows (do
      let data ← MemReader.load s.data s.totalSize
      return ({
        timestamp := s.timestamp
        data := some (data.take s.totalSize)
        keyLength := s.keyLength
        valueOffset := s.valueOffset
        valueLength := s.valueLength
        size_lt := by
          rw [Option.getD_some, List.length_take, hsize]
          exact lt_of_le_of_lt (min_le_left _ _) (toUInt32_lt _) } : Record))
      (pure s) RecordSpan.load := by
  intro m r notes
  show ((loadBytes m s.data s.totalSize).map _).bind _ = (s.load m).map _
  unfold RecordSpan.load
  cases hload : loadBytes m s.data s.totalSize with
  | none => rfl
  | some data =>
    have hlength := length_loadBytes hload
    have hlt : data.length < 2 ^ 32 := by
      rw [hlength, hsize]
      exact toUInt32_lt n
    have htake : data.take s.totalSize = data := List.take_of_length_le (by omega)
    simp only [Option.map_some, Option.bind_some, dif_pos hlt]
    simp only [htake]
    rfl

/-- INTERNAL: a record is the range that it points at. -/
theorem follows_record (firstTimestamp : ℤ) :
    Follows (decodeRecord firstTimestamp) (walkRecord firstTimestamp) RecordSpan.load := by
  refine (follows_op _).bind fun start => (follows_op _).bind fun _ => ?_
  refine (follows_op _).bind fun _ => (follows_op _).bind fun td => ?_
  refine (follows_op _).bind fun _ => (follows_op _).bind fun kl => ?_
  refine follows_present_bind kl ((follows_op _).bind fun vl => ?_)
  refine follows_present_bind vl ((follows_op _).bind fun nh => ?_)
  refine (follows_recordHeaders nh.toNat).bind fun _ => (follows_op _).bind fun stop => ?_
  exact follows_load { timestamp := firstTimestamp + td, data := start, stop := stop, .. } rfl

/-- PROPERTY: **the decoder is its walk, with the records' bytes loaded behind it.**
SOURCE: protocol/kafka_codec.cpp:39-68 -/
theorem follows_recordBatch :
    Follows decodeRecordBatch walkRecordBatch fun m w =>
      (w.2.mapM (RecordSpan.load m)).map fun records => { w.1 with records := records } := by
  refine (follows_op _).bind fun baseOffset => (follows_op _).bind fun _ => ?_
  refine (follows_op _).bind fun partitionLeaderEpoch => (follows_op _).bind fun magic => ?_
  split
  · exact fun _ _ _ => rfl
  refine (follows_op _).bind fun crc => (follows_op _).bind fun attributes => ?_
  refine (follows_op _).bind fun lastOffD => (follows_op _).bind fun firstTimestamp => ?_
  refine (follows_op _).bind fun maxTimestamp => (follows_op _).bind fun producerId => ?_
  refine (follows_op _).bind fun producerEpoch => (follows_op _).bind fun baseSequence => ?_
  refine (follows_op _).bind fun nr => ?_
  exact ((follows_record firstTimestamp).times nr.toNat).bind_pure fun _ _ => rfl

end StrikeMQ.Analysis.RecordWalk
