import StrikeMQ.Interface.PeekedRange
import StrikeMQ.Analysis.RangeWalk

/-!
# A view into a log stays inside of its range

A length in a record is read as a 64-bit number, checked by its low 32 bits and used whole. So in
a range of less than `2^31` bytes a check passes wrongly exactly when what is copied then ends
behind the range: a length for which the cut makes a difference is longer than any range. Sums of
places alone do not wrap. Where the view has an outcome it is therefore the one of exact arithmetic,
and it has an outcome exactly if the range can be shown.

A length that is checked wrongly need not be stored by accident. In a varint of five groups the
decoder of produced records drops the three bits above the 32nd, which the view keeps.
-/

set_option autoImplicit false

namespace StrikeMQ.Analysis.PeekBounds

open StrikeMQ.Lib StrikeMQ.Model StrikeMQ.Model.MessagePeek StrikeMQ.Interface
open StrikeMQ.Analysis.RangeWalk

variable {α β : Type} {seg : Bytes} {stop : ℕ} {limit : ℤ}

/-! ## Exact arithmetic -/

/-- Where the first program has an outcome, the second one has the same. -/
def Agrees (x y : RecordM α) : Prop :=
  ∀ p, (x.run p).run = none ∨ (x.run p).run = (y.run p).run

theorem Agrees.refl (x : RecordM α) : Agrees x x :=
  fun _ => .inr rfl

theorem Agrees.bind {x y : RecordM α} {f g : α → RecordM β} (h : Agrees x y)
    (hf : ∀ v, Agrees (f v) (g v)) : Agrees (x >>= f) (y >>= g) := by
  intro p
  rcases h p with hnone | hsame
  · exact .inl (run_bind_of_none hnone f)
  · cases hx : (x.run p).run with
    | none => exact .inl (run_bind_of_none hx f)
    | some o =>
      rw [hx] at hsame
      rcases o with _ | ⟨v, q⟩
      · exact .inr ((run_bind_of_break hx f).trans (run_bind_of_break hsame.symm g).symm)
      · rw [run_bind_of_some hx, run_bind_of_some hsame.symm]
        exact hf v q

theorem passes_self (P : Prop) [Decidable P] : ExactPeek.passes P P = some (decide P) := by
  unfold ExactPeek.passes
  by_cases h : P
  · simp [h]
  · simp [h]

/-- INTERNAL: a length that is copied fits the range, so it is checked as it is. -/
theorem agrees_readField (hlen : seg.length < 2 ^ 31) (length : ℤ) :
    Agrees (readField seg stop length) (ExactPeek.readField seg stop length) := by
  intro p
  simp only [readField, ExactPeek.readField, ExactPeek.passes, StateT.run, load]
  by_cases hpos : length > 0
  · simp only [if_pos hpos]
    by_cases hcheck : toUInt32 (p + toUInt32 length : ℕ) ≤ stop
    · by_cases hfits : p + length.toNat ≤ seg.length
      · have hplace : toUInt32 (p + toUInt32 length : ℕ) = p + length.toNat := by
          unfold toUInt32
          omega
        rw [hplace] at hcheck ⊢
        simp only [if_pos hcheck, if_pos hfits]
        exact .inr rfl
      · refine .inl ?_
        rw [if_pos hcheck, if_neg hfits]
        rfl
    · refine .inr ?_
      rw [if_neg hcheck, if_neg hcheck]
      rfl
  · exact .inr (by simp only [if_neg hpos])

/-- INTERNAL: the place behind the attributes does not wrap. -/
theorem agrees_attributes (hlt : stop < 2 ^ 32) {x y : RecordM α} (h : Agrees x y) :
    Agrees (do breakAt stop; modify fun rpos => toUInt32 (rpos + 1 : ℕ); breakAt stop; x)
      (do breakAt stop; ExactPeek.nextByte stop; y) := by
  intro p
  by_cases hp : p < stop
  · have hnext : ((modify fun rpos => toUInt32 (rpos + 1 : ℕ) : RecordM Unit).run p).run =
        some (some ((), p + 1)) := by
      rw [← toUInt32_of_lt (show p + 1 < 2 ^ 32 by omega)]
      rfl
    rw [run_bind_of_some (breakAt_of_lt hp), run_bind_of_some hnext,
      run_bind_of_some (breakAt_of_lt hp)]
    have hexact : ((ExactPeek.nextByte stop).run p).run =
        if p + 1 < stop then some (some ((), p + 1)) else some none := by
      simp only [ExactPeek.nextByte, passes_self, StateT.run,
        toUInt32_of_lt (show p + 1 < 2 ^ 32 by omega)]
      by_cases hmore : p + 1 < stop
      · simp only [hmore, decide_true, if_true]
        rfl
      · simp only [hmore, decide_false, if_false]
        rfl
    by_cases hmore : p + 1 < stop
    · rw [if_pos hmore] at hexact
      rw [run_bind_of_some (breakAt_of_lt hmore), run_bind_of_some hexact]
      exact h (p + 1)
    · rw [if_neg hmore] at hexact
      rw [run_bind_of_break (breakAt_of_le (by omega)), run_bind_of_break hexact]
      exact .inr rfl
  · rw [run_bind_of_break (breakAt_of_le (by omega)), run_bind_of_break (breakAt_of_le (by omega))]
    exact .inr rfl

theorem agrees_peekRecord (hlen : seg.length < 2 ^ 31) (hlt : stop < 2 ^ 32) (base first : ℤ) :
    Agrees (peekRecord seg stop base first) (ExactPeek.peekRecord seg stop base first) := by
  refine (Agrees.refl _).bind fun start => (Agrees.refl _).bind fun _ => ?_
  refine agrees_attributes hlt ?_
  refine (Agrees.refl _).bind fun _ => (Agrees.refl _).bind fun _ => (Agrees.refl _).bind fun _ => ?_
  refine (agrees_readField hlen _).bind fun _ => (Agrees.refl _).bind fun _ => ?_
  exact (agrees_readField hlen _).bind fun _ => Agrees.refl _

/-- INTERNAL: **the record loop in exact arithmetic.** -/
theorem peekRecords_agrees (hlen : seg.length < 2 ^ 31) (hlt : stop < 2 ^ 32)
    (base first limit : ℤ) (left count rpos : ℕ) :
    peekRecords seg stop base first limit left count rpos = none ∨
      peekRecords seg stop base first limit left count rpos =
        ExactPeek.peekRecords seg stop base first limit left count rpos := by
  induction left generalizing count rpos with
  | zero => exact .inr rfl
  | succ left ih =>
    rw [peekRecords, ExactPeek.peekRecords]
    by_cases hgo : count < limit ∧ rpos < stop
    · rw [if_pos hgo, if_pos hgo]
      have hround := agrees_peekRecord hlen hlt base first rpos
      generalize ((peekRecord seg stop base first).run rpos).run = o at hround ⊢
      generalize ((ExactPeek.peekRecord seg stop base first).run rpos).run = o' at hround ⊢
      rcases hround with rfl | rfl
      · exact .inl rfl
      · rcases o with _ | _ | ⟨message, rpos'⟩
        · exact .inl rfl
        · exact .inr (by simp only [Option.bind_eq_bind, Option.bind_some])
        · simp only [Option.bind_eq_bind, Option.bind_some]
          rcases ih (count + 1) rpos' with hrest | hrest
          · exact .inl (by rw [hrest]; rfl)
          · exact .inr (by rw [hrest])
    · rw [if_neg hgo, if_neg hgo]
      exact .inr rfl

/-- INTERNAL: **the loop over batches in exact arithmetic.** -/
theorem peekBatches_agrees (hlen : seg.length < 2 ^ 31) {fuel scan : ℕ} (count : ℕ)
    (hscan : scan ≤ seg.length) :
    peekBatches seg limit fuel scan count = none ∨
      peekBatches seg limit fuel scan count =
        ExactPeek.peekBatches seg limit fuel scan count := by
  induction fuel generalizing scan count with
  | zero => exact .inr rfl
  | succ fuel ih =>
    rw [peekBatches, ExactPeek.peekBatches, toUInt32_of_lt (show scan + 12 < 2 ^ 32 by omega),
      passes_self]
    by_cases hmore : scan + 12 ≤ seg.length ∧ count < limit
    · have hbatchLen := intOfBe_slice_four_lt seg (scan + 8)
      simp only [Option.bind_eq_bind, Option.bind_some, decide_eq_true_eq, if_pos hmore,
        load_of_le (show scan + 8 ≤ seg.length by omega),
        load_of_le (show scan + 8 + 4 ≤ seg.length by omega)]
      generalize intOfBe (slice seg (scan + 8) 4) = batchLen at hbatchLen ⊢
      rw [toUInt32_of_lt (show scan + (12 + batchLen.toNat) < 2 ^ 32 by omega), passes_self]
      simp only [Option.bind_some, decide_eq_true_eq]
      by_cases hpos : batchLen ≤ 0
      · exact .inr (by rw [if_pos hpos, if_pos hpos])
      rw [if_neg hpos, if_neg hpos]
      by_cases hwhole : scan + (12 + batchLen.toNat) ≤ seg.length
      · rw [if_neg (Nat.not_lt.mpr hwhole), if_pos hwhole]
        by_cases hshort : 12 + batchLen.toNat < 61
        · rw [if_pos hshort, if_pos hshort]
          exact ih count hwhole
        · rw [if_neg hshort, if_neg hshort, peekBatch, ExactPeek.peekBatch,
            toUInt32_of_lt (show scan + 61 < 2 ^ 32 by omega)]
          simp only [load_of_le (show scan + 57 + 4 ≤ seg.length by omega),
            load_of_le (show scan + 25 + 8 ≤ seg.length by omega), Option.bind_eq_bind,
            Option.bind_some]
          rcases peekRecords_agrees hlen (show scan + (12 + batchLen.toNat) < 2 ^ 32 by omega)
            (intOfBe (slice seg scan 8)) (intOfBe (slice seg (scan + 25) 8)) limit
            (intOfBe (slice seg (scan + 57) 4)).toNat count (scan + 61) with hrecords | hrecords
          · exact .inl (by rw [hrecords]; rfl)
          · rw [← hrecords]
            generalize peekRecords seg _ _ _ _ _ _ _ = o
            cases o with
            | none => exact .inl rfl
            | some messages =>
              simp only [Option.bind_some]
              rcases ih (count + messages.length) hwhole with hrest | hrest
              · exact .inl (by rw [hrest]; rfl)
              · exact .inr (by rw [hrest])
      · exact .inr (by rw [if_pos (Nat.not_le.mp hwhole), if_neg hwhole])
    · exact .inr (by simp [hmore])

/-- PROPERTY: **a view into a range of less than `2^31` bytes, of whatever content, stays inside
of it if and only if the range can be shown**: by the layout of its bytes, every varint that the
view comes to has at most ten groups, every key and value ends in its batch, and where a length
leads behind the batch this is noticed modulo `2^32`.
SOURCE: http/http_server.cpp:737-845 -/
theorem peek_stays_inside_iff (hlen : seg.length < 2 ^ 31) :
    StaysInside seg limit ↔ Showable seg limit := by
  rw [← isSome_peek_iff hlen, Option.isSome_iff_exists]
  constructor
  · rintro ⟨messages, hview, -⟩
    exact ⟨messages, hview⟩
  · rintro ⟨messages, hview⟩
    refine ⟨messages, hview, ?_⟩
    have hagrees : peekBatches seg limit seg.length 0 0 = none ∨ _ :=
      peekBatches_agrees hlen 0 (Nat.zero_le _)
    rcases hagrees with hnone | hsame
    · exact absurd (hview.symm.trans hnone) (by simp)
    · exact hsame.symm.trans hview

/-! ## A length that is read in two ways -/

/-- A batch of one record with a key of one byte. -/
def oneKey (keyLength : Bytes) : Bytes :=
  let record := [0x00, 0x00, 0x00] ++ keyLength ++ ascii "k" ++ [0x02] ++ ascii "v" ++ [0x00]
  let records := varint record.length ++ record
  beInt 8 0 ++ beInt 4 (49 + records.length) ++ beInt 4 (-1) ++ beInt 1 2 ++ beInt 4 0 ++ beInt 2 0 ++
    beInt 4 0 ++ beInt 8 0 ++ beInt 8 0 ++ beInt 8 (-1) ++ beInt 2 (-1) ++ beInt 4 (-1) ++
    beInt 4 1 ++ records

/-- What a log returns that a batch was decoded for and appended to. -/
def readBack (batch : Bytes) : Option Bytes := do
  let (b, _) ← KafkaDecoder.decodeRecordBatch.run (Memory.ofBytes batch) { length := batch.length }
  let (log, _) ← (PartitionLog.create ⟨ascii "t", 0⟩ [] (2 ^ 30)).append b
  (log.read 0 655360).data

/-- Two batches with a key of one byte each, the length of the second one padded to two groups: the
range can be shown, and the view stays inside of it. -/
theorem peek_stays_inside_iff_short :
    Showable (oneKey [0x02] ++ oneKey [0x82, 0x00]) 10 ∧
      StaysInside (oneKey [0x02] ++ oneKey [0x82, 0x00]) 10 := by
  have hlen : (oneKey [0x02] ++ oneKey [0x82, 0x00]).length < 2 ^ 31 := by decide +kernel
  have hshow : Showable (oneKey [0x02] ++ oneKey [0x82, 0x00]) 10 :=
    (isSome_peek_iff hlen).mp (by decide +kernel)
  exact ⟨hshow, (peek_stays_inside_iff hlen).mpr hshow⟩

/-- The decoder reads 1 where the view reads `2^32 + 1`: the batch is stored, and a view into the
log copies more than the range holds. -/
theorem long_key_leaves_range :
    readBack (oneKey [0x82, 0x80, 0x80, 0x80, 0x20]) =
        some (oneKey [0x82, 0x80, 0x80, 0x80, 0x20]) ∧
      ¬StaysInside (oneKey [0x82, 0x80, 0x80, 0x80, 0x20]) 10 := by
  have hpeek : peekBatches (oneKey [0x82, 0x80, 0x80, 0x80, 0x20]) 10
      (oneKey [0x82, 0x80, 0x80, 0x80, 0x20]).length 0 0 = none := by
    decide +kernel
  refine ⟨by decide +kernel, ?_⟩
  rintro ⟨messages, hview, -⟩
  exact absurd (hpeek.symm.trans hview) (by simp)

end StrikeMQ.Analysis.PeekBounds
