import StrikeMQ.Model.MessagePeek
import StrikeMQ.Analysis.RecordDecoding

/-!
# What the view into a log makes of laid-out batches

`Takes seg stop x p bs v` says that a part `x` of the record loop, started at position `p` where
the range `seg` holds the bytes `bs`, takes exactly these bytes and returns `v`, provided they
end at `stop` or before. A record is taken up to and with the count of its headers: when it has
headers, the loop goes on inside of them. So the records of a batch are all found if only the
last one has headers, and a range of such batches is walked through to its end.
-/

set_option autoImplicit false

namespace StrikeMQ.Analysis.PeekReading

open StrikeMQ.Lib StrikeMQ.Model StrikeMQ.Model.MessagePeek StrikeMQ.Interface
open StrikeMQ.Analysis.RecordDecoding

variable {α β : Type} {seg : Bytes} {stop : ℕ}

def Takes (seg : Bytes) (stop : ℕ) (x : RecordM α) (p : ℕ) (bs : Bytes) (v : α) : Prop :=
  (Memory.ofBytes seg).HoldsAt p bs → p + bs.length ≤ stop →
    (x.run p).run = some (some (v, p + bs.length))

/-! ## Putting programs together -/

theorem Takes.pure (p : ℕ) (v : α) : Takes seg stop (pure v) p [] v :=
  fun _ _ => rfl

theorem Takes.of_eq {x : RecordM α} {p : ℕ} {bs cs : Bytes} {v : α} (h : bs = cs)
    (hx : Takes seg stop x p cs v) : Takes seg stop x p bs v :=
  h ▸ hx

theorem Takes.bind {x : RecordM α} {f : α → RecordM β} {p : ℕ} {bs cs : Bytes} {v : α} {w : β}
    (hx : Takes seg stop x p bs v) (hf : Takes seg stop (f v) (p + bs.length) cs w) :
    Takes seg stop (x >>= f) p (bs ++ cs) w := by
  intro hbytes hstop
  rw [List.length_append] at hstop ⊢
  have hfirst := hx hbytes.left (by omega)
  have hrest := hf hbytes.right (by omega)
  rw [StateT.run_bind, OptionT.run_bind, hfirst, ← Nat.add_assoc]
  exact hrest

/-- A program that takes nothing, before one that does. -/
theorem Takes.bind_nil {x : RecordM α} {f : α → RecordM β} {p : ℕ} {bs : Bytes} {v : α} {w : β}
    (hx : Takes seg stop x p [] v) (hf : Takes seg stop (f v) p bs w) :
    Takes seg stop (x >>= f) p bs w := by
  rw [← List.nil_append bs]
  exact hx.bind hf

/-- The last step of a program returns. -/
theorem Takes.bind_pure {x : RecordM α} {f : α → β} {p : ℕ} {bs : Bytes} {v : α} {w : β}
    (hx : Takes seg stop x p bs v) (hw : f v = w) :
    Takes seg stop (x >>= fun y => Pure.pure (f y)) p bs w := by
  rw [← List.append_nil bs, ← hw]
  exact hx.bind (Takes.pure _ (f v))

theorem takes_get (p : ℕ) : Takes seg stop get p [] p :=
  fun _ _ => rfl

/-- INTERNAL: the loop is not left while there is something to take. -/
theorem Takes.breakAt {x : RecordM α} {p : ℕ} {bs : Bytes} {v : α} (hne : bs ≠ [])
    (hx : Takes seg stop x p bs v) : Takes seg stop (breakAt stop >>= fun _ => x) p bs v := by
  intro hbytes hstop
  have hpos := List.length_pos_iff.mpr hne
  have hcheck : ((MessagePeek.breakAt stop).run p).run = some (some ((), p)) := by
    have hlt : ¬stop ≤ p := by omega
    simp [MessagePeek.breakAt, hlt]
  rw [StateT.run_bind, OptionT.run_bind, hcheck]
  exact hx hbytes hstop

/-- INTERNAL: one byte is skipped. -/
theorem takes_next (hlt : stop < 2 ^ 32) {p : ℕ} {bs : Bytes} (hone : bs.length = 1) :
    Takes seg stop (modify fun rpos => toUInt32 (rpos + 1 : ℕ)) p bs () := by
  intro _ hstop
  have hpos : toUInt32 (p + 1 : ℕ) = p + bs.length := by
    rw [toUInt32_of_lt (by omega), hone]
  show some (some ((), toUInt32 (p + 1 : ℕ))) = _
  rw [hpos]

/-! ## Varints and what stands behind them -/

/-- INTERNAL: a varint of at most ten groups is put together from all of them. -/
theorem varintLoop_of_holdsAt {bs : Bytes} (hbs : EndsWith lastGroup bs) {p left : ℕ}
    (hbytes : (Memory.ofBytes seg).HoldsAt p bs) (hleft : bs.length ≤ left) {shift : ℕ}
    (hshort : shift + 7 * bs.length < 71) (result : ℕ) :
    varintLoop seg left shift result p =
      some (result ||| ofGroups 8 shift bs, p + bs.length) := by
  induction hbs generalizing p left shift result with
  | @last b hlast =>
    obtain ⟨left, rfl⟩ := Nat.exists_eq_add_of_le' (show 1 ≤ left from hleft)
    have hget : seg[p]? = some b := hbytes.bytes 0 (by simp)
    have hmask : b &&& 0x80 = 0 := of_decide_eq_true hlast
    have hshift : shift < 64 := by
      rw [List.length_singleton] at hshort
      omega
    simp only [varintLoop, hget, Option.bind_eq_bind, Option.bind_some, hshift, hmask, if_true,
      ofGroups, Nat.or_zero]
    rfl
  | @cons b bs hmore _ ih =>
    rw [List.length_cons] at hleft hshort
    obtain ⟨left, rfl⟩ := Nat.exists_eq_add_of_le' (show 1 ≤ left by omega)
    have hget : seg[p]? = some b := hbytes.bytes 0 (by simp)
    have hmask : ¬(b &&& 0x80 = 0) := of_decide_eq_false hmore
    have hshift : shift < 64 := by omega
    simp only [varintLoop, hget, Option.bind_eq_bind, Option.bind_some, hshift, if_true, hmask,
      if_false, ofGroups]
    rw [ih hbytes.tail (show _ ≤ left by omega) (by omega), Nat.or_assoc, List.length_cons,
      Nat.add_assoc, Nat.add_comm 1]
    rfl

/-- INTERNAL: a varint of at most ten groups is read to its last group. -/
theorem takes_readVarint {bs : Bytes} (hbs : EndsWith lastGroup bs) (hshort : bs.length ≤ 10)
    (p : ℕ) : Takes seg stop (readVarint seg stop) p bs (ofZigzag 8 (ofGroups 8 0 bs)) := by
  intro hbytes hstop
  have hloop := varintLoop_of_holdsAt hbs hbytes (show bs.length ≤ stop - p by omega)
    (show 0 + 7 * bs.length < 71 by omega) 0
  rw [Nat.zero_or] at hloop
  simp only [readVarint, StateT.run, hloop]
  rfl

theorem takes_varlong {v : ℤ} (h : Fits 8 v) (p : ℕ) :
    Takes seg stop (readVarint seg stop) p (varlong v) v := by
  have hbits : ofGroups 8 0 (varlong v) = zigzag v := by
    have hlt := zigzag_lt_of_fits h
    rw [varlong, ofGroups_uvarint (by norm_num) (by omega) (by omega), pow_zero, Nat.mul_one]
  have hread : Takes seg stop (readVarint seg stop) p (varlong v)
      (ofZigzag 8 (ofGroups 8 0 (varlong v))) :=
    takes_readVarint (endsWith_varlong h) (length_uvarint_le 10 _) p
  rwa [hbits, ofZigzag_zigzag h] at hread

theorem takes_varint {v : ℤ} (h : Fits 4 v) (p : ℕ) :
    Takes seg stop (readVarint seg stop) p (varint v) v := by
  rw [← varlong_eq_varint h]
  exact takes_varlong (h.mono (by norm_num)) p

theorem load_of_holdsAt {p : ℕ} {bs : Bytes} (hne : bs ≠ [])
    (h : (Memory.ofBytes seg).HoldsAt p bs) : load seg p bs.length = some bs := by
  rw [load, if_pos (h.length_le hne), h.slice_eq]

/-- INTERNAL: a byte string that may be missing is taken as a whole. -/
theorem takes_readField (hlt : stop < 2 ^ 32) (s : Option Bytes) (p : ℕ) :
    Takes seg stop (readField seg stop (varLength s)) p (s.getD []) (s.getD []) := by
  intro hbytes hstop
  by_cases hnil : s.getD [] = []
  · have hpos : ¬varLength s > 0 := by
      cases s with
      | none => decide
      | some t =>
        rw [Option.getD_some] at hnil
        rw [hnil]
        decide
    rw [hnil]
    simp only [readField, StateT.run, hpos, if_false]
    rfl
  · obtain ⟨t, rfl⟩ : ∃ t, s = some t := by
      cases s with
      | none => exact absurd rfl hnil
      | some t => exact ⟨t, rfl⟩
    rw [Option.getD_some] at hbytes hstop hnil ⊢
    have hpos : varLength (some t) > 0 := by
      have hlen := List.length_pos_iff.mpr hnil
      rw [varLength]
      omega
    have hlen : toUInt32 (varLength (some t)) = t.length := toUInt32_of_lt (by omega)
    have hend : toUInt32 (p + t.length : ℕ) = p + t.length := toUInt32_of_lt (by omega)
    have hload : load seg p (varLength (some t)).toNat = some t := load_of_holdsAt hnil hbytes
    simp only [readField, StateT.run, hpos, if_true, hlen, hend, hstop, hload]
    rfl

/-! ## Records -/

/-- A record up to and with the count of its headers. -/
def counted (r : WireRecord) : Bytes :=
  varint r.body.length ++ (beInt 1 r.attributes ++ (varlong r.timestampDelta ++
    (varint r.offsetDelta ++ (varBytes r.key ++ (varBytes r.value ++
      varint r.headers.length)))))

theorem bytes_eq_counted_append (r : WireRecord) :
    r.bytes = counted r ++ r.headers.flatMap WireRecord.headerBytes := by
  simp only [counted, WireRecord.bytes, WireRecord.body, varArray, List.append_assoc]

theorem counted_ne_nil (r : WireRecord) : counted r ≠ [] :=
  List.append_ne_nil_of_left_ne_nil (varint_ne_nil r.body.length) _

theorem counted_of_headers_nil {r : WireRecord} (h : r.headers = []) : counted r = r.bytes := by
  rw [bytes_eq_counted_append, h, List.flatMap_nil, List.append_nil]

/-- What is reported of a record that starts at `p`. -/
def message (base first : ℤ) (p : ℕ) (r : WireRecord) : PeekedMessage where
  start := p
  offset := toInt64 (base + r.offsetDelta)
  timestamp := toInt64 (first + r.timestampDelta)
  keyStr := r.key.getD []
  valueStr := r.value.getD []

/-- INTERNAL: **a round reports the fields of the record** and stops behind the count of its
headers. -/
theorem takes_peekRecord (hlt : stop < 2 ^ 32) (base first : ℤ) {r : WireRecord}
    (hlen : r.bytes.length < 2 ^ 31) (p : ℕ) :
    Takes seg stop (peekRecord seg stop base first) p (counted r) (message base first p r) := by
  have hbody := length_record_bytes r
  have hfields := length_record_body r
  have hcount := length_headers_le r
  have hheaders : Fits 4 r.headers.length := fits_four_of_lt (by omega)
  have hlayout : counted r = varint r.body.length ++ (beInt 1 r.attributes ++
      (varlong r.timestampDelta ++ (varint r.offsetDelta ++ (varint (varLength r.key) ++
        (r.key.getD [] ++ (varint (varLength r.value) ++ (r.value.getD [] ++
          varint r.headers.length))))))) := by
    simp only [counted, varBytes_eq, List.append_assoc]
  refine Takes.of_eq hlayout ?_
  refine (takes_get p).bind_nil ?_
  refine (takes_varint (fits_four_of_lt (by omega)) p).bind ?_
  refine Takes.breakAt (List.append_ne_nil_of_left_ne_nil
    (List.ne_nil_of_length_pos (by rw [length_beInt]; omega)) _) ?_
  refine (takes_next hlt (length_beInt 1 _)).bind ?_
  refine Takes.breakAt (List.append_ne_nil_of_left_ne_nil (uvarint_ne_nil 9 _) _) ?_
  refine (takes_varlong r.timestampDelta.2 _).bind ?_
  refine (takes_varint r.offsetDelta.2 _).bind ?_
  refine (takes_varint (fits_varLength (by omega)) _).bind ?_
  refine (takes_readField hlt r.key _).bind ?_
  refine (takes_varint (fits_varLength (by omega)) _).bind ?_
  refine (takes_readField hlt r.value _).bind ?_
  exact (takes_varint hheaders _).bind_pure rfl

section Loop

variable (hlt : stop < 2 ^ 32) (base first limit : ℤ)

include hlt

/-- INTERNAL: one round of the record loop, at the start of a record. -/
theorem peekRecords_succ {r : WireRecord} (hlen : r.bytes.length < 2 ^ 31) {p : ℕ}
    (hbytes : (Memory.ofBytes seg).HoldsAt p (counted r)) (hstop : p + (counted r).length ≤ stop)
    {count : ℕ} (hcount : count < limit) (left : ℕ) :
    peekRecords seg stop base first limit (left + 1) count p =
      (peekRecords seg stop base first limit left (count + 1) (p + (counted r).length)).map
        (message base first p r :: ·) := by
  have hround := takes_peekRecord hlt base first hlen p hbytes hstop
  have hpos := List.length_pos_iff.mpr (counted_ne_nil r)
  rw [peekRecords, if_pos ⟨hcount, by omega⟩, hround, Option.bind_eq_bind, Option.bind_some,
    Option.map_eq_bind]
  rfl

end Loop

/-- What is reported of records that stand one behind the other from `p` on. -/
def messages (base first : ℤ) : ℕ → List WireRecord → List PeekedMessage
  | _, [] => []
  | p, r :: rs => message base first p r :: messages base first (p + r.bytes.length) rs

@[simp]
theorem length_messages (base first : ℤ) (p : ℕ) (rs : List WireRecord) :
    (messages base first p rs).length = rs.length := by
  induction rs generalizing p with
  | nil => rfl
  | cons r rs ih => rw [messages, List.length_cons, List.length_cons, ih]

/-- INTERNAL: **the record loop finds every record** if none but the last one has headers. -/
theorem peekRecords_of_layout (hlt : stop < 2 ^ 32) (base first limit : ℤ) {rs : List WireRecord}
    (hlen : ∀ r ∈ rs, r.bytes.length < 2 ^ 31) (hheaders : ∀ r ∈ rs.dropLast, r.headers = [])
    {p : ℕ} (hbytes : (Memory.ofBytes seg).HoldsAt p (rs.flatMap WireRecord.bytes))
    (hstop : p + (rs.flatMap WireRecord.bytes).length ≤ stop) (count : ℕ) :
    peekRecords seg stop base first limit rs.length count p =
      some ((messages base first p rs).take (limit - count).toNat) := by
  induction rs generalizing p count with
  | nil =>
    rw [messages, List.take_nil]
    rfl
  | cons r rs ih =>
    by_cases hcount : count < limit
    · have hleft : (limit - count).toNat = (limit - (count + 1 : ℕ)).toNat + 1 := by omega
      rw [List.flatMap_cons, bytes_eq_counted_append, List.append_assoc] at hbytes hstop
      rw [List.length_append] at hstop
      rw [List.length_cons, peekRecords_succ hlt base first limit (hlen r List.mem_cons_self)
        hbytes.left (by omega) hcount, messages, hleft, List.take_succ_cons]
      cases rs with
      | nil =>
        rw [messages, List.take_nil]
        rfl
      | cons r' rs =>
        -- the next record starts where the round stopped
        have hnone : r.headers = [] := hheaders r List.mem_cons_self
        rw [hnone, List.flatMap_nil, List.nil_append] at hbytes hstop
        rw [ih (fun s hs => hlen s (List.mem_cons_of_mem _ hs))
          (fun s hs => hheaders s (List.mem_cons_of_mem _ hs)) hbytes.right (by omega),
          counted_of_headers_nil hnone, Option.map_some]
    · have hzero : (limit - count).toNat = 0 := by omega
      rw [List.length_cons, peekRecords, if_neg (fun h => hcount h.1), hzero, List.take_zero]

/-! ## Batches -/

theorem length_bytes (w : WireBatch) :
    w.bytes.length = 61 + (w.records.flatMap WireRecord.bytes).length := by
  simp only [WireBatch.bytes, wireBytes, WireBatch.body, wireArray, List.length_append,
    length_beInt]
  omega

/-- The eight bytes from the middle of the last offset delta on, which are read for the first
timestamp.
SOURCE: http/http_server.cpp:769-772 -/
def misread (w : WireBatch) : ℤ :=
  intOfBe (slice (beInt 4 w.lastOffsetDelta ++ beInt 8 w.firstTimestamp) 2 8)

/-- INTERNAL: two bytes of the delta and six of the timestamp. -/
theorem beNat_misread (d t : ℕ) (ht : t < 256 ^ 8) :
    beNat (slice (beBytes 4 d ++ beBytes 8 t) 2 8) = d % 2 ^ 16 * 2 ^ 48 + t / 2 ^ 16 := by
  have hwords : beBytes 4 d ++ beBytes 8 t = beBytes 2 (d / 256 ^ 2) ++
      ((beBytes 2 d ++ beBytes 6 (t / 256 ^ 2)) ++ beBytes 2 t) := by
    rw [show 4 = 2 + 2 from rfl, beBytes_add, show 8 = 6 + 2 from rfl, beBytes_add]
    simp only [List.append_assoc]
  have hmiddle : slice (beBytes 4 d ++ beBytes 8 t) 2 8 = beBytes 2 d ++ beBytes 6 (t / 256 ^ 2) := by
    rw [hwords]
    exact slice_middle _ _ _ 2 8 (length_beBytes 2 _) (by simp)
  rw [hmiddle, beNat_append, beNat_beBytes, beNat_beBytes, length_beBytes]
  omega

theorem shifted_eq_iff {d t : ℕ} (ht : t < 256 ^ 8) :
    d * 2 ^ 48 + t / 2 ^ 16 = t ↔ t = d * 0x0001000100010001 := by
  omega

/-- INTERNAL: **the bytes that are read hold the first timestamp only by accident**: all four
16-bit words of the timestamp must be the lower one of the last offset delta. -/
theorem misread_eq_iff (w : WireBatch) :
    misread w = w.firstTimestamp ↔
      w.firstTimestamp.val % 2 ^ 64 = w.lastOffsetDelta.val % 2 ^ 16 * 0x0001000100010001 := by
  have hfits : (w.firstTimestamp.val % (256 ^ 8 : ℕ)).toNat < 256 ^ 8 := by omega
  have hword : misread w = w.firstTimestamp ↔
      (w.firstTimestamp.val % (256 ^ 8 : ℕ)).toNat =
        (w.lastOffsetDelta.val % (256 ^ 4 : ℕ)).toNat % 2 ^ 16 * 0x0001000100010001 := by
    have hfirst : intOfBe (beInt 8 w.firstTimestamp) = w.firstTimestamp :=
      intOfBe_beInt_of_fits w.firstTimestamp.2
    rw [← shifted_eq_iff hfits, ← beNat_misread _ _ hfits, misread]
    nth_rewrite 2 [← hfirst]
    rw [intOfBe_eq_iff (by simp), beInt, beInt, beNat_beBytes, Nat.mod_eq_of_lt hfits]
  have htime : (((w.firstTimestamp.val % (256 ^ 8 : ℕ)).toNat : ℕ) : ℤ) =
      w.firstTimestamp.val % 2 ^ 64 := by
    omega
  have hdelta : (((w.lastOffsetDelta.val % (256 ^ 4 : ℕ)).toNat % 2 ^ 16 : ℕ) : ℤ) =
      w.lastOffsetDelta.val % 2 ^ 16 := by
    omega
  rw [hword, ← htime, ← hdelta]
  norm_cast

/-- INTERNAL: a field is loaded from its place in what stands at `p`. -/
theorem load_slice {p q n : ℕ} {bs : Bytes} (hbytes : (Memory.ofBytes seg).HoldsAt p bs)
    (hn : 0 < n) (hq : q + n ≤ bs.length) : load seg (p + q) n = some (slice bs q n) := by
  have hsplit : bs = bs.take q ++ (slice bs q n ++ (bs.drop q).drop n) := by
    rw [slice, List.take_append_drop, List.take_append_drop]
  have htake : (bs.take q).length = q := by
    rw [List.length_take]
    omega
  have hlen : (slice bs q n).length = n := by
    rw [length_slice]
    omega
  rw [hsplit] at hbytes
  have hfield := hbytes.right.left
  rw [htake] at hfield
  have hload := load_of_holdsAt (List.ne_nil_of_length_pos (by omega)) hfield
  rwa [hlen] at hload

/-- INTERNAL: the fields of a batch's header that are looked at, with their places. -/
theorem load_header {w : WireBatch} {p : ℕ} (hbytes : (Memory.ofBytes seg).HoldsAt p w.bytes) :
    load seg p 8 = some (beInt 8 w.baseOffset) ∧
      load seg (p + 8) 4 = some (beInt 4 w.body.length) ∧
      load seg (p + 25) 8 =
        some (slice (beInt 4 w.lastOffsetDelta ++ beInt 8 w.firstTimestamp) 2 8) ∧
      load seg (p + 57) 4 = some (beInt 4 w.records.length) := by
  have hlen := length_bytes w
  have hstart : w.bytes = beInt 8 w.baseOffset ++ (beInt 4 w.body.length ++ w.body) := rfl
  have hmiddle : w.bytes = (beInt 8 w.baseOffset ++ beInt 4 w.body.length ++
      beInt 4 w.partitionLeaderEpoch ++ beInt 1 2 ++ beInt 4 w.crc ++ beInt 2 w.attributes) ++
      ((beInt 4 w.lastOffsetDelta ++ beInt 8 w.firstTimestamp) ++ (beInt 8 w.maxTimestamp ++
        beInt 8 w.producerId ++ beInt 2 w.producerEpoch ++ beInt 4 w.baseSequence ++
          wireArray WireRecord.bytes w.records)) := by
    simp only [WireBatch.bytes, wireBytes, WireBatch.body, List.append_assoc]
  have hend : w.bytes = (beInt 8 w.baseOffset ++ beInt 4 w.body.length ++
      beInt 4 w.partitionLeaderEpoch ++ beInt 1 2 ++ beInt 4 w.crc ++ beInt 2 w.attributes ++
      beInt 4 w.lastOffsetDelta ++ beInt 8 w.firstTimestamp ++ beInt 8 w.maxTimestamp ++
      beInt 8 w.producerId ++ beInt 2 w.producerEpoch ++ beInt 4 w.baseSequence) ++
      (beInt 4 w.records.length ++ w.records.flatMap WireRecord.bytes) := by
    simp only [WireBatch.bytes, wireBytes, WireBatch.body, wireArray, List.append_assoc]
  refine ⟨?_, ?_, ?_, ?_⟩
  · have hload := load_slice (q := 0) (n := 8) hbytes (by norm_num) (by omega)
    rw [Nat.add_zero] at hload
    rw [hload, hstart]
    exact congrArg some (slice_middle [] _ _ 0 8 rfl (length_beInt 8 _))
  · rw [load_slice hbytes (by norm_num) (by omega), hstart]
    exact congrArg some (slice_middle _ _ _ 8 4 (length_beInt 8 _) (length_beInt 4 _))
  · -- the field that starts at byte 27 is read from byte 25 on
    have hfront : (beInt 8 w.baseOffset ++ beInt 4 w.body.length ++
        beInt 4 w.partitionLeaderEpoch ++ beInt 1 2 ++ beInt 4 w.crc ++
        beInt 2 w.attributes).length = 23 := by
      simp only [List.length_append, length_beInt]
    have hwords : (beInt 4 w.lastOffsetDelta ++ beInt 8 w.firstTimestamp).length = 12 := by
      rw [List.length_append, length_beInt, length_beInt]
    rw [load_slice hbytes (by norm_num) (by omega), hmiddle,
      slice_append_right _ _ _ _ (by omega), slice_append_left _ _ _ _ (by omega), hfront]
  · rw [load_slice hbytes (by norm_num) (by omega), hend]
    exact congrArg some (slice_middle _ _ _ 57 4
      (by simp only [List.length_append, length_beInt]) (length_beInt 4 _))

/-- INTERNAL: one round of the loop over batches, by the fields it loads. -/
theorem peekBatches_of_fields (hrange : seg.length < 2 ^ 32) (limit : ℤ) {p count : ℕ}
    (hcount : count < limit) {bo bl : Bytes} (hbase : load seg p 8 = some bo)
    (hlen : load seg (p + 8) 4 = some bl) {total : ℕ} (htotal : 61 ≤ total)
    (hlenField : intOfBe bl = (total - 12 : ℕ)) (hend : p + total ≤ seg.length) (fuel : ℕ) :
    peekBatches seg limit (fuel + 1) p count = do
      let messages ← peekBatch seg p (p + total) (intOfBe bo) limit count
      let more ← peekBatches seg limit fuel (p + total) (count + messages.length)
      return messages ++ more := by
  have hnext : toUInt32 (p + 12 : ℕ) = p + 12 := toUInt32_of_lt (by omega)
  have hstop : toUInt32 (p + total : ℕ) = p + total := toUInt32_of_lt (by omega)
  have hguard : p + 12 ≤ seg.length ∧ (count : ℤ) < limit := ⟨by omega, hcount⟩
  have hbreak : ¬((total - 12 : ℕ) : ℤ) ≤ 0 := by omega
  have hinside : ¬p + total > seg.length := by omega
  have hlarge : ¬total < 61 := by omega
  have hsum : 12 + (total - 12) = total := by omega
  simp only [peekBatches, hnext, hguard, and_self, if_true, hbase, hlen, Option.bind_eq_bind,
    Option.bind_some, hlenField, Int.toNat_natCast, hsum, hstop, if_neg hbreak, if_neg hinside,
    if_neg hlarge]

/-- INTERNAL: the record loop, by the fields it is started on. -/
theorem peekBatch_of_fields {p n : ℕ} {rc ts : Bytes} (hrecords : load seg (p + 57) 4 = some rc)
    (hfirst : load seg (p + 25) 8 = some ts) (hcountField : intOfBe rc = n)
    (hrpos : toUInt32 (p + 61 : ℕ) = p + 61) (stop : ℕ) (base limit : ℤ) (count : ℕ) :
    peekBatch seg p stop base limit count =
      peekRecords seg stop base (intOfBe ts) limit n count (p + 61) := by
  simp only [peekBatch, hrecords, hfirst, Option.bind_eq_bind, Option.bind_some, hcountField,
    Int.toNat_natCast, hrpos]

section Batch

variable {w : WireBatch} (hlen : w.bytes.length < 2 ^ 31) {p : ℕ}
  (hbytes : (Memory.ofBytes seg).HoldsAt p w.bytes)

include hlen hbytes

/-- INTERNAL: the record loop is started on the number of records and on the bytes that are
taken for the first timestamp. -/
theorem peekBatch_eq (hrange : seg.length < 2 ^ 32) (stop : ℕ) (base limit : ℤ) (count : ℕ) :
    peekBatch seg p stop base limit count =
      peekRecords seg stop base (misread w) limit w.records.length count (p + 61) := by
  obtain ⟨-, -, hfirst, hrecordCount⟩ := load_header hbytes
  have hsize := length_bytes w
  have hend := hbytes.length_le (List.ne_nil_of_length_pos (by omega))
  have hrecords : w.records.length ≤ (w.records.flatMap WireRecord.bytes).length :=
    length_le_length_flatMap fun r _ => WireRecord.bytes_ne_nil r
  exact peekBatch_of_fields hrecordCount hfirst
    (intOfBe_beInt_of_fits (fits_four_of_lt (by omega))) (toUInt32_of_lt (by omega)) stop base
    limit count

/-- INTERNAL: one round of the loop over batches, at the start of a batch. -/
theorem peekBatches_succ (hrange : seg.length < 2 ^ 32) (limit : ℤ) {count : ℕ}
    (hcount : count < limit) (fuel : ℕ) :
    peekBatches seg limit (fuel + 1) p count = do
      let messages ← peekRecords seg (p + w.bytes.length) w.baseOffset (misread w) limit
        w.records.length count (p + 61)
      let more ← peekBatches seg limit fuel (p + w.bytes.length) (count + messages.length)
      return messages ++ more := by
  obtain ⟨hbase, hbatchLen, -, -⟩ := load_header hbytes
  have hsize := length_bytes w
  have hbody : w.bytes.length - 12 = w.body.length := by
    simp only [WireBatch.bytes, wireBytes, List.length_append, length_beInt]
    omega
  have hlenField : intOfBe (beInt 4 w.body.length) = (w.bytes.length - 12 : ℕ) := by
    rw [hbody]
    exact intOfBe_beInt_of_fits (fits_four_of_lt (by omega))
  have hround := peekBatches_of_fields hrange limit hcount hbase hbatchLen
    (show 61 ≤ w.bytes.length by omega) hlenField
    (hbytes.length_le (List.ne_nil_of_length_pos (by omega))) fuel
  rw [hround, intOfBe_beInt_of_fits w.baseOffset.2, peekBatch_eq hlen hbytes hrange]

end Batch

/-- What is reported of batches that stand one behind the other from `p` on. -/
def rangeMessages : ℕ → List WireBatch → List PeekedMessage
  | _, [] => []
  | p, w :: ws =>
    messages w.baseOffset (misread w) (p + 61) w.records ++ rangeMessages (p + w.bytes.length) ws

theorem exists_header (w : WireBatch) :
    ∃ header : Bytes, header.length = 61 ∧ w.bytes = header ++ w.records.flatMap WireRecord.bytes := by
  refine ⟨beInt 8 w.baseOffset ++ beInt 4 w.body.length ++ beInt 4 w.partitionLeaderEpoch ++
    beInt 1 2 ++ beInt 4 w.crc ++ beInt 2 w.attributes ++ beInt 4 w.lastOffsetDelta ++
    beInt 8 w.firstTimestamp ++ beInt 8 w.maxTimestamp ++ beInt 8 w.producerId ++
    beInt 2 w.producerEpoch ++ beInt 4 w.baseSequence ++ beInt 4 w.records.length, ?_, ?_⟩
  · simp only [List.length_append, length_beInt]
  · simp only [WireBatch.bytes, wireBytes, WireBatch.body, wireArray, List.append_assoc]

/-- INTERNAL: the records of a batch stand behind its header. -/
theorem holdsAt_records {w : WireBatch} {p : ℕ}
    (hbytes : (Memory.ofBytes seg).HoldsAt p w.bytes) :
    (Memory.ofBytes seg).HoldsAt (p + 61) (w.records.flatMap WireRecord.bytes) := by
  obtain ⟨header, hlen, hsplit⟩ := exists_header w
  have hright := (hsplit ▸ hbytes).right
  rwa [hlen] at hright

/-- INTERNAL: at the end of the range the loop stops. -/
theorem peekBatches_end (hrange : seg.length + 12 < 2 ^ 32) (limit : ℤ) (fuel count : ℕ) :
    peekBatches seg limit fuel seg.length count = some [] := by
  cases fuel with
  | zero => rfl
  | succ fuel =>
    have hnext : toUInt32 (seg.length + 12 : ℕ) = seg.length + 12 := toUInt32_of_lt hrange
    rw [peekBatches, hnext, if_neg (by omega)]

/-- INTERNAL: **a range of batches is walked through to its end**, or until the limit is
reached. -/
theorem peekBatches_of_layout (hrange : seg.length + 12 < 2 ^ 32) (limit : ℤ)
    {ws : List WireBatch} (hlen : ∀ w ∈ ws, w.bytes.length < 2 ^ 31)
    (hheaders : ∀ w ∈ ws, ∀ r ∈ w.records.dropLast, r.headers = []) {p : ℕ}
    (hbytes : (Memory.ofBytes seg).HoldsAt p (ws.flatMap WireBatch.bytes))
    (hend : p + (ws.flatMap WireBatch.bytes).length = seg.length) {fuel : ℕ}
    (hfuel : ws.length ≤ fuel) (count : ℕ) :
    peekBatches seg limit fuel p count =
      some ((rangeMessages p ws).take (limit - count).toNat) := by
  induction ws generalizing p fuel count with
  | nil =>
    rw [List.flatMap_nil, List.length_nil, Nat.add_zero] at hend
    rw [hend, peekBatches_end hrange, rangeMessages, List.take_nil]
  | cons w ws ih =>
    rw [List.length_cons] at hfuel
    obtain ⟨fuel, rfl⟩ := Nat.exists_eq_add_of_le' (show 1 ≤ fuel by omega)
    by_cases hcount : count < limit
    · rw [List.flatMap_cons] at hbytes hend
      rw [List.length_append] at hend
      have hw := hlen w List.mem_cons_self
      have hsize := length_bytes w
      have hloop := peekRecords_of_layout (show p + w.bytes.length < 2 ^ 32 by omega) w.baseOffset
        (misread w) limit (fun r hr => lt_of_le_of_lt (length_le_of_mem WireRecord.bytes hr)
          (by omega)) (hheaders w List.mem_cons_self) (holdsAt_records hbytes.left)
        (by omega) count
      rw [peekBatches_succ hw hbytes.left (by omega) limit hcount, hloop, Option.bind_eq_bind,
        Option.bind_some, ih (fun w' hw' => hlen w' (List.mem_cons_of_mem _ hw'))
          (fun w' hw' => hheaders w' (List.mem_cons_of_mem _ hw')) hbytes.right (by omega)
          (by omega)]
      have hleft : (limit - (count + ((messages w.baseOffset (misread w) (p + 61) w.records).take
          (limit - count).toNat).length : ℕ)).toNat =
          (limit - count).toNat - (messages w.baseOffset (misread w) (p + 61) w.records).length := by
        rw [List.length_take]
        omega
      rw [hleft, rangeMessages, List.take_append]
      rfl
    · have hzero : (limit - count).toNat = 0 := by omega
      rw [peekBatches, if_neg (fun h => hcount h.2), hzero, List.take_zero]

end StrikeMQ.Analysis.PeekReading
