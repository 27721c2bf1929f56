import StrikeMQ.Analysis.PeekReading

/-!
# The two record parsers

A stored batch is parsed by two loops: `decode_record_batch` walks a record to its end, headers
included; `handle_get_messages` stops behind the count of the headers. Here both are run over
the same batch in the same range, and compared by the places at which they find records. They
agree exactly when no record but the last one has headers. What the second loop then reports of
a record is what the record holds, with three exceptions: a missing value is reported as an
empty one, a sum beyond 64 bits wraps, and the first timestamp of the batch is read two bytes
too early.
-/

set_option autoImplicit false

namespace StrikeMQ.Analysis.ParserAgreement

open StrikeMQ.Lib StrikeMQ.Model StrikeMQ.Model.BinaryReader StrikeMQ.Model.KafkaDecoder
open StrikeMQ.Model.MessagePeek StrikeMQ.Interface
open StrikeMQ.Analysis.WireReading StrikeMQ.Analysis.RecordDecoding StrikeMQ.Analysis.PeekReading

/-! ## The property -/

/-- A round of the decoder's record loop, with the address at which it finds the record.
SOURCE: protocol/kafka_codec.cpp:52-65 -/
def locatedRecord (firstTimestamp : ℤ) : ReaderM ℕ := do
  let start ← current
  let _ ← decodeRecord firstTimestamp
  return start

/-- Over the batch `w`, which stands at `p` in the range, both record loops find the records at
the same places. -/
def SameStarts (seg : Bytes) (p : ℕ) (w : WireBatch) (limit : ℤ) : Prop :=
  ∃ found starts r,
    peekBatch seg p (p + w.bytes.length) w.baseOffset limit 0 = some found ∧
      (MemReader.times (locatedRecord w.firstTimestamp) w.records.length).run (Memory.ofBytes seg)
        { length := seg.length, pos := p + 61 } = some (starts, r) ∧
      found.map PeekedMessage.start = starts

/-- A key as it is to be reported: null if there is none, or an empty one. -/
def keyOrNull (key : Option Bytes) : Option Bytes :=
  if key.getD [] = [] then none else key

/-- The message tells what the record encodes. -/
structure Reports (w : WireBatch) (r : WireRecord) (m : PeekedMessage) : Prop where
  offset : m.offset = w.baseOffset + r.offsetDelta
  timestamp : m.timestamp = w.firstTimestamp + r.timestampDelta
  key : m.key = keyOrNull r.key
  value : some m.valueStr = r.value

/-- Each record of the batch is reported as what it encodes, in order. -/
def ReportsRecords (seg : Bytes) (p : ℕ) (w : WireBatch) (limit : ℤ) : Prop :=
  ∃ found, peekBatch seg p (p + w.bytes.length) w.baseOffset limit 0 = some found ∧
    List.Forall₂ (Reports w) w.records found

/-! ## Where the records are found -/

/-- The places of records that stand one behind the other from `p` on. -/
def startsFrom : ℕ → List WireRecord → List ℕ
  | _, [] => []
  | p, r :: rs => p :: startsFrom (p + r.bytes.length) rs

theorem map_start_messages (base first : ℤ) (p : ℕ) (rs : List WireRecord) :
    (messages base first p rs).map PeekedMessage.start = startsFrom p rs := by
  induction rs generalizing p with
  | nil => rfl
  | cons r rs ih =>
    rw [messages, List.map_cons, ih]
    rfl

/-- INTERNAL: the decoder finds every record. -/
theorem reads_locatedRecords {m : Memory} (firstTimestamp : ℤ) {rs : List WireRecord}
    (hlen : ∀ r ∈ rs, r.bytes.length < 2 ^ 31) (hshort : ∀ r ∈ rs, r.Short) (a : ℕ) :
    Reads m (MemReader.times (locatedRecord firstTimestamp) rs.length) a
      (rs.flatMap WireRecord.bytes) (startsFrom a rs) := by
  induction rs generalizing a with
  | nil => exact Reads.pure a []
  | cons r rs ih =>
    obtain ⟨rec, -, hrec⟩ := exists_reads_decodeRecord (m := m) firstTimestamp
      (hlen r List.mem_cons_self) (hshort r List.mem_cons_self)
    have hround : Reads m (locatedRecord firstTimestamp) a r.bytes a :=
      (reads_current a).bind_nil ((hrec a).bind_pure rfl)
    rw [List.flatMap_cons]
    exact hround.bind fun _ =>
      (ih (fun s hs => hlen s (List.mem_cons_of_mem _ hs))
        (fun s hs => hshort s (List.mem_cons_of_mem _ hs)) _).bind_pure rfl

/-- Whatever the program returns when it is started at `p` satisfies `P`. -/
def Returns {α : Type} (x : RecordM α) (p : ℕ) (P : α → Prop) : Prop :=
  ∀ v q, (x.run p).run = some (some (v, q)) → P v

theorem Returns.pure {α : Type} {v : α} {p : ℕ} {P : α → Prop} (h : P v) :
    Returns (pure v) p P := by
  intro w q hrun
  have heq : some (some (v, p)) = some (some (w, q)) := hrun
  rw [Option.some.injEq, Option.some.injEq, Prod.mk.injEq] at heq
  rw [← heq.1]
  exact h

theorem Returns.bind {α β : Type} {x : RecordM α} {f : α → RecordM β} {p : ℕ} {P : β → Prop}
    (h : ∀ v q, Returns (f v) q P) : Returns (x >>= f) p P := by
  intro w q hrun
  rw [StateT.run_bind, OptionT.run_bind] at hrun
  cases hx : (x.run p).run with
  | none => simp [hx, Option.elimM] at hrun
  | some out =>
    cases out with
    | none => simp [hx, Option.elimM] at hrun
    | some vq =>
      rw [hx] at hrun
      exact h vq.1 vq.2 w q hrun

theorem Returns.get {α : Type} {f : ℕ → RecordM α} {p : ℕ} {P : α → Prop}
    (h : Returns (f p) p P) : Returns (get >>= f) p P :=
  h

theorem returns_start (seg : Bytes) (stop p : ℕ) (base first : ℤ) :
    Returns (peekRecord seg stop base first) p fun m => m.start = p := by
  refine Returns.get ?_
  iterate 11 refine Returns.bind fun _ _ => ?_
  exact Returns.pure rfl

/-- INTERNAL: the first message is found where the loop starts. -/
theorem start_of_peekRecords {seg : Bytes} {stop left count p : ℕ} {base first limit : ℤ}
    {m : PeekedMessage} {ms : List PeekedMessage}
    (h : peekRecords seg stop base first limit left count p = some (m :: ms)) : m.start = p := by
  cases left with
  | zero => cases h
  | succ left =>
    rw [peekRecords] at h
    split at h
    · obtain ⟨round, hround, hrest⟩ := Option.bind_eq_some_iff.mp h
      cases round with
      | none => cases hrest
      | some mq =>
        obtain ⟨rest, -, hmessages⟩ := Option.bind_eq_some_iff.mp hrest
        have heq : mq.1 :: rest = m :: ms := Option.some.inj hmessages
        rw [List.cons.injEq] at heq
        rw [← heq.1]
        exact returns_start seg stop p base first mq.1 mq.2 hround
    · cases h

/-- INTERNAL: **a loop that finds every record in its place has met no headers** before the
last record: it would have gone on inside of them. -/
theorem headers_nil_of_starts {seg : Bytes} {stop : ℕ} (hlt : stop < 2 ^ 32)
    (base first limit : ℤ) {rs : List WireRecord} (hlen : ∀ r ∈ rs, r.bytes.length < 2 ^ 31)
    {p count : ℕ} (hbytes : (Memory.ofBytes seg).HoldsAt p (rs.flatMap WireRecord.bytes))
    (hstop : p + (rs.flatMap WireRecord.bytes).length ≤ stop)
    (hlimit : (count + rs.length : ℕ) ≤ limit) {found : List PeekedMessage}
    (hfound : peekRecords seg stop base first limit rs.length count p = some found)
    (hstarts : found.map PeekedMessage.start = startsFrom p rs) :
    ∀ r ∈ rs.dropLast, r.headers = [] := by
  induction rs generalizing p count found with
  | nil => simp
  | cons r rs ih =>
    cases rs with
    | nil => simp
    | cons r' rs =>
      have hrest : ∀ s ∈ r' :: rs, s.bytes.length < 2 ^ 31 :=
        fun s hs => hlen s (List.mem_cons_of_mem _ hs)
      rw [List.flatMap_cons, bytes_eq_counted_append, List.append_assoc] at hbytes hstop
      rw [List.length_append] at hstop
      rw [List.length_cons] at hlimit
      rw [List.length_cons, peekRecords_succ hlt base first limit (hlen r List.mem_cons_self)
        hbytes.left (by omega) (by omega), Option.map_eq_some_iff] at hfound
      obtain ⟨found', hfound', rfl⟩ := hfound
      rw [List.map_cons, startsFrom, List.cons.injEq] at hstarts
      -- the next round starts behind the count, the next record behind the headers
      obtain ⟨m, ms, rfl⟩ : ∃ m ms, found' = m :: ms := by
        cases found' with
        | nil => exact absurd hstarts.2 (by simp [startsFrom])
        | cons m ms => exact ⟨m, ms, rfl⟩
      have hnext : p + (counted r).length = p + r.bytes.length := by
        rw [← start_of_peekRecords hfound']
        have hhead := hstarts.2
        rw [List.map_cons, startsFrom, List.cons.injEq] at hhead
        exact hhead.1
      have hnone : r.headers = [] := by
        rw [bytes_eq_counted_append, List.length_append] at hnext
        have hle : r.headers.length ≤ (r.headers.flatMap WireRecord.headerBytes).length :=
          length_le_length_flatMap fun h _ =>
            List.append_ne_nil_of_left_ne_nil (varBytes_ne_nil (some h.1)) _
        exact List.length_eq_zero_iff.mp (by omega)
      rw [hnone, List.flatMap_nil, List.nil_append] at hbytes hstop
      rw [counted_of_headers_nil hnone] at hbytes hstop hfound'
      have htail := ih hrest hbytes.right (by omega) (by omega) hfound' hstarts.2
      intro s hs
      rw [List.dropLast_cons_cons, List.mem_cons] at hs
      rcases hs with rfl | hs
      · exact hnone
      · exact htail s hs

section Batch

variable {seg : Bytes} {p : ℕ} {w : WireBatch} (hbytes : (Memory.ofBytes seg).HoldsAt p w.bytes)
  (hrange : seg.length < 2 ^ 32) (hlen : w.bytes.length < 2 ^ 31) {limit : ℤ}
  (hlimit : w.records.length ≤ limit)

include hlen

theorem length_record_lt {r : WireRecord} (hr : r ∈ w.records) : r.bytes.length < 2 ^ 31 := by
  have hsize := length_bytes w
  have hle := length_le_of_mem WireRecord.bytes hr
  omega

include hbytes

/-- INTERNAL: the decoder's loop over the batch. -/
theorem exists_run_locatedRecords (hshort : ∀ r ∈ w.records, r.Short) :
    ∃ r, (MemReader.times (locatedRecord w.firstTimestamp) w.records.length).run
      (Memory.ofBytes seg) { length := seg.length, pos := p + 61 } =
        some (startsFrom (p + 61) w.records, r) :=
  ⟨_, reads_locatedRecords w.firstTimestamp (fun _ hr => length_record_lt hlen hr) hshort (p + 61)
    (holdsAt_records hbytes) _ (Nat.zero_add _)⟩

include hrange

theorem stop_lt : p + w.bytes.length < 2 ^ 32 := by
  have hsize := length_bytes w
  have hend := hbytes.length_le (List.ne_nil_of_length_pos (by omega))
  omega

include hlimit

/-- INTERNAL: without headers before the last record, every record is reported. -/
theorem peekBatch_of_headers (hheaders : ∀ r ∈ w.records.dropLast, r.headers = []) :
    peekBatch seg p (p + w.bytes.length) w.baseOffset limit 0 =
      some (messages w.baseOffset (misread w) (p + 61) w.records) := by
  have hsize := length_bytes w
  rw [peekBatch_eq hlen hbytes hrange,
    peekRecords_of_layout (stop_lt hbytes hrange hlen) _ _ _ (fun _ hr => length_record_lt hlen hr)
      hheaders (holdsAt_records hbytes) (by omega), List.take_of_length_le]
  rw [length_messages]
  omega

/-- INTERNAL: **the loops agree on the places exactly if only the last record has headers.** -/
theorem sameStarts_iff (hshort : ∀ r ∈ w.records, r.Short) :
    SameStarts seg p w limit ↔ ∀ r ∈ w.records.dropLast, r.headers = [] := by
  have hsize := length_bytes w
  obtain ⟨r, hdecoder⟩ := exists_run_locatedRecords hbytes hlen hshort
  constructor
  · rintro ⟨found, starts, r', hfound, hrun, hstarts⟩
    rw [hdecoder, Option.some.injEq, Prod.mk.injEq] at hrun
    rw [peekBatch_eq hlen hbytes hrange] at hfound
    exact headers_nil_of_starts (stop_lt hbytes hrange hlen) _ _ _
      (fun _ hr => length_record_lt hlen hr) (holdsAt_records hbytes) (by omega) (by omega) hfound
      (by rw [hstarts, hrun.1])
  · intro hheaders
    exact ⟨_, _, r, peekBatch_of_headers hbytes hrange hlen hlimit hheaders, hdecoder,
      map_start_messages _ _ _ _⟩

end Batch

/-! ## What is reported -/

/-- INTERNAL: the key is always reported as it should be. -/
theorem key_message (base first : ℤ) (p : ℕ) (r : WireRecord) :
    (message base first p r).key = keyOrNull r.key := by
  unfold PeekedMessage.key message keyOrNull
  split
  · rfl
  · next hne =>
    cases hkey : r.key with
    | none => exact absurd (by rw [hkey]; rfl) hne
    | some key => rfl

/-- INTERNAL: a message shows its record's timestamp if the sum does not overflow and the eight
bytes that are read for the first timestamp say the same. -/
theorem timestamp_message_iff (w : WireBatch) (p : ℕ) (r : WireRecord) :
    (message w.baseOffset (misread w) p r).timestamp = w.firstTimestamp + r.timestampDelta ↔
      Fits 8 (w.firstTimestamp + r.timestampDelta) ∧ misread w = w.firstTimestamp := by
  have hfits : Fits 8 (misread w) := by
    have h := fits_intOfBe (slice (beInt 4 w.lastOffsetDelta ++ beInt 8 w.firstTimestamp) 2 8)
    rwa [length_slice, List.length_append, length_beInt, length_beInt] at h
  have hfirst := w.firstTimestamp.2
  show toInt64 (misread w + r.timestampDelta) = w.firstTimestamp + r.timestampDelta ↔ _
  constructor
  · intro h
    have hword : Fits 8 (toInt64 (misread w + r.timestampDelta)) :=
      toInt64_eq_self_iff.mp Int.bmod_bmod
    have hmod : (misread w + r.timestampDelta) % 2 ^ 64 =
        (w.firstTimestamp + r.timestampDelta) % 2 ^ 64 := by
      rw [← h]
      exact Int.bmod_emod.symm
    rw [h] at hword
    obtain ⟨hlo, hhi⟩ := hfits
    obtain ⟨hlo', hhi'⟩ := hfirst
    exact ⟨hword, by omega⟩
  · rintro ⟨hsum, hsame⟩
    rw [hsame]
    exact toInt64_eq_self_iff.mpr hsum

/-- What must hold of a record for its fields to come out right. -/
def Reportable (w : WireBatch) (r : WireRecord) : Prop :=
  r.value ≠ none ∧ Fits 8 (w.baseOffset + r.offsetDelta) ∧
    Fits 8 (w.firstTimestamp + r.timestampDelta) ∧
    w.firstTimestamp.val % 2 ^ 64 = w.lastOffsetDelta.val % 2 ^ 16 * 0x0001000100010001

instance (w : WireBatch) (r : WireRecord) : Decidable (Reportable w r) :=
  inferInstanceAs (Decidable (_ ∧ _))

theorem reports_message_iff (w : WireBatch) (p : ℕ) (r : WireRecord) :
    Reports w r (message w.baseOffset (misread w) p r) ↔ Reportable w r := by
  have htime := timestamp_message_iff w p r
  rw [misread_eq_iff] at htime
  constructor
  · intro h
    obtain ⟨hsum, hfirst⟩ := htime.mp h.timestamp
    refine ⟨fun hnone => ?_, toInt64_eq_self_iff.mp h.offset, hsum, hfirst⟩
    exact absurd (h.value.trans hnone) (by simp)
  · rintro ⟨hvalue, hoffset, hsum, hfirst⟩
    refine ⟨toInt64_eq_self_iff.mpr hoffset, htime.mpr ⟨hsum, hfirst⟩, key_message _ _ p r, ?_⟩
    obtain ⟨v, hv⟩ := Option.ne_none_iff_exists'.mp hvalue
    show some (r.value.getD []) = r.value
    rw [hv, Option.getD_some]

theorem forall₂_reports_iff (w : WireBatch) (p : ℕ) (rs : List WireRecord) :
    List.Forall₂ (Reports w) rs (messages w.baseOffset (misread w) p rs) ↔
      ∀ r ∈ rs, Reportable w r := by
  induction rs generalizing p with
  | nil => simp [messages]
  | cons r rs ih =>
    rw [messages, List.forall₂_cons, reports_message_iff, ih, List.forall_mem_cons]

/-- PROPERTY: **the two record parsers agree on batches whose last record alone has headers.** Over
every batch in Kafka's format whose timestamp deltas have at most five groups, as all 32-bit numbers
have, anywhere in a range of the log, with any limit that does not cut it short, the record loops of
`decode_record_batch` and of `handle_get_messages` find their records at the same places if and only
if no record but the last one has headers. The messages then tell what the records encode if and
only if no value is missing, the sums fit 64 bits, and the first timestamp is the one that is read
two bytes before its place.
SOURCE: http/http_server.cpp:757-844, protocol/kafka_codec.cpp:51-65 -/
theorem parsers_agree_iff {seg : Bytes} {p : ℕ} {w : WireBatch}
    (hbytes : (Memory.ofBytes seg).HoldsAt p w.bytes) (hrange : seg.length < 2 ^ 32)
    (hlen : w.bytes.length < 2 ^ 31) (hshort : ∀ r ∈ w.records, r.Short) {limit : ℤ}
    (hlimit : w.records.length ≤ limit) :
    (SameStarts seg p w limit ↔ ∀ r ∈ w.records.dropLast, r.headers = []) ∧
      (SameStarts seg p w limit ∧ ReportsRecords seg p w limit ↔
        (∀ r ∈ w.records.dropLast, r.headers = []) ∧ ∀ r ∈ w.records, Reportable w r) := by
  have hplaces := sameStarts_iff hbytes hrange hlen hlimit hshort
  refine ⟨hplaces, ?_⟩
  rw [hplaces]
  apply and_congr_right
  intro hheaders
  have hfound := peekBatch_of_headers hbytes hrange hlen hlimit hheaders
  rw [← forall₂_reports_iff w (p + 61)]
  constructor
  · rintro ⟨found, hrun, hreports⟩
    rw [hfound, Option.some.injEq] at hrun
    rwa [hrun]
  · intro hreports
    exact ⟨_, hfound, hreports⟩

/-- A batch of two records, with the headers of each. -/
def twoRecords (first second : List (Bytes × Option Bytes)) : WireBatch where
  firstTimestamp := wordOf 8 0x0001000100010001
  lastOffsetDelta := wordOf 4 1
  records := [
    { key := some (ascii "k"), value := some (ascii "v"), headers := first },
    { offsetDelta := wordOf 4 1, value := some (ascii "w"), headers := second }]

theorem holdsAt_bytes (w : WireBatch) (h : w.bytes.length < 2 ^ 31) :
    (Memory.ofBytes w.bytes).HoldsAt 0 w.bytes :=
  (Memory.holds_ofBytes w.bytes).at_zero h

/-- The conditions are met by a batch with a header on its last record, at one instant of the
year 10889. -/
theorem parsers_agree_iff_last_header :
    let w := twoRecords [] [(ascii "h", none)]
    ((∀ r ∈ w.records.dropLast, r.headers = []) ∧ ∀ r ∈ w.records, Reportable w r) ∧
      SameStarts w.bytes 0 w 10 ∧ ReportsRecords w.bytes 0 w 10 := by
  intro w
  have hmet : (∀ r ∈ w.records.dropLast, r.headers = []) ∧ ∀ r ∈ w.records, Reportable w r :=
    ⟨by decide, by decide⟩
  exact ⟨hmet, (parsers_agree_iff (holdsAt_bytes w (by decide)) (by decide) (by decide) (by decide)
    (by decide)).2.mpr hmet⟩

/-- A batch with a header on the first of two records. -/
def firstHeader : WireBatch :=
  twoRecords [(ascii "h", some (ascii "x"))] []

/-- A batch of one record, at an instant of the year 2023. -/
def stampedRecord : WireBatch where
  firstTimestamp := wordOf 8 1700000000000
  records := [{ value := some (ascii "v") }]

/-- Behind a header the second of two records is looked for in the wrong place, and a batch
without headers is reported with a timestamp of the year 1970. -/
theorem headers_and_timestamps_are_misread :
    (¬SameStarts firstHeader.bytes 0 firstHeader 2 ∧
      (peekBatch firstHeader.bytes 0 firstHeader.bytes.length firstHeader.baseOffset 2 0).map
        (fun found => found.map PeekedMessage.start) = some [61, 70]) ∧
    (SameStarts stampedRecord.bytes 0 stampedRecord 1 ∧
      ¬ReportsRecords stampedRecord.bytes 0 stampedRecord 1 ∧
      (peekBatch stampedRecord.bytes 0 stampedRecord.bytes.length stampedRecord.baseOffset 1 0).map
        (fun found => found.map PeekedMessage.timestamp) = some [25939941]) := by
  have hheader := holdsAt_bytes firstHeader (by decide)
  have hstamped := holdsAt_bytes stampedRecord (by decide)
  have hnone : ∀ r ∈ stampedRecord.records.dropLast, r.headers = [] := by decide
  refine ⟨⟨fun h => ?_, by decide +kernel⟩, ?_, ?_, by decide +kernel⟩
  · have hheaders := (sameStarts_iff hheader (by decide) (by decide) (by decide) (by decide)).mp h
    exact absurd hheaders (by decide)
  · exact (sameStarts_iff hstamped (by decide) (by decide) (by decide) (by decide)).mpr hnone
  · rintro ⟨found, hrun, hreports⟩
    rw [peekBatch_of_headers hstamped (by decide) (by decide) (by decide) hnone,
      Option.some.injEq] at hrun
    rw [← hrun, forall₂_reports_iff] at hreports
    have hreportable := hreports _ List.mem_cons_self
    exact absurd hreportable.2.2.2 (by decide)

end StrikeMQ.Analysis.ParserAgreement
