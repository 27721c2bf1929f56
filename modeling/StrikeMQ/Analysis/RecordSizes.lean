import StrikeMQ.Analysis.RecordDecoding
import StrikeMQ.Interface.RecordSizes

/-!
# When the sizes of decoded records make sense

Most operations of the decoder take the reader forward: a number that is read lies in the data, and
a key, a value or the value of a header is skipped only if its length is not negative. Only the key
of a header is skipped whatever its length. So the reader goes forward all the way exactly when the
records are laid out field by field; each record is then as long as its layout. The last header may
still claim more bytes than there are, since nothing is read behind it.

Forward, a layout is walked through (`Walks`); backward, a walk on which the reader never went back
has a layout (`Lays`).
-/

set_option autoImplicit false

namespace StrikeMQ.Analysis.RecordSizes

open StrikeMQ.Lib StrikeMQ.Model StrikeMQ.Model.BinaryReader StrikeMQ.Model.KafkaDecoder
open StrikeMQ.Model.PartitionLog (serializeRecord)
open StrikeMQ.Interface StrikeMQ.Analysis.WireReading StrikeMQ.Analysis.RecordDecoding

variable {α β γ : Type} {m : Memory}

/-! ## Walking through a layout -/

/-- The program takes the bytes `bs`, and notes positions between where they start and where they
end, none below an earlier one. -/
def Walks (m : Memory) (x : WalkM α) (a : ℕ) (bs : Bytes) (Q : α → Prop) : Prop :=
  m.HoldsAt a bs → ∀ (r : BinaryReader) (notes : List ℕ), r.data = 0 → r.pos = a →
    ∃ v new, x.run m (r, notes) = some (v, { r with pos := a + bs.length }, new ++ notes) ∧ Q v ∧
      (new ++ [a]).Pairwise (· ≥ ·) ∧ ∀ p ∈ new, p ≤ a + bs.length

theorem walks_op {x : ReaderM α} {a : ℕ} {bs : Bytes} {v : α} (h : Reads m x a bs v) :
    Walks m (WalkM.op x) a bs (· = v) := by
  intro hbytes r notes hdata hpos
  refine ⟨v, [a + bs.length], ?_, rfl, ?_, ?_⟩
  · have hrun := h hbytes r (by rw [hdata, hpos, Nat.zero_add])
    show (x.run m r).map _ = _
    rw [hrun, hpos]
    rfl
  · simp
  · simp

theorem walks_pure {v : α} {Q : α → Prop} (h : Q v) (a : ℕ) : Walks m (pure v) a [] Q := by
  intro _ r notes _ hpos
  refine ⟨v, [], ?_, h, List.pairwise_singleton _ _, by simp⟩
  rw [← hpos]
  rfl

theorem Walks.bind {x : WalkM α} {f : α → WalkM β} {a : ℕ} {bs cs : Bytes} {Q : α → Prop}
    {R : β → Prop} (hx : Walks m x a bs Q) (hf : ∀ v, Q v → Walks m (f v) (a + bs.length) cs R) :
    Walks m (x >>= f) a (bs ++ cs) R := by
  intro hbytes r notes hdata hpos
  obtain ⟨v, first, hrun, hv, hsorted, hbound⟩ := hx hbytes.left r notes hdata hpos
  obtain ⟨w, second, hrun', hw, hsorted', hbound'⟩ :=
    hf v hv hbytes.right { r with pos := a + bs.length } (first ++ notes) hdata rfl
  refine ⟨w, second ++ first, ?_, hw, ?_, ?_⟩
  · show (x.run m (r, notes)).bind _ = _
    rw [hrun]
    show (f v).run m _ = _
    rw [hrun', List.length_append, Nat.add_assoc, List.append_assoc]
  · obtain ⟨hpair, -, hmid⟩ := List.pairwise_append.mp hsorted'
    rw [List.append_assoc]
    refine List.pairwise_append.mpr ⟨hpair, hsorted, fun p hp q hq => ?_⟩
    -- what the second program notes is not below the place between the two
    have hp' : a + bs.length ≤ p := hmid p hp _ (List.mem_singleton_self _)
    rcases List.mem_append.mp hq with hq | hq
    · exact le_trans (hbound q hq) hp'
    · rw [List.mem_singleton.mp hq]
      omega
  · intro p hp
    rw [List.length_append]
    rcases List.mem_append.mp hp with hp | hp
    · have hle := hbound' p hp
      omega
    · have hle := hbound p hp
      omega

/-- An operation whose result is known. -/
theorem walks_op_bind {x : ReaderM α} {f : α → WalkM β} {a : ℕ} {bs cs : Bytes} {v : α}
    {R : β → Prop} (hx : Reads m x a bs v) (hf : Walks m (f v) (a + bs.length) cs R) :
    Walks m (WalkM.op x >>= f) a (bs ++ cs) R := by
  refine (walks_op hx).bind fun w hw => ?_
  have hvalue : w = v := hw
  rw [hvalue]
  exact hf

/-- The value of the last program is put together. -/
theorem Walks.bind_pure {x : WalkM α} {a : ℕ} {bs : Bytes} {Q : α → Prop} {f : α → β}
    {R : β → Prop} (hx : Walks m x a bs Q) (hf : ∀ v, Q v → R (f v)) :
    Walks m (x >>= fun v => pure (f v)) a bs R := by
  rw [← List.append_nil bs]
  exact hx.bind fun v hv => walks_pure (hf v hv) _

theorem walks_times {x : WalkM α} {layout : β → Bytes} {Q : β → α → Prop} {ys : List β}
    (h : ∀ y ∈ ys, ∀ a, Walks m x a (layout y) (Q y)) (a : ℕ) :
    Walks m (MemReader.times x ys.length) a (ys.flatMap layout) (List.Forall₂ Q ys) := by
  induction ys generalizing a with
  | nil => exact walks_pure List.Forall₂.nil a
  | cons y ys ih =>
    rw [List.flatMap_cons]
    refine (h y List.mem_cons_self a).bind fun v hv => ?_
    refine (ih (fun z hz => h z (List.mem_cons_of_mem _ hz)) _).bind_pure fun vs hvs => ?_
    exact List.Forall₂.cons hv hvs

/-- INTERNAL: a byte string that may be missing is walked over as a whole. -/
theorem walks_present (s : SizedBytes) (a : ℕ) :
    Walks m (walkPresent s.size.value) a s.content fun _ => True := by
  have hlen := s.length_content
  unfold walkPresent
  split
  · have hskip : Reads m (skip s.size.value) a s.content () := reads_skip (by omega)
    intro hbytes r notes hdata hpos
    obtain ⟨v, new, hrun, -, hsorted, hbound⟩ := walks_op hskip hbytes r notes hdata hpos
    exact ⟨v, new, hrun, trivial, hsorted, hbound⟩
  · have hnil : s.content = [] := List.eq_nil_of_length_eq_zero (by omega)
    rw [hnil]
    exact walks_pure trivial a

/-- INTERNAL: so is a record header. -/
theorem walks_recordHeader (h : HeaderLayout) (a : ℕ) :
    Walks m walkRecordHeader a h.bytes fun _ => True := by
  have hlen := h.key.length_content
  have hpos := h.key_nonneg
  rw [HeaderLayout.bytes, SizedBytes.bytes, SizedBytes.bytes, List.append_assoc]
  refine walks_op_bind (reads_groups h.key.size a) ?_
  refine walks_op_bind (reads_skip (by omega)) ?_
  exact walks_op_bind (reads_groups h.value.size _) (walks_present h.value _)

/-- A record is as long as its layout. -/
def SpanOf (l : RecordLayout) (s : RecordSpan) : Prop :=
  s.totalSize = toUInt32 l.bytes.length ∧ s.stop = s.data + l.bytes.length

/-- INTERNAL: **a record that is laid out is walked through.** -/
theorem walks_record (firstTimestamp : ℤ) (l : RecordLayout) (a : ℕ) :
    Walks m (walkRecord firstTimestamp) a l.bytes (SpanOf l) := by
  have hlayout : l.bytes = [] ++ (l.length.bytes ++ (beInt 1 l.attributes ++
      (l.timestampDelta.bytes ++ (l.offsetDelta.bytes ++ (l.key.size.bytes ++
        (l.key.content ++ (l.value.size.bytes ++ (l.value.content ++
          (l.headerCount.bytes ++ (l.headers.flatMap HeaderLayout.bytes ++ [])))))))))) := by
    simp only [RecordLayout.bytes, SizedBytes.bytes, List.append_assoc, List.append_nil,
      List.nil_append]
  have hheaders : ∀ a, Walks m (MemReader.times walkRecordHeader l.headers.length) a
      (l.headers.flatMap HeaderLayout.bytes) (List.Forall₂ (fun _ _ => True) l.headers) :=
    walks_times fun h _ => walks_recordHeader h
  rw [l.length_headers] at hheaders
  have hlength := congrArg List.length hlayout
  simp only [List.length_append, List.length_nil, length_beInt] at hlength
  rw [hlayout]
  refine walks_op_bind (reads_current a) ?_
  refine walks_op_bind (reads_groups l.length _) ?_
  refine walks_op_bind (reads_readInt8 l.attributes _) ?_
  refine walks_op_bind (reads_groups l.timestampDelta _) ?_
  refine walks_op_bind (reads_groups l.offsetDelta _) ?_
  refine walks_op_bind (reads_groups l.key.size _) ?_
  refine (walks_present l.key _).bind fun _ _ => ?_
  refine walks_op_bind (reads_groups l.value.size _) ?_
  refine (walks_present l.value _).bind fun _ _ => ?_
  refine walks_op_bind (reads_groups l.headerCount _) ?_
  refine (hheaders _).bind fun _ _ => ?_
  refine walks_op_bind (reads_current _) (walks_pure ⟨?_, ?_⟩ _)
  · dsimp only
    congr 1
    simp only [List.length_nil, length_beInt]
    omega
  · simp only [List.length_nil, length_beInt]
    omega

/-- INTERNAL: **a batch that is laid out is walked through.** -/
theorem walks_recordBatch (d : BatchLayout) (a : ℕ) :
    Walks m walkRecordBatch a d.bytes fun w => List.Forall₂ SpanOf d.records w.2 := by
  have hrecords : ∀ a, Walks m (MemReader.times (walkRecord d.firstTimestamp) d.records.length) a
      (d.records.flatMap RecordLayout.bytes) (List.Forall₂ SpanOf d.records) :=
    walks_times fun l _ => walks_record d.firstTimestamp l
  rw [d.length_records] at hrecords
  simp only [BatchLayout.bytes, List.append_assoc]
  refine walks_op_bind (reads_readInt64 d.baseOffset a) ?_
  refine walks_op_bind (reads_readInt32 d.batchLength.2 _) ?_
  refine walks_op_bind (reads_readInt32 d.partitionLeaderEpoch.2 _) ?_
  refine walks_op_bind (reads_readInt8 ⟨2, by decide⟩ _) ?_
  rw [if_neg (by decide)]
  refine walks_op_bind (reads_readInt32 d.crc.2 _) ?_
  refine walks_op_bind (reads_readInt16 d.attributes.2 _) ?_
  refine walks_op_bind (reads_readInt32 d.lastOffsetDelta.2 _) ?_
  refine walks_op_bind (reads_readInt64 d.firstTimestamp _) ?_
  refine walks_op_bind (reads_readInt64 d.maxTimestamp _) ?_
  refine walks_op_bind (reads_readInt64 d.producerId _) ?_
  refine walks_op_bind (reads_readInt16 d.producerEpoch.2 _) ?_
  refine walks_op_bind (reads_readInt32 d.baseSequence.2 _) ?_
  refine walks_op_bind (reads_readInt32 d.recordCount.2 _) ?_
  exact (hrecords _).bind_pure fun _ h => h

/-! ## The layout of a walk -/

/-- INTERNAL: a read loads the next bytes and moves behind them. -/
theorem readRaw_run (n : ℕ) (m : Memory) (r : BinaryReader) :
    (readRaw n).run m r = (loadBytes m (r.data + r.pos) n).map fun bs =>
      (bs, { r with pos := (r.pos + ((n : ℤ) % addressSpace).toNat) % addressSpace }) := by
  show ((loadBytes m (r.data + r.pos) n).map _).bind _ = _
  cases loadBytes m (r.data + r.pos) n with
  | none => rfl
  | some bs => rfl

/-- INTERNAL: a varint is searched for its last group, then put together. -/
theorem readSignedVarint_run (m : Memory) (r : BinaryReader) :
    readSignedVarint.run m r = (scanBytes m lastGroup (r.data + r.pos) addressSpace).bind fun bs =>
      (varintBits 0 bs).map fun n => (unzigzag n,
        { r with pos := (r.pos + ((bs.length : ℤ) % addressSpace).toNat) % addressSpace }) := by
  show ((scanBytes m lastGroup (r.data + r.pos) addressSpace).map _).bind _ = _
  cases scanBytes m lastGroup (r.data + r.pos) addressSpace with
  | none => rfl
  | some bs =>
    show ((varintBits 0 bs).map _).bind _ = (varintBits 0 bs).map _
    cases varintBits 0 bs with
    | none => rfl
    | some n => rfl

/-- Sums of places in the data do not wrap. -/
theorem pos_add_of_le {data : Bytes} (hdata : data.length < 2 ^ 63) {p n : ℕ}
    (h : p + n ≤ data.length) : (p + ((n : ℤ) % addressSpace).toNat) % addressSpace = p + n := by
  have hspace : addressSpace = 2 ^ 64 := rfl
  rw [hspace]
  omega

section Lays

variable {data : Bytes} (hdata : data.length < 2 ^ 63)

include hdata

/-- INTERNAL: a word that is read lies in the data. -/
theorem readRaw_inv {n : ℕ} (hn : 0 < n) {r r' : BinaryReader} {v : Bytes} (hr : r.data = 0)
    (hpos : r.pos < addressSpace)
    (h : (readRaw n).run (Memory.ofBytes data) r = some (v, r')) :
    (Memory.ofBytes data).HoldsAt r.pos v ∧ v.length = n ∧ r.pos + n ≤ data.length ∧
      r' = { r with pos := r.pos + n } := by
  have hspace : addressSpace = 2 ^ 64 := rfl
  rw [readRaw_run, hr, Nat.zero_add] at h
  obtain ⟨bs, hload, heq⟩ := Option.map_eq_some_iff.mp h
  obtain ⟨rfl, rfl⟩ := Prod.mk.inj heq
  have hlength := length_loadBytes hload
  have hholds := holdsAt_of_loadBytes (by omega) hpos hload
  have hinside := hholds.length_le (List.ne_nil_of_length_pos (by omega))
  rw [hlength] at hinside
  exact ⟨hholds, hlength, hinside, by rw [pos_add_of_le hdata hinside, hr]⟩

/-- INTERNAL: a varint that is read lies in the data. -/
theorem readSignedVarint_inv {r r' : BinaryReader} {v : ℤ} (hr : r.data = 0)
    (hpos : r.pos < addressSpace)
    (h : readSignedVarint.run (Memory.ofBytes data) r = some (v, r')) :
    ∃ g : Groups, g.value = v ∧ (Memory.ofBytes data).HoldsAt r.pos g.bytes ∧
      r.pos + g.bytes.length ≤ data.length ∧ r' = { r with pos := r.pos + g.bytes.length } := by
  have hspace : addressSpace = 2 ^ 64 := rfl
  rw [readSignedVarint_run, hr, Nat.zero_add] at h
  obtain ⟨bs, hscan, hvalue⟩ := Option.bind_eq_some_iff.mp h
  obtain ⟨n, hbits, heq⟩ := Option.map_eq_some_iff.mp hvalue
  obtain ⟨rfl, rfl⟩ := Prod.mk.inj heq
  obtain ⟨hholds, hends⟩ := holdsAt_of_scanBytes (by omega) hpos hscan
  have hlength := length_lt_of_varintBits hbits (endsWith_ne_nil hends)
  rw [varintBits_eq_ofGroups hlength] at hbits
  have hinside := hholds.length_le (endsWith_ne_nil hends)
  refine ⟨⟨bs, hends, by omega⟩, ?_, hholds, hinside, by rw [pos_add_of_le hdata hinside, hr]⟩
  rw [← Option.some.inj hbits, unzigzag_eq_ofZigzag]
  rfl

omit hdata

/-- `notes`: the program only adds notes, and the last one is of the place where it stops. `lays`:
on a walk on which the reader never went back, the program has taken some bytes. -/
structure Lays (data : Bytes) (x : WalkM α) (Q : ℕ → Bytes → α → Prop) : Prop where
  notes : ∀ (r : BinaryReader) (notes : List ℕ) (v : α) (r' : BinaryReader) (notes' : List ℕ),
    x.run (Memory.ofBytes data) (r, notes) = some (v, r', notes') →
    ∃ new, notes' = new ++ notes ∧ (new ++ [r.pos]).head? = some r'.pos
  lays : ∀ (r : BinaryReader) (notes new : List ℕ) (v : α) (r' : BinaryReader),
    r.data = 0 → r.pos < addressSpace →
    x.run (Memory.ofBytes data) (r, notes) = some (v, r', new ++ notes) →
    (new ++ [r.pos]).Pairwise (· ≥ ·) →
    r'.data = 0 ∧ ∃ bs, (Memory.padded data).HoldsAt r.pos bs ∧ r'.pos = r.pos + bs.length ∧
      Q r.pos bs v

/-- One operation. -/
theorem lays_op {x : ReaderM α} {Q : ℕ → Bytes → α → Prop}
    (h : ∀ r v r', r.data = 0 → r.pos < addressSpace →
      x.run (Memory.ofBytes data) r = some (v, r') → r.pos ≤ r'.pos →
      r'.data = 0 ∧ ∃ bs, (Memory.padded data).HoldsAt r.pos bs ∧ r'.pos = r.pos + bs.length ∧
        Q r.pos bs v) :
    Lays data (WalkM.op x) Q where
  notes r notes v r' notes' hrun := by
    obtain ⟨⟨w, s⟩, -, heq⟩ := Option.map_eq_some_iff.mp hrun
    obtain ⟨-, hstate⟩ := Prod.mk.inj heq
    obtain ⟨rfl, rfl⟩ := Prod.mk.inj hstate
    exact ⟨[s.pos], rfl, rfl⟩
  lays r notes new v r' hr hpos hrun hsorted := by
    obtain ⟨⟨w, s⟩, hx, heq⟩ := Option.map_eq_some_iff.mp hrun
    obtain ⟨rfl, hstate⟩ := Prod.mk.inj heq
    obtain ⟨rfl, hnotes⟩ := Prod.mk.inj hstate
    have hnew : new = [s.pos] := List.append_cancel_right (hnotes.symm.trans rfl)
    rw [hnew] at hsorted
    exact h r w s hr hpos hx
      ((List.pairwise_cons.mp hsorted).1 r.pos (List.mem_singleton_self _))

theorem holdsAt_nil {p : ℕ} (h : p < addressSpace) : m.HoldsAt p [] :=
  ⟨by rwa [List.length_nil], fun i hi => absurd hi (Nat.not_lt_zero i)⟩

theorem lays_pure {v : α} {Q : ℕ → Bytes → α → Prop} (h : ∀ p, Q p [] v) :
    Lays data (pure v) Q where
  notes r notes v' r' notes' hrun := by
    obtain ⟨-, hstate⟩ := Prod.mk.inj (Option.some.inj hrun)
    obtain ⟨rfl, rfl⟩ := Prod.mk.inj hstate
    exact ⟨[], rfl, rfl⟩
  lays r notes new v' r' hr hpos hrun _ := by
    obtain ⟨rfl, hstate⟩ := Prod.mk.inj (Option.some.inj hrun)
    obtain ⟨rfl, -⟩ := Prod.mk.inj hstate
    exact ⟨hr, [], holdsAt_nil hpos, rfl, h r.pos⟩

/-- What the second program has to show holds for whatever the first one has taken. -/
theorem Lays.bind {x : WalkM α} {f : α → WalkM β} {Q : ℕ → Bytes → α → Prop}
    {R : ℕ → Bytes → β → Prop} (hx : Lays data x Q)
    (hf : ∀ v, Lays data (f v) fun q cs w =>
      ∀ p bs, q = p + bs.length → Q p bs v → R p (bs ++ cs) w) :
    Lays data (x >>= f) R where
  notes r notes w r' notes' hrun := by
    obtain ⟨⟨v, s, mid⟩, hfirst, hsecond⟩ := Option.bind_eq_some_iff.mp hrun
    obtain ⟨new, rfl, hhead⟩ := hx.notes r notes v s mid hfirst
    obtain ⟨new', rfl, hhead'⟩ := (hf v).notes s (new ++ notes) w r' notes' hsecond
    refine ⟨new' ++ new, (List.append_assoc _ _ _).symm, ?_⟩
    cases new' with
    | nil =>
      rw [List.nil_append, List.head?_singleton] at hhead'
      rw [List.nil_append, hhead, hhead']
    | cons p new' => exact hhead'
  lays r notes total w r' hr hpos hrun hsorted := by
    obtain ⟨⟨v, s, mid⟩, hfirst, hsecond⟩ := Option.bind_eq_some_iff.mp hrun
    obtain ⟨new, rfl, hhead⟩ := hx.notes r notes v s mid hfirst
    obtain ⟨new', hnotes, -⟩ := (hf v).notes s (new ++ notes) w r' (total ++ notes) hsecond
    have htotal : total = new' ++ new := by
      rw [← List.append_assoc] at hnotes
      exact List.append_cancel_right hnotes
    rw [htotal, List.append_assoc] at hsorted
    obtain ⟨hsorted', hsorted, hcross⟩ := List.pairwise_append.mp hsorted
    obtain ⟨hs, bs, hbs, hstop, hv⟩ := hx.lays r notes new v s hr hpos hfirst hsorted
    -- the place between the two programs is one of the notes, or where the first one started
    have hmid : (new' ++ [s.pos]).Pairwise (· ≥ ·) := by
      refine List.pairwise_append.mpr ⟨hsorted', List.pairwise_singleton _ _, fun p hp q hq => ?_⟩
      rw [List.mem_singleton.mp hq]
      exact hcross p hp s.pos (List.mem_of_head? hhead)
    rw [htotal, List.append_assoc] at hsecond
    have hspos : s.pos < addressSpace := hstop ▸ hbs.inside
    obtain ⟨hr', cs, hcs, hstop', hw⟩ :=
      (hf v).lays s (new ++ notes) new' w r' hs hspos hsecond hmid
    rw [hstop] at hcs hstop' hw
    refine ⟨hr', bs ++ cs, hbs.append hcs, ?_, hw r.pos bs rfl hv⟩
    rw [hstop', List.length_append, Nat.add_assoc]

theorem Lays.imp {x : WalkM α} {Q R : ℕ → Bytes → α → Prop} (h : Lays data x Q)
    (hQR : ∀ p bs v, Q p bs v → R p bs v) : Lays data x R where
  notes := h.notes
  lays r notes new v r' hr hpos hrun hsorted := by
    obtain ⟨hr', bs, hbs, hstop, hv⟩ := h.lays r notes new v r' hr hpos hrun hsorted
    exact ⟨hr', bs, hbs, hstop, hQR _ _ _ hv⟩

theorem Lays.times {x : WalkM α} {Q : ℕ → Bytes → α → Prop} (h : Lays data x Q) (n : ℕ) :
    Lays data (MemReader.times x n) fun _ bs vs => ∃ parts : List Bytes,
      bs = parts.flatten ∧ parts.length = n ∧
        List.Forall₂ (fun part v => ∃ p, Q p part v) parts vs := by
  induction n with
  | zero => exact lays_pure fun _ => ⟨[], rfl, rfl, List.Forall₂.nil⟩
  | succ n ih =>
    refine h.bind fun v => ih.bind fun vs => lays_pure ?_
    rintro - - - - ⟨parts, rfl, hlength, hparts⟩ p bs - hv
    refine ⟨bs :: parts, ?_, ?_, List.Forall₂.cons ⟨p, hv⟩ hparts⟩
    · rw [List.append_nil, List.flatten_cons]
    · rw [List.length_cons, hlength]

/-! ## The operations of the decoder -/

theorem extends_padded (data : Bytes) : (Memory.ofBytes data).Extends (Memory.padded data) :=
  Memory.extends_of_holds (Memory.holds_padded data)

/-- The bytes from one place of the padded data to another. -/
theorem exists_holdsAt_padded (data : Bytes) {p q : ℕ} (hle : p ≤ q) (hq : q < addressSpace) :
    ∃ bs, (Memory.padded data).HoldsAt p bs ∧ q = p + bs.length := by
  refine ⟨(List.range (q - p)).map fun i => data.getD (p + i) 0, ⟨?_, ?_⟩, ?_⟩
  · rw [List.length_map, List.length_range]
    omega
  · intro i hi
    rw [List.length_map, List.length_range] at hi
    rw [List.getElem?_map, List.getElem?_range hi]
    rfl
  · rw [List.length_map, List.length_range]
    omega

theorem lays_current : Lays data (WalkM.op current) fun p bs v => bs = [] ∧ v = p := by
  refine lays_op fun r v r' hr hpos hrun _ => ?_
  obtain ⟨rfl, rfl⟩ := Prod.mk.inj (Option.some.inj hrun)
  exact ⟨hr, [], holdsAt_nil hpos, rfl, rfl, by rw [hr, Nat.zero_add]⟩

include hdata in
theorem lays_word {w : ℕ} (hw : 0 < w) :
    Lays data (WalkM.op (do let bs ← readRaw w; return intOfBe bs)) fun p bs v =>
      p + bs.length ≤ data.length ∧ ∃ _ : Fits w v, bs = beInt w v := by
  refine lays_op fun r v r' hr hpos hrun _ => ?_
  obtain ⟨⟨bs, s⟩, hraw, hrest⟩ := Option.bind_eq_some_iff.mp hrun
  obtain ⟨rfl, rfl⟩ := Prod.mk.inj (Option.some.inj hrest)
  obtain ⟨hholds, hlength, hinside, rfl⟩ := readRaw_inv hdata hw hr hpos hraw
  subst hlength
  exact ⟨hr, bs, hholds.mono (extends_padded data), rfl, hinside, fits_intOfBe bs,
    (beInt_intOfBe bs).symm⟩

include hdata in
theorem lays_varint :
    Lays data (WalkM.op readSignedVarint) fun p bs v =>
      p + bs.length ≤ data.length ∧ ∃ g : Groups, g.bytes = bs ∧ g.value = v := by
  refine lays_op fun r v r' hr hpos hrun _ => ?_
  obtain ⟨g, hvalue, hholds, hinside, rfl⟩ := readSignedVarint_inv hdata hr hpos hrun
  exact ⟨hr, g.bytes, hholds.mono (extends_padded data), rfl, hinside, g, rfl, hvalue⟩

include hdata in
/-- INTERNAL: a reader that has skipped a negative number of bytes and is not behind where it was
stands outside of the data. -/
theorem lays_skip (n : ℤ) :
    Lays data (WalkM.op (skip n)) fun p bs _ => p ≤ data.length → Fits 4 n →
      (0 ≤ n → bs.length = n.toNat) ∧ (n < 0 → data.length < p + bs.length) := by
  refine lays_op fun r v r' hr hpos hrun hle => ?_
  obtain ⟨-, rfl⟩ := Prod.mk.inj (Option.some.inj hrun)
  have hspace : addressSpace = 2 ^ 64 := rfl
  rw [hspace] at hpos
  dsimp only at hle ⊢
  have hlt : (r.pos + (n % addressSpace).toNat) % addressSpace < addressSpace :=
    Nat.mod_lt _ (by rw [hspace]; norm_num)
  obtain ⟨bs, hholds, hstop⟩ := exists_holdsAt_padded data hle hlt
  refine ⟨hr, bs, hholds, hstop, fun hinside hfits => ?_⟩
  have hbounds : -2 ^ 31 ≤ n ∧ n < 2 ^ 31 := by
    obtain ⟨hlow, hhigh⟩ := hfits
    norm_num at hlow hhigh
    omega
  rw [hspace] at hstop hle
  constructor
  · intro hn
    omega
  · intro hn
    omega

include hdata in
/-- INTERNAL: what a length skips is as long as it says. -/
theorem lays_present (n : ℤ) :
    Lays data (walkPresent n) fun p bs _ =>
      p ≤ data.length → Fits 4 n → bs.length = n.toNat := by
  unfold walkPresent
  split
  · next hn => exact (lays_skip hdata n).imp fun p bs _ h hinside hfits => (h hinside hfits).1 hn
  · refine lays_pure fun p _ _ => ?_
    rw [List.length_nil]
    omega

omit hdata in
theorem fits_value (g : Groups) : Fits 4 g.value := by
  rw [Groups.value, ofZigzag]
  exact fits_bmod 4 _

include hdata in
/-- INTERNAL: **the key of a header on a forward walk has no negative length**: what is read behind
it would lie outside of the data. -/
theorem lays_recordHeader :
    Lays data walkRecordHeader fun _ bs _ => ∃ h : HeaderLayout, h.bytes = bs := by
  refine (lays_varint hdata).bind fun hk => (lays_skip hdata hk).bind fun _ =>
    (lays_varint hdata).bind fun hv => (lays_present hdata hv).imp ?_
  rintro p content _ hcontent p₃ _ rfl ⟨hin, value, rfl, rfl⟩ p₂ key rfl hkey p₁ _ rfl
    ⟨hin₁, size, rfl, rfl⟩
  obtain ⟨hskipped, hback⟩ := hkey hin₁ (fits_value size)
  have hnonneg : 0 ≤ size.value := by
    by_contra hneg
    have hout := hback (by omega)
    omega
  refine ⟨⟨⟨size, key, hskipped hnonneg⟩, ⟨value, content, hcontent hin (fits_value value)⟩,
    hnonneg⟩, ?_⟩
  simp only [HeaderLayout.bytes, SizedBytes.bytes, List.append_assoc]

/-- Parts that are all layouts, put together. -/
theorem exists_layouts_of_parts {layout : β → Bytes} {P : β → α → Prop} {parts : List Bytes}
    {vs : List α} (h : List.Forall₂ (fun part v => ∃ y, layout y = part ∧ P y v) parts vs) :
    ∃ ys : List β, ys.length = parts.length ∧ ys.flatMap layout = parts.flatten ∧
      List.Forall₂ P ys vs := by
  induction h with
  | nil => exact ⟨[], rfl, rfl, List.Forall₂.nil⟩
  | cons hhead _ ih =>
    obtain ⟨y, rfl, hy⟩ := hhead
    obtain ⟨ys, hlength, hflat, hys⟩ := ih
    refine ⟨y :: ys, ?_, ?_, List.Forall₂.cons hy hys⟩
    · rw [List.length_cons, List.length_cons, hlength]
    · rw [List.flatMap_cons, List.flatten_cons, hflat]

include hdata in
/-- INTERNAL: **a record on a forward walk is laid out field by field.** -/
theorem lays_record (firstTimestamp : ℤ) :
    Lays data (walkRecord firstTimestamp) fun _ bs s =>
      ∃ l : RecordLayout, l.bytes = bs ∧ SpanOf l s := by
  refine lays_current.bind fun start => (lays_varint hdata).bind fun _ =>
    (lays_word hdata (by norm_num)).bind fun attributes => (lays_varint hdata).bind fun td =>
    (lays_varint hdata).bind fun _ => (lays_varint hdata).bind fun kl =>
    (lays_present hdata kl).bind fun _ => (lays_varint hdata).bind fun vl =>
    (lays_present hdata vl).bind fun _ => (lays_varint hdata).bind fun nh =>
    ((lays_recordHeader hdata).times nh.toNat).bind fun _ => lays_current.bind fun stop =>
    lays_pure ?_
  rintro - p _ - ⟨rfl, rfl⟩ p₁₁ _ hstop ⟨parts, rfl, hparts, hheaders⟩
    p₁₀ _ rfl ⟨hin₁₀, headerCount, rfl, rfl⟩ p₉ value rfl hvalue p₈ _ rfl
    ⟨hin₈, valueSize, rfl, rfl⟩ p₇ key rfl hkey p₆ _ rfl ⟨hin₆, keySize, rfl, rfl⟩
    p₅ _ rfl ⟨-, offsetDelta, rfl, -⟩ p₄ _ rfl ⟨-, timestampDelta, rfl, rfl⟩
    p₃ _ rfl ⟨-, hattributes, rfl⟩ p₂ _ rfl ⟨-, length, rfl, -⟩ p₁ _ rfl ⟨rfl, rfl⟩
  obtain ⟨headers, hcount, hflat, -⟩ := exists_layouts_of_parts (P := fun _ _ => True)
    (hheaders.imp fun part _ ⟨_, h, hh⟩ => ⟨h, hh, trivial⟩)
  let l : RecordLayout := {
    length := length
    attributes := ⟨attributes, hattributes⟩
    timestampDelta := timestampDelta
    offsetDelta := offsetDelta
    key := ⟨keySize, key, hkey hin₆ (fits_value keySize)⟩
    value := ⟨valueSize, value, hvalue hin₈ (fits_value valueSize)⟩
    headerCount := headerCount
    headers := headers
    length_headers := hcount.trans hparts }
  have hbytes : l.bytes = length.bytes ++ (beInt 1 attributes ++ (timestampDelta.bytes ++
      (offsetDelta.bytes ++ (keySize.bytes ++ (key ++ (valueSize.bytes ++ (value ++
        (headerCount.bytes ++ parts.flatten)))))))) := by
    simp only [l, RecordLayout.bytes, SizedBytes.bytes, hflat, List.append_assoc]
  have hend : stop = start + l.bytes.length := by
    rw [hbytes, hstop]
    simp only [List.length_append, List.length_nil, Nat.add_assoc, Nat.zero_add]
  refine ⟨l, ?_, ?_, hend⟩
  · rw [hbytes, List.nil_append, List.append_nil, List.append_nil]
  · dsimp only
    rw [hend, Nat.cast_add, add_sub_cancel_left]

omit hdata in
/-- INTERNAL: the magic byte, behind the three first fields. -/
theorem exists_magic_byte (baseOffset batchLength epoch : ℤ) {magic : ℤ} (h : Fits 1 magic)
    (rest : Bytes) :
    ∃ c, (beInt 8 baseOffset ++ (beInt 4 batchLength ++ (beInt 4 epoch ++
      (beInt 1 magic ++ rest))))[16]? = some c ∧ magic = intOfBe [c] := by
  obtain ⟨c, hc⟩ := List.length_eq_one_iff.mp (length_beInt 1 magic)
  refine ⟨c, ?_, ?_⟩
  · rw [hc, ← List.append_assoc, ← List.append_assoc]
    refine List.getElem?_append_right (by simp) |>.trans ?_
    simp
  · rw [← hc, intOfBe_beInt_of_fits h]

include hdata in
/-- INTERNAL: **a batch of magic 2 on a forward walk is laid out field by field.** -/
theorem lays_recordBatch :
    Lays data walkRecordBatch fun _ bs w => ∃ c, bs[16]? = some c ∧
      (c = 2 → ∃ d : BatchLayout, d.bytes = bs ∧ List.Forall₂ SpanOf d.records w.2) := by
  refine (lays_word hdata (by norm_num)).bind fun baseOffset =>
    (lays_word hdata (by norm_num)).bind fun batchLength =>
    (lays_word hdata (by norm_num)).bind fun epoch =>
    (lays_word hdata (by norm_num)).bind fun magic => ?_
  split
  · next hmagic =>
    refine lays_pure ?_
    rintro - p₄ _ - ⟨-, hfits, rfl⟩ p₃ _ - ⟨-, -, rfl⟩ p₂ _ - ⟨-, -, rfl⟩ p₁ _ - ⟨-, -, rfl⟩
    obtain ⟨c, hget, hc⟩ := exists_magic_byte baseOffset batchLength epoch hfits []
    exact ⟨c, hget, fun h => absurd (by rw [hc, h]; decide) hmagic⟩
  · next hmagic =>
    obtain rfl : magic = 2 := not_not.mp hmagic
    refine (lays_word hdata (by norm_num)).bind fun crc =>
      (lays_word hdata (by norm_num)).bind fun attributes =>
      (lays_word hdata (by norm_num)).bind fun lastOffsetDelta =>
      (lays_word hdata (by norm_num)).bind fun firstTimestamp =>
      (lays_word hdata (by norm_num)).bind fun maxTimestamp =>
      (lays_word hdata (by norm_num)).bind fun producerId =>
      (lays_word hdata (by norm_num)).bind fun producerEpoch =>
      (lays_word hdata (by norm_num)).bind fun baseSequence =>
      (lays_word hdata (by norm_num)).bind fun recordCount =>
      ((lays_record hdata firstTimestamp).times recordCount.toNat).bind fun spans => lays_pure ?_
    rintro - p₁₄ _ - ⟨parts, rfl, hparts, hspans⟩ p₁₃ _ - ⟨-, hrecordCount, rfl⟩
      p₁₂ _ - ⟨-, hbaseSequence, rfl⟩ p₁₁ _ - ⟨-, hproducerEpoch, rfl⟩ p₁₀ _ - ⟨-, hproducerId, rfl⟩
      p₉ _ - ⟨-, hmaxTimestamp, rfl⟩ p₈ _ - ⟨-, hfirstTimestamp, rfl⟩
      p₇ _ - ⟨-, hlastOffsetDelta, rfl⟩ p₆ _ - ⟨-, hattributes, rfl⟩ p₅ _ - ⟨-, hcrc, rfl⟩
      p₄ _ - ⟨-, hmagic, rfl⟩ p₃ _ - ⟨-, hepoch, rfl⟩ p₂ _ - ⟨-, hbatchLength, rfl⟩
      p₁ _ - ⟨-, hbaseOffset, rfl⟩
    obtain ⟨c, hget, -⟩ := exists_magic_byte baseOffset batchLength epoch hmagic _
    refine ⟨c, hget, fun _ => ?_⟩
    obtain ⟨records, hcount, hflat, hrecords⟩ := exists_layouts_of_parts
      (hspans.imp fun part _ ⟨_, h⟩ => h)
    refine ⟨{
      baseOffset := ⟨baseOffset, hbaseOffset⟩
      batchLength := ⟨batchLength, hbatchLength⟩
      partitionLeaderEpoch := ⟨epoch, hepoch⟩
      crc := ⟨crc, hcrc⟩
      attributes := ⟨attributes, hattributes⟩
      lastOffsetDelta := ⟨lastOffsetDelta, hlastOffsetDelta⟩
      firstTimestamp := ⟨firstTimestamp, hfirstTimestamp⟩
      maxTimestamp := ⟨maxTimestamp, hmaxTimestamp⟩
      producerId := ⟨producerId, hproducerId⟩
      producerEpoch := ⟨producerEpoch, hproducerEpoch⟩
      baseSequence := ⟨baseSequence, hbaseSequence⟩
      recordCount := ⟨recordCount, hrecordCount⟩
      records := records
      length_records := hcount.trans hparts }, ?_, hrecords⟩
    simp only [BatchLayout.bytes, hflat, List.append_assoc, List.append_nil]

end Lays

/-! ## The sums of `serialize_batch` -/

/-- INTERNAL: what a span should say is so if its record is not too long. -/
theorem SpanOf.size_iff {l : RecordLayout} {s : RecordSpan} (h : SpanOf l s) (n : ℕ) :
    s.totalSize ≤ n ∧ (s.totalSize : ℤ) = s.stop - s.data ↔
      l.bytes.length < 2 ^ 32 ∧ l.bytes.length ≤ n := by
  have hsize := h.1
  have hlt := toUInt32_lt (l.bytes.length : ℤ)
  rw [h.2]
  constructor
  · rintro ⟨hle, heq⟩
    omega
  · rintro ⟨hsmall, hle⟩
    rw [hsize, toUInt32_of_lt hsmall]
    omega

theorem sizes_iff {ls : List RecordLayout} {spans : List RecordSpan}
    (h : List.Forall₂ SpanOf ls spans) (n : ℕ) :
    (∀ s ∈ spans, s.totalSize ≤ n ∧ (s.totalSize : ℤ) = s.stop - s.data) ↔
      ∀ l ∈ ls, l.bytes.length < 2 ^ 32 ∧ l.bytes.length ≤ n := by
  induction h with
  | nil => simp
  | cons hspan _ ih => rw [List.forall_mem_cons, List.forall_mem_cons, hspan.size_iff, ih]

theorem totalSizes_eq {ls : List RecordLayout} {spans : List RecordSpan}
    (h : List.Forall₂ SpanOf ls spans) (hlt : ∀ l ∈ ls, l.bytes.length < 2 ^ 32) :
    List.Forall₂ (fun l s => s.totalSize = l.bytes.length) ls spans := by
  refine ((List.forall₂_and_left _ _).mpr ⟨hlt, h⟩).imp fun l s hls => ?_
  rw [hls.2.1, toUInt32_of_lt hls.1]

theorem lt_of_sumsFit {cap pos : ℕ} {ns : List ℕ} (h : SumsFit cap pos ns) :
    ∀ n ∈ ns, n < 2 ^ 32 := by
  induction ns generalizing pos with
  | nil => exact fun n hn => absurd hn List.not_mem_nil
  | cons n ns ih =>
    refine List.forall_mem_cons.mpr ⟨?_, ih h.2⟩
    have hsum := h.1
    omega

theorem length_bytes_pos (l : RecordLayout) : 0 < l.bytes.length := by
  have hne := List.length_pos_iff.mpr (Groups.bytes_ne_nil l.length)
  simp only [RecordLayout.bytes, List.length_append]
  omega

theorem posBehind_of_lt {s : RecordSpan} {cap pos : ℕ} (hsize : 0 < s.totalSize)
    (hlt : pos + s.totalSize < 2 ^ 32) :
    s.posBehind cap pos = if pos + s.totalSize < cap then pos + s.totalSize else pos := by
  rw [RecordSpan.posBehind, toUInt32_of_lt hlt]
  simp only [hsize, true_and]

/-- INTERNAL: **the sums of `serialize_batch` are those of the records' lengths.** -/
theorem serializesSafely_iff {cap : ℕ} {ls : List RecordLayout} {spans : List RecordSpan}
    (h : List.Forall₂ (fun l s => s.totalSize = l.bytes.length) ls spans) {pos : ℕ}
    (hpos : pos ≤ cap) :
    SerializesSafely cap pos spans ↔ SumsFit cap pos (ls.map fun l => l.bytes.length) := by
  induction h generalizing pos with
  | nil => exact iff_of_true hpos trivial
  | @cons l s ls spans hsize _ ih =>
    rw [SerializesSafely, List.map_cons, SumsFit, hsize]
    have hbehind (hlt : pos + l.bytes.length < 2 ^ 32) :
        SerializesSafely cap (s.posBehind cap pos) spans ↔ SumsFit cap
          (if pos + l.bytes.length < cap then pos + l.bytes.length else pos)
          (ls.map fun l => l.bytes.length) := by
      rw [posBehind_of_lt (by rw [hsize]; exact length_bytes_pos l) (by rw [hsize]; exact hlt),
        hsize]
      refine ih ?_
      split
      · omega
      · exact hpos
    constructor
    · rintro ⟨-, hlt, hrest⟩
      exact ⟨hlt, (hbehind hlt).mp hrest⟩
    · rintro ⟨hlt, hrest⟩
      exact ⟨hpos, hlt, (hbehind hlt).mpr hrest⟩

/-- INTERNAL: `posBehind` is the length of the buffer behind the record. -/
theorem exists_serializeRecord_load {s : RecordSpan} {r : Record} (hload : s.load m = some r)
    {cap : ℕ} {buf : Bytes} (hsum : buf.length + s.totalSize < 2 ^ 32) :
    ∃ out, serializeRecord cap buf r = some out ∧ out.length = s.posBehind cap buf.length := by
  obtain ⟨bytes, hbytes, hrecord⟩ := Option.bind_eq_some_iff.mp hload
  have hlength := length_loadBytes hbytes
  split at hrecord
  · obtain rfl := Option.some.inj hrecord
    have hsize : bytes.length = s.totalSize := hlength
    unfold serializeRecord RecordSpan.posBehind
    simp only [Record.totalSize, Record.raw, Option.isSome_some, true_and, Option.getD_some, hsize,
      toUInt32_of_lt hsum]
    split
    · next hguard =>
      rw [if_pos (by omega)]
      exact ⟨_, rfl, by rw [List.length_append, hsize]⟩
    · exact ⟨buf, rfl, rfl⟩
  · cases hrecord

/-- INTERNAL: **what is serialized safely is serialized**, into no more than the buffer. The
induction is on the records still to come. -/
theorem serializes_of_safely {cap : ℕ} {spans : List RecordSpan} {buf : Bytes}
    (h : SerializesSafely cap buf.length spans) {records : List Record}
    (hload : List.Forall₂ (fun s r => s.load m = some r) spans records) :
    ∃ out, records.foldlM (serializeRecord cap) buf = some out ∧ out.length ≤ cap := by
  induction hload generalizing buf with
  | nil => exact ⟨buf, rfl, h⟩
  | cons hr _ ih =>
    obtain ⟨-, hsum, hrest⟩ := h
    obtain ⟨mid, hmid, hlength⟩ := exists_serializeRecord_load hr hsum
    rw [← hlength] at hrest
    obtain ⟨out, hout, hle⟩ := ih hrest
    refine ⟨out, ?_, hle⟩
    rw [List.foldlM_cons, hmid]
    exact hout

/-! ## The walk of a whole span -/

section Run

variable {data : Bytes} (hdata : data.length < 2 ^ 63)

include hdata

/-- INTERNAL: a word at the front of a program. -/
theorem word_inv {w : ℕ} (hw : 0 < w) {f : ℤ → WalkM α} {r : BinaryReader} {notes : List ℕ}
    {res : α × BinaryReader × List ℕ} (hr : r.data = 0) (hpos : r.pos ≤ data.length)
    (h : (WalkM.op (do let bs ← readRaw w; return intOfBe bs) >>= f).run (Memory.ofBytes data)
      (r, notes) = some res) :
    ∃ bs, (Memory.ofBytes data).HoldsAt r.pos bs ∧ bs.length = w ∧ r.pos + w ≤ data.length ∧
      (f (intOfBe bs)).run (Memory.ofBytes data) ({ r with pos := r.pos + w },
        (r.pos + w) :: notes) = some res := by
  obtain ⟨⟨v, s, mid⟩, hword, hrest⟩ := Option.bind_eq_some_iff.mp h
  obtain ⟨⟨v', s'⟩, hread, heq⟩ := Option.map_eq_some_iff.mp hword
  obtain ⟨⟨bs, t⟩, hraw, hpure⟩ := Option.bind_eq_some_iff.mp hread
  obtain ⟨rfl, rfl⟩ := Prod.mk.inj (Option.some.inj hpure)
  have hspace : addressSpace = 2 ^ 64 := rfl
  obtain ⟨hholds, hlength, hinside, rfl⟩ := readRaw_inv hdata hw hr (by omega) hraw
  obtain ⟨rfl, hstate⟩ := Prod.mk.inj heq
  obtain ⟨rfl, rfl⟩ := Prod.mk.inj hstate
  exact ⟨bs, hholds, hlength, hinside, hrest⟩

/-- INTERNAL: the magic byte lies in the data, and behind another than 2 nothing is read. -/
theorem magic_inv {n : ℕ} {w : RecordBatch × List RecordSpan} {r' : BinaryReader}
    {positions : List ℕ}
    (hrun : walkRecordBatch.run (Memory.ofBytes data) ({ length := n }, []) =
      some (w, r', positions)) :
    ∃ c, data[16]? = some c ∧ (c ≠ 2 → w.2 = [] ∧ positions = [17, 16, 12, 8]) := by
  obtain ⟨_, -, -, hin, hrun⟩ := word_inv hdata (by norm_num) rfl (Nat.zero_le _) hrun
  obtain ⟨_, -, -, hin, hrun⟩ := word_inv hdata (by norm_num) rfl hin hrun
  obtain ⟨_, -, -, hin, hrun⟩ := word_inv hdata (by norm_num) rfl hin hrun
  obtain ⟨bs, hholds, hlength, hin, hrun⟩ := word_inv hdata (by norm_num) rfl hin hrun
  obtain ⟨c, rfl⟩ := List.length_eq_one_iff.mp hlength
  refine ⟨c, ?_, fun hc => ?_⟩
  · exact hholds.bytes 0 Nat.one_pos
  · rw [if_pos (intOfBe_singleton_ne_two hc)] at hrun
    obtain ⟨rfl, hstate⟩ := Prod.mk.inj (Option.some.inj hrun)
    obtain ⟨-, rfl⟩ := Prod.mk.inj hstate
    exact ⟨rfl, rfl⟩

omit hdata in
/-- INTERNAL: of data of another magic than 2 the first fields are walked through. -/
theorem walks_messageSet {bs cs ds : Bytes} {c : UInt8} (hbs : bs.length = 8) (hcs : cs.length = 4)
    (hds : ds.length = 4) (hc : c ≠ 2) :
    Walks m walkRecordBatch 0 (bs ++ (cs ++ (ds ++ ([c] ++ [])))) fun _ => True := by
  refine walks_op_bind (reads_word_raw hbs 0) ?_
  refine walks_op_bind (reads_word_raw hcs _) ?_
  refine walks_op_bind (reads_word_raw hds _) ?_
  refine walks_op_bind (reads_word_raw (show [c].length = 1 from rfl) _) ?_
  rw [if_pos (intOfBe_singleton_ne_two hc)]
  exact walks_pure trivial _

omit hdata in
/-- INTERNAL: with zeros behind it, data of another magic than 2 is always walked through. -/
theorem exists_walk_messageSet (hmagic : data[16]? ≠ some 2) :
    ∃ res, walkOf (Memory.padded data) data = some res := by
  have hspace : addressSpace = 2 ^ 64 := rfl
  obtain ⟨bs, hbs, hbsLength⟩ := exists_holdsAt_padded data (p := 0) (q := 8) (by omega) (by omega)
  obtain ⟨cs, hcs, hcsLength⟩ := exists_holdsAt_padded data (p := 8) (q := 12) (by omega) (by omega)
  obtain ⟨ds, hds, hdsLength⟩ :=
    exists_holdsAt_padded data (p := 12) (q := 16) (by omega) (by omega)
  have hc : (Memory.padded data).HoldsAt 16 [data.getD 16 0] :=
    Memory.HoldsAt.cons rfl (holdsAt_nil (by omega))
  have hne : data.getD 16 0 ≠ 2 := by
    rw [List.getD_eq_getElem?_getD]
    cases hget : data[16]? with
    | none => decide
    | some c =>
      rw [hget] at hmagic
      exact fun h => hmagic (congrArg some h)
  have hall : (Memory.padded data).HoldsAt 0 (bs ++ (cs ++ (ds ++ ([data.getD 16 0] ++ [])))) := by
    refine hbs.append (Memory.HoldsAt.append ?_ (Memory.HoldsAt.append ?_ ?_))
    · rwa [← hbsLength]
    · rwa [← hbsLength, ← hcsLength]
    · rwa [List.append_nil, ← hbsLength, ← hcsLength, ← hdsLength]
  obtain ⟨v, new, hrun, -⟩ := walks_messageSet (by omega) (by omega) (by omega) hne hall
    { length := data.length } [] rfl rfl
  exact ⟨_, hrun⟩

/-- INTERNAL: sane sizes have a layout. -/
theorem laidOut_of_sane {b : RecordBatch} {spans : List RecordSpan} {r : BinaryReader}
    {positions : List ℕ}
    (hrun : walkOf (Memory.ofBytes data) data = some ((b, spans), r, positions))
    (hsane : SaneSizes data spans positions) : LaidOut data := by
  obtain ⟨c, hc, -⟩ := magic_inv hdata hrun
  by_cases htwo : c = 2
  · obtain ⟨-, bs, hholds, -, c', hget, hlayout⟩ := (lays_recordBatch hdata).lays
      { length := data.length } [] positions (b, spans) r rfl
      (show 0 < addressSpace by decide) (by rw [List.append_nil]; exact hrun) hsane.forward
    have hc' : c' = c := by
      have hbyte := hholds.bytes 16 (List.getElem?_eq_some_iff.mp hget).1
      rw [hget, Memory.padded, List.getD_eq_getElem?_getD, Nat.zero_add, hc] at hbyte
      exact (Option.some.inj hbyte).symm
    obtain ⟨d, rfl, hspans⟩ := hlayout (hc'.trans htwo)
    have hlengths := (sizes_iff hspans data.length).mp hsane.sizes
    refine Or.inr ⟨d, hholds, fun l hl => (hlengths l hl).2, ?_⟩
    exact (serializesSafely_iff (totalSizes_eq hspans fun l hl => (hlengths l hl).1)
      (by decide)).mp hsane.serialized
  · refine Or.inl ?_
    rw [hc]
    exact fun h => htwo (Option.some.inj h)

/-- PROPERTY: **the sizes of decoded records make sense exactly if the records are laid out field by
field**, with varints of at most five groups, and none is longer than the span. For every span of
which the decoder reads nothing outside.
SOURCE: protocol/kafka_codec.cpp:39-68, storage/partition_log.h:237-249 -/
theorem record_sizes_sane_iff (hinside : ReadsOnly data) :
    DecodesSanely data ↔ LaidOut data := by
  have hsame := hinside _ (Memory.holds_padded data)
  constructor
  · rintro ⟨b, spans, r, positions, hrun, hsane⟩
    exact laidOut_of_sane hdata hrun hsane
  · rintro (hmagic | ⟨d, hholds, hlengths, hsums⟩)
    · obtain ⟨⟨⟨b, spans⟩, r, positions⟩, hrun⟩ := exists_walk_messageSet hmagic
      rw [hsame] at hrun
      obtain ⟨c, hc, hempty⟩ := magic_inv hdata hrun
      obtain ⟨rfl, rfl⟩ := hempty fun htwo => hmagic (by rw [hc, htwo])
      have hcap : 61 ≤ appendBufferSize := by decide
      exact ⟨b, [], r, _, hrun, by decide, by simp, hcap⟩
    · -- the walk through the layout is the walk through the data alone
      obtain ⟨w, new, hrun, hspans, hsorted, -⟩ :=
        walks_recordBatch d 0 hholds { length := data.length } [] rfl rfl
      have hsmall : ∀ l ∈ d.records, l.bytes.length < 2 ^ 32 := fun l hl =>
        lt_of_sumsFit hsums _ (List.mem_map_of_mem hl)
      refine ⟨w.1, w.2, _, _, hsame.symm.trans hrun, ?_, ?_, ?_⟩
      · rw [List.append_nil]
        exact hsorted
      · exact (sizes_iff hspans data.length).mpr fun l hl => ⟨hsmall l hl, hlengths l hl⟩
      · exact (serializesSafely_iff (totalSizes_eq hspans hsmall) (by decide)).mpr hsums

end Run

/-- A batch of one record, all other fields zero. -/
def oneRecordBatch (record : Bytes) : Bytes :=
  List.replicate 16 0 ++ [2] ++ List.replicate 40 0 ++ [0, 0, 0, 1] ++ record

theorem readsOnly_of_run {data : Bytes}
    {res : (RecordBatch × List RecordSpan) × BinaryReader × List ℕ}
    (h : walkOf (Memory.ofBytes data) data = some res) : ReadsOnly data := by
  intro m hm
  rw [h]
  exact walkRecordBatch.run_of_holds h hm

/-- A record without key, with a value of one byte and a header: its data is read alone, decoded
sanely and laid out. -/
theorem record_sizes_sane_iff_plain :
    let data := oneRecordBatch [18, 0, 0, 0, 1, 2, 65, 2, 0, 1]
    ReadsOnly data ∧ DecodesSanely data ∧ LaidOut data := by
  intro data
  obtain ⟨⟨⟨b, spans⟩, r, positions⟩, hrun, heq⟩ := Option.map_eq_some_iff.mp
    (show (walkOf (Memory.ofBytes data) data).map (fun w => (w.1.2, w.2.2)) =
      some ([{ timestamp := 0, data := 61, keyLength := 0, valueOffset := 0, valueLength := 1,
               totalSize := 10, stop := 71 }],
        [71, 71, 70, 70, 69, 68, 67, 66, 65, 64, 63, 62, 61, 61, 57, 53, 51, 43, 35, 27, 23, 21, 17,
          16, 12, 8])
      by decide +kernel)
  obtain ⟨rfl, rfl⟩ := Prod.mk.inj heq
  have hsane : DecodesSanely data :=
    ⟨b, _, r, _, hrun, by decide, by decide, by decide, by decide, show _ ≤ appendBufferSize by decide⟩
  have hinside := readsOnly_of_run hrun
  exact ⟨hinside, hsane, (record_sizes_sane_iff (by decide) hinside).mp hsane⟩

/-- A header whose key has length -20. The reader goes back from 69 to 49, into the producer id,
takes the byte 0 there for the length of the header's value, and stops at 50. The record, which
starts at 61, has the size -11. -/
theorem negative_header_key_goes_back :
    ∃ b spans r' positions,
      walkRecordBatch.run (Memory.ofBytes (oneRecordBatch [14, 0, 0, 0, 1, 1, 2, 39]))
        ({ length := 69 }, []) = some ((b, spans), r', positions) ∧
      ¬ (positions ++ [0]).Pairwise (· ≥ ·) ∧
      spans.map RecordSpan.totalSize = [2 ^ 32 - 11] ∧
      ¬ SerializesSafely appendBufferSize 61 spans ∧
      spans.map (RecordSpan.posBehind appendBufferSize 61) = [50] := by
  obtain ⟨⟨⟨b, spans⟩, r', positions⟩, hrun, heq⟩ := Option.map_eq_some_iff.mp
    (show (walkRecordBatch.run (Memory.ofBytes (oneRecordBatch [14, 0, 0, 0, 1, 1, 2, 39]))
        ({ length := 69 }, [])).map (fun w => (w.1.2, w.2.2)) =
      some ([{ timestamp := 0, data := 61, keyLength := 0, valueOffset := 0, valueLength := 0,
               totalSize := 2 ^ 32 - 11, stop := 50 }],
        [50, 50, 50, 49, 69, 68, 67, 66, 65, 64, 63, 62, 61, 61, 57, 53, 51, 43, 35, 27, 23, 21, 17,
          16, 12, 8])
      by decide +kernel)
  obtain ⟨rfl, rfl⟩ := Prod.mk.inj heq
  refine ⟨b, _, r', _, hrun, by decide, rfl, ?_, by decide⟩
  rintro ⟨-, hsum, -⟩
  exact absurd hsum (by decide)

end StrikeMQ.Analysis.RecordSizes
