import StrikeMQ.Lib.Varint
import StrikeMQ.Model.KafkaDecoder

/-!
# What the readers make of laid-out data

`Reads m x a bs v` says that the program `x`, started where the memory `m` holds the bytes
`bs`, takes exactly these bytes and returns `v`. The value may name addresses: a string is read
as a view of the memory. There is one fact for each operation of `BinaryReader`, on the layout
it is meant for, and one for each way of putting programs together; what a decoder does with a
message is put together from these. `ReadsIf m P x a bs v` says it of a program that has no outcome
on these bytes unless `P`.
-/

set_option autoImplicit false

namespace StrikeMQ.Analysis.WireReading

open StrikeMQ.Lib StrikeMQ.Model StrikeMQ.Model.BinaryReader

variable {α β γ : Type} {m : Memory}

def Reads (m : Memory) (x : ReaderM α) (a : ℕ) (bs : Bytes) (v : α) : Prop :=
  m.HoldsAt a bs → ∀ r : BinaryReader, r.data + r.pos = a →
    x.run m r = some (v, { r with pos := r.pos + bs.length })

/-- One run of the program, with the place where it leaves the reader. -/
theorem Reads.exists_run {x : ReaderM α} {a : ℕ} {bs : Bytes} {v : α} (h : Reads m x a bs v)
    (hbytes : m.HoldsAt a bs) {r : BinaryReader} (hr : r.data + r.pos = a) :
    ∃ r', x.run m r = some (v, r') ∧ r'.data + r'.pos = a + bs.length := by
  refine ⟨_, h hbytes r hr, ?_⟩
  rw [← hr, Nat.add_assoc]

/-! ## Putting programs together -/

theorem run_bind (x : ReaderM α) (f : α → ReaderM β) (m : Memory) (r : BinaryReader) :
    (x >>= f).run m r = (x.run m r).bind fun s => (f s.1).run m s.2 :=
  rfl

theorem Reads.pure (a : ℕ) (v : α) : Reads m (pure v) a [] v :=
  fun _ _ _ => rfl

theorem Reads.of_eq {x : ReaderM α} {a : ℕ} {bs cs : Bytes} {v : α} (h : bs = cs)
    (hx : Reads m x a cs v) : Reads m x a bs v :=
  h ▸ hx

/-- What the first program has read is known to the second one, which may hold views of it. -/
theorem Reads.bind {x : ReaderM α} {f : α → ReaderM β} {a : ℕ} {bs cs : Bytes} {v : α} {w : β}
    (hx : Reads m x a bs v) (hf : m.HoldsAt a bs → Reads m (f v) (a + bs.length) cs w) :
    Reads m (x >>= f) a (bs ++ cs) w := by
  intro hbytes r hr
  have hrun := hf hbytes.left hbytes.right { r with pos := r.pos + bs.length }
    (by rw [← hr, ← Nat.add_assoc])
  rw [run_bind, hx hbytes.left r hr, Option.bind_some, hrun, List.length_append, Nat.add_assoc]

/-- A program that reads nothing, before one that does. -/
theorem Reads.bind_nil {x : ReaderM α} {f : α → ReaderM β} {a : ℕ} {bs : Bytes} {v : α} {w : β}
    (hx : Reads m x a [] v) (hf : Reads m (f v) a bs w) : Reads m (x >>= f) a bs w := by
  rw [← List.nil_append bs]
  exact hx.bind fun _ => hf

/-- The last step of a program returns. -/
theorem Reads.bind_pure {x : ReaderM α} {f : α → β} {a : ℕ} {bs : Bytes} {v : α} {w : β}
    (hx : Reads m x a bs v) (hw : f v = w) : Reads m (x >>= fun y => Pure.pure (f y)) a bs w := by
  rw [← List.append_nil bs, ← hw]
  exact hx.bind fun _ => Reads.pure _ (f v)

/-- A field that only some versions have. -/
theorem Reads.ite {c d : Prop} [Decidable c] [Decidable d] (hcd : c ↔ d) {x y : ReaderM α}
    {a : ℕ} {bs cs : Bytes} {v : α} (hx : d → Reads m x a (bs ++ cs) v)
    (hy : ¬d → Reads m y a cs v) :
    Reads m (if c then x else y) a ((if d then bs else []) ++ cs) v := by
  by_cases hd : d
  · rw [if_pos (hcd.mpr hd), if_pos hd]
    exact hx hd
  · rw [if_neg (hcd.not.mpr hd), if_neg hd]
    exact hy hd

/-- A field that only some versions have, read and dropped. -/
theorem Reads.ite_bind {c d : Prop} [Decidable c] [Decidable d] (hcd : c ↔ d) {x : ReaderM α}
    {y : ReaderM β} {a : ℕ} {bs cs : Bytes} {v : α} {w : β} (hx : Reads m x a bs v)
    (hy : ∀ a, Reads m y a cs w) :
    Reads m (if c then x >>= fun _ => y else y) a ((if d then bs else []) ++ cs) w :=
  Reads.ite hcd (fun _ => hx.bind fun _ => hy _) fun _ => hy a

/-- A field that only some versions have, with its default in the others. -/
theorem Reads.ite_default {c d : Prop} [Decidable c] [Decidable d] (hcd : c ↔ d) {x : ReaderM α}
    {f : α → ReaderM β} {a : ℕ} {bs cs : Bytes} {u v : α} {w : β} (hx : Reads m x a bs v)
    (hf : ∀ a, Reads m (f (if d then v else u)) a cs w) :
    Reads m (if c then x >>= f else Pure.pure u >>= f) a ((if d then bs else []) ++ cs) w := by
  refine Reads.ite hcd (fun hd => ?_) fun hd => ?_
  · rw [if_pos hd] at hf
    exact hx.bind fun _ => hf _
  · rw [if_neg hd] at hf
    exact (Reads.pure a u).bind_nil (hf a)

/-- A loop over laid-out elements. -/
theorem reads_times {x : ReaderM α} {layout : β → Bytes} {ys : List β} {vs : List α}
    (h : List.Forall₂ (fun y v => ∀ a, Reads m x a (layout y) v) ys vs) (a : ℕ) :
    Reads m (MemReader.times x ys.length) a (ys.flatMap layout) vs := by
  induction h generalizing a with
  | nil => exact Reads.pure a []
  | cons hhead _ ih =>
    rw [List.flatMap_cons]
    exact (hhead a).bind fun _ => (ih _).bind_pure rfl

theorem reads_times_map {x : ReaderM α} {layout : β → Bytes} {value : β → α}
    (h : ∀ y a, Reads m x a (layout y) (value y)) (ys : List β) (a : ℕ) :
    Reads m (MemReader.times x ys.length) a (ys.flatMap layout) (ys.map value) := by
  apply reads_times
  rw [List.forall₂_map_right_iff, List.forall₂_same]
  exact fun y _ => h y

theorem exists_forall₂ {P : β → α → Prop} {ys : List β} (h : ∀ y ∈ ys, ∃ v, P y v) :
    ∃ vs, List.Forall₂ P ys vs := by
  induction ys with
  | nil => exact ⟨[], List.Forall₂.nil⟩
  | cons y ys ih =>
    obtain ⟨v, hv⟩ := h y List.mem_cons_self
    obtain ⟨vs, hvs⟩ := ih fun z hz => h z (List.mem_cons_of_mem _ hz)
    exact ⟨v :: vs, List.Forall₂.cons hv hvs⟩

/-- A loop over laid-out elements, with what is known of each result. -/
theorem exists_reads_times {x : ReaderM α} {layout : β → Bytes} {P : β → α → Prop} {ys : List β}
    (h : ∀ y ∈ ys, ∃ v, P y v ∧ ∀ a, Reads m x a (layout y) v) :
    ∃ vs, List.Forall₂ P ys vs ∧
      ∀ a, Reads m (MemReader.times x ys.length) a (ys.flatMap layout) vs := by
  obtain ⟨vs, hvs⟩ := exists_forall₂ h
  exact ⟨vs, hvs.imp fun _ _ hv => hv.1, reads_times (hvs.imp fun _ _ hv => hv.2)⟩

/-- What the results of a loop have in common with the elements they were read from. -/
theorem map_eq_of_forall₂ {f : β → γ} {g : α → γ} {ys : List β} {vs : List α}
    (h : List.Forall₂ (fun y v => g v = f y) ys vs) : vs.map g = ys.map f := by
  induction h with
  | nil => rfl
  | cons hhead _ ih => rw [List.map_cons, List.map_cons, hhead, ih]

/-! ## Programs without an outcome on some bytes -/

def ReadsIf (m : Memory) (P : Prop) (x : ReaderM α) (a : ℕ) (bs : Bytes) (v : α) : Prop :=
  (P → Reads m x a bs v) ∧
    (¬P → m.HoldsAt a bs → ∀ r : BinaryReader, r.data + r.pos = a → x.run m r = none)

section ReadsIf

variable {P : Prop} {x : ReaderM α} {f : α → ReaderM β} {a : ℕ} {bs cs : Bytes} {v : α} {w : β}

theorem Reads.readsIf (h : Reads m x a bs v) (hP : P) : ReadsIf m P x a bs v :=
  ⟨fun _ => h, fun hnot => absurd hP hnot⟩

theorem ReadsIf.of_eq (h : bs = cs) (hx : ReadsIf m P x a cs v) : ReadsIf m P x a bs v :=
  h ▸ hx

theorem Reads.bind_if (hx : Reads m x a bs v)
    (hf : m.HoldsAt a bs → ReadsIf m P (f v) (a + bs.length) cs w) :
    ReadsIf m P (x >>= f) a (bs ++ cs) w := by
  refine ⟨fun hP => hx.bind fun hbytes => (hf hbytes).1 hP, fun hnot hbytes r hr => ?_⟩
  rw [run_bind, hx hbytes.left r hr, Option.bind_some]
  exact (hf hbytes.left).2 hnot hbytes.right _ (by rw [← hr, ← Nat.add_assoc])

theorem Reads.bind_nil_if (hx : Reads m x a [] v) (hf : ReadsIf m P (f v) a bs w) :
    ReadsIf m P (x >>= f) a bs w :=
  hx.bind_if fun _ => hf

theorem ReadsIf.bind (hx : ReadsIf m P x a bs v)
    (hf : P → m.HoldsAt a bs → Reads m (f v) (a + bs.length) cs w) :
    ReadsIf m P (x >>= f) a (bs ++ cs) w := by
  refine ⟨fun hP => (hx.1 hP).bind (hf hP), fun hnot hbytes r hr => ?_⟩
  rw [run_bind, hx.2 hnot hbytes.left r hr]
  rfl

theorem ReadsIf.bind_pure {g : α → β} (hx : ReadsIf m P x a bs v) (hw : g v = w) :
    ReadsIf m P (x >>= fun y => Pure.pure (g y)) a bs w := by
  rw [← List.append_nil bs, ← hw]
  exact hx.bind fun _ _ => Reads.pure _ (g v)

/-- A field that only some versions have, read and dropped. -/
theorem ReadsIf.ite_bind {c d : Prop} [Decidable c] [Decidable d] (hcd : c ↔ d) {y : ReaderM β}
    (hx : Reads m x a bs v) (hy : ∀ a, ReadsIf m P y a cs w) :
    ReadsIf m P (if c then x >>= fun _ => y else y) a ((if d then bs else []) ++ cs) w := by
  by_cases hd : d
  · rw [if_pos (hcd.mpr hd), if_pos hd]
    exact hx.bind_if fun _ => hy _
  · rw [if_neg (hcd.not.mpr hd), if_neg hd]
    exact hy a

/-- A loop over laid-out elements ends at the first one on which its body has no outcome. -/
theorem readsIf_times {Q : γ → Prop} {layout : γ → Bytes} {ys : List γ} {vs : List α}
    (h : List.Forall₂ (fun y v => ∀ a, ReadsIf m (Q y) x a (layout y) v) ys vs) (a : ℕ) :
    ReadsIf m (∀ y ∈ ys, Q y) (MemReader.times x ys.length) a (ys.flatMap layout) vs := by
  induction h generalizing a with
  | nil => exact (Reads.pure a []).readsIf fun y hy => absurd hy List.not_mem_nil
  | @cons y v ys vs hhead _ ih =>
    rw [List.flatMap_cons, List.forall_mem_cons]
    by_cases hy : Q y
    · simp only [hy, true_and]
      exact ((hhead a).1 hy).bind_if fun _ => (ih _).bind_pure rfl
    · refine ⟨fun hall => absurd hall.1 hy, fun _ hbytes r hr => ?_⟩
      show (x >>= _).run m r = none
      rw [run_bind, (hhead a).2 hy hbytes.left r hr]
      rfl

end ReadsIf

/-! ## The reader's operations -/

theorem reads_current (a : ℕ) : Reads m current a [] a := by
  intro _ r hr
  rw [← hr]
  rfl

theorem reads_skip {a : ℕ} {bs : Bytes} {n : ℤ} (hn : n = bs.length) :
    Reads m (skip n) a bs () := by
  intro hbytes r hr
  have hlt := hbytes.inside
  have hmod : ((bs.length : ℤ) % (addressSpace : ℕ)).toNat = bs.length := by
    rw [Int.emod_eq_of_lt (by omega) (by omega), Int.toNat_natCast]
  show some ((), { r with pos := (r.pos + (n % addressSpace).toNat) % addressSpace }) = _
  rw [hn, hmod, Nat.mod_eq_of_lt (by omega)]

theorem reads_load {s : ℕ} {bs : Bytes} (hbytes : m.HoldsAt s bs) (a : ℕ) :
    Reads m (MemReader.load s bs.length) a [] bs := by
  intro _ r _
  show (loadBytes m s bs.length).map (·, r) = _
  rw [loadBytes_of_holdsAt hbytes]
  rfl

theorem reads_readRaw (a : ℕ) (bs : Bytes) : Reads m (readRaw bs.length) a bs bs := by
  intro hbytes
  refine ((reads_current a).bind_nil ?_) hbytes
  exact (reads_load hbytes a).bind_nil ((reads_skip rfl).bind_pure rfl)

theorem returns_readRaw (n : ℕ) : (readRaw n).Returns fun bs => bs.length = n := by
  refine MemReader.Returns.skip fun a => (MemReader.returns_load a n).bind fun bs hlen => ?_
  exact MemReader.Returns.skip fun _ => MemReader.returns_pure hlen

/-- Any bytes are read as a word. -/
theorem reads_word_raw {w : ℕ} {bs : Bytes} (h : bs.length = w) (a : ℕ) :
    Reads m (do let bs ← readRaw w; return intOfBe bs) a bs (intOfBe bs) := by
  subst h
  exact (reads_readRaw a bs).bind_pure rfl

theorem reads_word {w : ℕ} {v : ℤ} (h : Fits w v) (a : ℕ) :
    Reads m (do let bs ← readRaw w; return intOfBe bs) a (beInt w v) v := by
  have hraw := reads_word_raw (m := m) (length_beInt w v) a
  rwa [intOfBe_beInt_of_fits h] at hraw

theorem reads_readInt8 (v : Word 1) (a : ℕ) : Reads m readInt8 a (beInt 1 v) v :=
  reads_word v.2 a

theorem reads_readInt16 {v : ℤ} (h : Fits 2 v) (a : ℕ) : Reads m readInt16 a (beInt 2 v) v :=
  reads_word h a

theorem reads_readInt32 {v : ℤ} (h : Fits 4 v) (a : ℕ) : Reads m readInt32 a (beInt 4 v) v :=
  reads_word h a

theorem reads_readInt64 (v : Word 8) (a : ℕ) : Reads m readInt64 a (beInt 8 v) v :=
  reads_word v.2 a

theorem reads_readView (a : ℕ) (s : Bytes) : Reads m (readView s.length) a s ⟨a, s.length⟩ := by
  unfold readView
  rw [if_neg (by omega)]
  have hskip : Reads m (skip s.length) a s () := reads_skip rfl
  exact (reads_current a).bind_nil (hskip.bind_pure rfl)

theorem reads_readString (s : ShortString) (a : ℕ) :
    Reads m readString a (wireString s) ⟨a + 2, s.val.length⟩ := by
  refine (reads_readInt16 (fits_two_of_lt s.2) a).bind fun _ => ?_
  rw [length_beInt]
  exact reads_readView (a + 2) s.val

theorem reads_readBytes {s : Bytes} (h : s.length < 2 ^ 31) (a : ℕ) :
    Reads m readBytes a (wireBytes s) ⟨a + 4, s.length⟩ := by
  refine (reads_readInt32 (fits_four_of_lt h) a).bind fun _ => ?_
  rw [length_beInt]
  exact reads_readView (a + 4) s

theorem reads_copy {v : View} {s : Bytes} (hbytes : m.HoldsAt v.start s) (hsize : v.size = s.length)
    (a : ℕ) : Reads m (copy v) a [] s := by
  unfold copy
  rw [hsize]
  exact reads_load hbytes a

/-- A nullable string that is there or not: the view of a missing one is empty. -/
theorem exists_reads_nullableString (s : Option ShortString) (a : ℕ) :
    ∃ v : View, Reads m readString a (wireNullableString (s.map Subtype.val)) v ∧
      (m.HoldsAt a (wireNullableString (s.map Subtype.val)) →
        ∀ a', Reads m (copy v) a' [] ((s.map Subtype.val).getD [])) := by
  cases s with
  | none =>
    refine ⟨⟨0, 0⟩, ?_, fun _ _ _ _ _ => rfl⟩
    have hnone : Reads m (readView (-1)) (a + (beInt 2 (-1)).length) [] ⟨0, 0⟩ := Reads.pure _ _
    have h := (reads_readInt16 (v := -1) (by decide) a).bind fun _ => hnone
    rwa [List.append_nil] at h
  | some s =>
    refine ⟨⟨a + 2, s.val.length⟩, reads_readString s a, ?_⟩
    intro hbytes
    have hchars : m.HoldsAt (a + (beInt 2 (s.val.length : ℤ)).length) s.val := hbytes.right
    rw [length_beInt] at hchars
    exact reads_copy hchars rfl

theorem reads_readStdString_nullable (s : Option ShortString) (a : ℕ) :
    Reads m readStdString a (wireNullableString (s.map Subtype.val))
      ((s.map Subtype.val).getD []) := by
  obtain ⟨v, hv, hcopy⟩ := exists_reads_nullableString (m := m) s a
  rw [← List.append_nil (wireNullableString _)]
  exact hv.bind fun hbytes => hcopy hbytes _

theorem reads_readStdString (s : ShortString) (a : ℕ) :
    Reads m readStdString a (wireString s) s :=
  reads_readStdString_nullable (some s) a

theorem reads_readBytes_copy {f : Bytes → α} (s : LongBytes) (a : ℕ) :
    Reads m (do
      let v ← readBytes
      let bytes ← copy v
      return f bytes) a (wireBytes s) (f s) := by
  rw [← List.append_nil (wireBytes _)]
  refine (reads_readBytes s.2 a).bind fun hbytes => ?_
  have hdata : m.HoldsAt (a + (beInt 4 (s.val.length : ℤ)).length) s.val := hbytes.right
  rw [length_beInt] at hdata
  exact (reads_copy hdata rfl _).bind_pure rfl

/-! ## Varints -/

/-- INTERNAL: a varint of at most five groups is put together from all of them. -/
theorem varintBits_eq_ofGroups {shift : ℕ} {bs : Bytes} (h : shift + 7 * bs.length < 39) :
    varintBits shift bs = some (ofGroups 4 shift bs) := by
  induction bs generalizing shift with
  | nil => rfl
  | cons b bs ih =>
    rw [List.length_cons] at h
    simp only [varintBits, ofGroups, if_pos (show shift < 32 by omega),
      ih (show shift + 7 + 7 * bs.length < 39 by omega)]
    rfl

/-- INTERNAL: a varint with an outcome has at most five groups. -/
theorem length_lt_of_varintBits {shift n : ℕ} {bs : Bytes} (h : varintBits shift bs = some n)
    (hne : bs ≠ []) : shift + 7 * bs.length < 39 := by
  induction bs generalizing shift n with
  | nil => exact absurd rfl hne
  | cons b bs ih =>
    rw [varintBits] at h
    split at h
    · obtain ⟨high, hhigh, -⟩ := Option.bind_eq_some_iff.mp h
      rw [List.length_cons]
      by_cases hlast : bs = []
      · rw [hlast, List.length_nil]
        omega
      · have hlt := ih hhigh hlast
        omega
    · cases h

/-- INTERNAL: the groups' bits are a signed word with the sign in the lowest bit. -/
theorem unzigzag_eq_ofZigzag (n : ℕ) : unzigzag n = ofZigzag 4 n :=
  rfl

theorem reads_ofOption {α : Type} (v : α) (a : ℕ) : Reads m (MemReader.ofOption (some v)) a [] v :=
  fun _ _ _ => rfl

theorem reads_scan {a : ℕ} {bs : Bytes} (hbs : EndsWith lastGroup bs) (hbytes : m.HoldsAt a bs) :
    Reads m (MemReader.scan (fun b => b &&& 0x80 = 0) a) a [] bs := by
  intro _ r _
  show (scanBytes m lastGroup a addressSpace).map (·, r) = _
  rw [scanBytes_of_holdsAt hbs hbytes (by have := hbytes.inside; omega)]
  rfl

/-- INTERNAL: a varint of at most five groups is read to its last group. -/
theorem reads_varint_bytes {bs : Bytes} (hbs : EndsWith lastGroup bs) (hshort : bs.length ≤ 5)
    (a : ℕ) : Reads m readSignedVarint a bs (ofZigzag 4 (ofGroups 4 0 bs)) := by
  intro hbytes
  have hbits := reads_ofOption (m := m) (ofGroups 4 0 bs) (a + bs.length)
  rw [← varintBits_eq_ofGroups (by omega)] at hbits
  refine ((reads_current a).bind_nil ?_) hbytes
  refine (reads_scan hbs hbytes).bind_nil (Reads.of_eq (List.append_nil bs).symm ?_)
  exact (reads_skip rfl).bind fun _ => hbits.bind_pure (unzigzag_eq_ofZigzag _)

/-- INTERNAL: a varint has an outcome if it has at most five groups. -/
theorem readsIf_varint {bs : Bytes} (hbs : EndsWith lastGroup bs) (a : ℕ) :
    ReadsIf m (bs.length ≤ 5) readSignedVarint a bs (ofZigzag 4 (ofGroups 4 0 bs)) := by
  refine ⟨fun hshort => reads_varint_bytes hbs hshort a, fun hlong hbytes r hr => ?_⟩
  have hnone : varintBits 0 bs = none := by
    cases hbits : varintBits 0 bs with
    | none => rfl
    | some n =>
      have hlt := length_lt_of_varintBits hbits (endsWith_ne_nil hbs)
      omega
  have hhere : m.HoldsAt a ([] ++ bs) := hbytes
  have hscan := reads_scan hbs hbytes hhere.left r hr
  subst hr
  rw [readSignedVarint, run_bind]
  show ((MemReader.scan _ (r.data + r.pos) >>= _).run m r) = none
  rw [run_bind, hscan, Option.bind_some, run_bind, hnone]
  rfl

theorem reads_varint {v : ℤ} (h : Fits 4 v) (a : ℕ) : Reads m readSignedVarint a (varint v) v := by
  have hbits : ofGroups 4 0 (varint v) = zigzag v := by
    have hlt := zigzag_lt_of_fits h
    rw [varint, ofGroups_uvarint (by norm_num) (by omega) (by omega), pow_zero, Nat.mul_one]
  have hread := reads_varint_bytes (m := m) (endsWith_varint h) (length_uvarint_le 5 _) a
  rwa [hbits, ofZigzag_zigzag h] at hread

end StrikeMQ.Analysis.WireReading
