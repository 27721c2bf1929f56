import StrikeMQ.Interface.RangeLayout
import StrikeMQ.Analysis.PeekReading

/-!
# The view into a log against the layout of its range

`Follows seg stop x R` says that a part `x` of the record loop does with the rest of a batch what
the relation `R` says of its bytes: it has no outcome if `R` allows none, leaves the loop if `R` has
nothing left, and stands at what is left otherwise. A round of the record loop follows
`RangeLayout.Record`, so in a range of less than `2^31` bytes the loops have an outcome exactly if
the range is showable.
-/

set_option autoImplicit false

namespace StrikeMQ.Analysis.RangeWalk

open StrikeMQ.Lib StrikeMQ.Model StrikeMQ.Model.MessagePeek StrikeMQ.Interface
open StrikeMQ.Interface.RangeLayout StrikeMQ.Analysis.PeekReading

variable {α β : Type} {seg : Bytes} {stop : ℕ}

/-! ## Putting programs together -/

theorem run_bind_of_some {x : RecordM α} {p q : ℕ} {v : α}
    (h : (x.run p).run = some (some (v, q))) (f : α → RecordM β) :
    ((x >>= f).run p).run = ((f v).run q).run := by
  rw [StateT.run_bind, OptionT.run_bind, h]
  rfl

theorem run_bind_of_break {x : RecordM α} {p : ℕ} (h : (x.run p).run = some none)
    (f : α → RecordM β) : ((x >>= f).run p).run = some none := by
  rw [StateT.run_bind, OptionT.run_bind, h]
  rfl

theorem run_bind_of_none {x : RecordM α} {p : ℕ} (h : (x.run p).run = none)
    (f : α → RecordM β) : ((x >>= f).run p).run = none := by
  rw [StateT.run_bind, OptionT.run_bind, h]
  rfl

theorem breakAt_of_lt {p : ℕ} (h : p < stop) :
    ((breakAt stop).run p).run = some (some ((), p)) := by
  simp [breakAt, Nat.not_le.mpr h]

theorem breakAt_of_le {p : ℕ} (h : stop ≤ p) : ((breakAt stop).run p).run = some none := by
  simp [breakAt, h]

/-- What the program does where the bytes `bs` are left of the batch. The outcome is told with the
bytes that are left behind it, and `R` is its graph. -/
def FollowsAt (stop : ℕ) (x : RecordM α) (bs : Bytes) (R : Option Bytes → Prop) : Prop :=
  ∃ o : Option (Option (α × Bytes)),
    (x.run (stop - bs.length)).run = o.map (Option.map fun r => (r.1, stop - r.2.length)) ∧
    (∀ r, o = some (some r) → r.2 <:+ bs) ∧
    ∀ out, R out ↔ o.map (Option.map Prod.snd) = some out

def Follows (seg : Bytes) (stop : ℕ) (x : RecordM α) (R : Bytes → Option Bytes → Prop) : Prop :=
  ∀ bs, bs <:+ seg.take stop → FollowsAt stop x bs (R bs)

theorem FollowsAt.congr {x : RecordM α} {bs : Bytes} {R S : Option Bytes → Prop}
    (h : FollowsAt stop x bs R) (hRS : ∀ out, R out ↔ S out) : FollowsAt stop x bs S := by
  obtain ⟨o, hrun, hsuffix, hout⟩ := h
  exact ⟨o, hrun, hsuffix, fun out => (hRS out).symm.trans (hout out)⟩

/-- A step that has no outcome. -/
theorem FollowsAt.of_none {x : RecordM α} {bs : Bytes} {R : Option Bytes → Prop}
    (hrun : (x.run (stop - bs.length)).run = none) (hR : ∀ out, ¬R out) :
    FollowsAt stop x bs R :=
  ⟨none, hrun, fun _ h => (by cases h), fun out => iff_of_false (hR out) (by simp)⟩

/-- A step that leaves the loop. -/
theorem FollowsAt.of_break {x : RecordM α} {bs : Bytes} {R : Option Bytes → Prop}
    (hrun : (x.run (stop - bs.length)).run = some none) (hR : ∀ out, R out ↔ out = none) :
    FollowsAt stop x bs R := by
  refine ⟨some none, hrun, fun _ h => (by cases h), fun out => (hR out).trans ?_⟩
  rw [Option.map_some, Option.some.injEq, Option.map_none]
  exact eq_comm

/-- A step to what is left behind some bytes, and the program behind it. -/
theorem FollowsAt.of_step {x y : RecordM α} {bs rest : Bytes} {R : Option Bytes → Prop}
    (hrun : (x.run (stop - bs.length)).run = (y.run (stop - rest.length)).run)
    (hsuffix : rest <:+ bs) (h : FollowsAt stop y rest R) : FollowsAt stop x bs R := by
  obtain ⟨o, hy, hleft, hout⟩ := h
  exact ⟨o, hrun.trans hy, fun r hr => (hleft r hr).trans hsuffix, hout⟩

theorem followsAt_pure (v : α) (bs : Bytes) :
    FollowsAt stop (pure v) bs fun out => out = some bs := by
  refine ⟨some (some (v, bs)), rfl, ?_, fun out => ?_⟩
  · rintro r hr
    obtain rfl := Option.some.inj (Option.some.inj hr)
    exact List.suffix_rfl
  · rw [Option.map_some, Option.map_some, Option.some.injEq]
    exact eq_comm

/-! ## Varints -/

/-- What is left of a batch stands before its end. -/
theorem holdsAt_of_suffix (hstop : stop ≤ seg.length) (hlt : stop < 2 ^ 31) {bs : Bytes}
    (h : bs <:+ seg.take stop) :
    bs.length ≤ stop ∧ (Memory.ofBytes seg).HoldsAt (stop - bs.length) bs := by
  obtain ⟨before, hbefore⟩ := h
  have hlen := congrArg List.length hbefore
  rw [List.length_append, List.length_take, Nat.min_eq_left hstop] at hlen
  have hseg : before ++ (bs ++ seg.drop stop) = seg := by
    rw [← List.append_assoc, hbefore, List.take_append_drop]
  have hspace : before.length + bs.length < addressSpace := by
    unfold addressSpace
    omega
  have hholds : (Memory.ofBytes (before ++ (bs ++ seg.drop stop))).HoldsAt before.length bs :=
    Memory.holdsAt_ofBytes hspace
  rw [hseg] at hholds
  refine ⟨by omega, ?_⟩
  rwa [show stop - bs.length = before.length by omega]

/-- INTERNAL: a varint that the end of the batch cuts short is put together from what is there. -/
theorem varintLoop_of_cut {bs : Bytes} (hmore : ∀ b ∈ bs, lastGroup b = false) {p : ℕ}
    (hbytes : (Memory.ofBytes seg).HoldsAt p bs) {shift : ℕ} (hshort : shift + 7 * bs.length < 71)
    (result : ℕ) :
    varintLoop seg bs.length shift result p =
      some (result ||| ofGroups 8 shift bs, p + bs.length) := by
  induction bs generalizing p shift result with
  | nil => rw [ofGroups, Nat.or_zero]; rfl
  | cons b bs ih =>
    obtain ⟨hb, hrest⟩ := List.forall_mem_cons.mp hmore
    rw [List.length_cons] at hshort ⊢
    have hget : seg[p]? = some b := hbytes.bytes 0 (by simp)
    have hmask : ¬(b &&& 0x80 = 0) := of_decide_eq_false hb
    have hshift : shift < 64 := by omega
    simp only [varintLoop, hget, Option.bind_eq_bind, Option.bind_some, hshift, if_true, hmask,
      if_false, ofGroups]
    rw [ih hrest hbytes.tail (by omega), Nat.or_assoc, Nat.add_assoc, Nat.add_comm 1]
    rfl

/-- INTERNAL: behind ten groups none of which is the last one, the next shift is by 70. -/
theorem varintLoop_eq_none {groups : Bytes} (hmore : ∀ b ∈ groups, lastGroup b = false) {p : ℕ}
    (hbytes : (Memory.ofBytes seg).HoldsAt p groups) {left shift : ℕ} (hleft : groups.length < left)
    (hshift : 64 ≤ shift + 7 * groups.length) (result : ℕ) :
    varintLoop seg left shift result p = none := by
  induction groups generalizing p left shift result with
  | nil =>
    obtain ⟨left, rfl⟩ := Nat.exists_eq_add_of_le' (show 1 ≤ left from hleft)
    have hnot : ¬shift < 64 := by
      rw [List.length_nil] at hshift
      omega
    rw [varintLoop]
    cases seg[p]? with
    | none => rfl
    | some b => simp only [Option.bind_eq_bind, Option.bind_some, hnot, if_false]
  | cons b groups ih =>
    obtain ⟨hb, hrest⟩ := List.forall_mem_cons.mp hmore
    rw [List.length_cons] at hleft hshift
    obtain ⟨left, rfl⟩ := Nat.exists_eq_add_of_le' (show 1 ≤ left by omega)
    have hget : seg[p]? = some b := hbytes.bytes 0 (by simp)
    have hmask : ¬(b &&& 0x80 = 0) := of_decide_eq_false hb
    simp only [varintLoop, hget, Option.bind_eq_bind, Option.bind_some, hmask, if_false]
    split
    · exact ih hrest hbytes.tail (by omega) (by omega) _
    · rfl

/-- Groups up to a last one begin with the groups before it. -/
theorem endsWith_iff {bs : Bytes} :
    EndsWith lastGroup bs ↔
      ∃ groups b, bs = groups ++ [b] ∧ (∀ c ∈ groups, lastGroup c = false) ∧ lastGroup b = true := by
  constructor
  · intro h
    induction h with
    | last hb => exact ⟨[], _, rfl, List.forall_mem_nil _, hb⟩
    | cons hc _ ih =>
      obtain ⟨groups, b, rfl, hgroups, hb⟩ := ih
      exact ⟨_ :: groups, b, rfl, List.forall_mem_cons.mpr ⟨hc, hgroups⟩, hb⟩
  · rintro ⟨groups, b, rfl, hgroups, hb⟩
    induction groups with
    | nil => exact .last hb
    | cons c groups ih =>
      obtain ⟨hc, hrest⟩ := List.forall_mem_cons.mp hgroups
      exact .cons hc (ih hrest)

/-- A list of bytes without a last group, or the groups up to the first one. -/
theorem groups_cases (bs : Bytes) :
    (∀ b ∈ bs, lastGroup b = false) ∨
      ∃ groups rest, bs = groups ++ rest ∧ EndsWith lastGroup groups := by
  induction bs with
  | nil => exact .inl (List.forall_mem_nil _)
  | cons b bs ih =>
    cases hb : lastGroup b with
    | true => exact .inr ⟨[b], bs, rfl, .last hb⟩
    | false =>
      rcases ih with hmore | ⟨groups, rest, rfl, hends⟩
      · exact .inl (List.forall_mem_cons.mpr ⟨hb, hmore⟩)
      · exact .inr ⟨b :: groups, rest, rfl, .cons hb hends⟩

theorem endsWith_append_inj {groups groups' rest rest' : Bytes} (h : EndsWith lastGroup groups)
    (h' : EndsWith lastGroup groups') (heq : groups ++ rest = groups' ++ rest') :
    groups = groups' ∧ rest = rest' := by
  induction h generalizing groups' with
  | last hb =>
    cases h' with
    | last hb' =>
      obtain ⟨rfl, rfl⟩ := List.cons.inj heq
      exact ⟨rfl, rfl⟩
    | cons hb' _ =>
      obtain ⟨rfl, -⟩ := List.cons.inj heq
      exact absurd (hb.symm.trans hb') (by simp)
  | cons hb _ ih =>
    cases h' with
    | last hb' =>
      obtain ⟨rfl, -⟩ := List.cons.inj heq
      exact absurd (hb'.symm.trans hb) (by simp)
    | cons hb' hrest =>
      obtain ⟨rfl, htail⟩ := List.cons.inj heq
      obtain ⟨rfl, rfl⟩ := ih hrest htail
      exact ⟨rfl, rfl⟩

theorem not_endsWith_of_more {groups rest : Bytes}
    (hmore : ∀ b ∈ groups ++ rest, lastGroup b = false) : ¬EndsWith lastGroup groups := by
  rw [endsWith_iff]
  rintro ⟨front, b, rfl, -, hb⟩
  have hfalse := hmore b (by simp)
  exact absurd (hb.symm.trans hfalse) (by simp)

/-- INTERNAL: an eleventh group is shifted by 70. -/
theorem readVarint_eq_none (hstop : stop ≤ seg.length) (hlt : stop < 2 ^ 31) {groups rest : Bytes}
    (hbs : groups ++ rest <:+ seg.take stop) (hmore : ∀ b ∈ groups, lastGroup b = false)
    (hten : groups.length = 10) (hrest : rest ≠ []) :
    ((readVarint seg stop).run (stop - (groups ++ rest).length)).run = none := by
  obtain ⟨hle, hbytes⟩ := holdsAt_of_suffix hstop hlt hbs
  have hpos := List.length_pos_iff.mpr hrest
  have hloop := varintLoop_eq_none hmore hbytes.left
    (show groups.length < (groups ++ rest).length by rw [List.length_append]; omega)
    (show 64 ≤ 0 + 7 * groups.length by omega) 0
  simp only [readVarint, StateT.run, Nat.sub_sub_self hle, hloop]
  rfl

theorem readVarint_eq_some (v : ℕ) {bs rest : Bytes} (hle : bs.length ≤ stop) (hsuffix : rest <:+ bs)
    (hloop : varintLoop seg bs.length 0 0 (stop - bs.length) =
      some (v, stop - bs.length + (bs.length - rest.length))) :
    ((readVarint seg stop).run (stop - bs.length)).run =
      some (some (ofZigzag 8 v, stop - rest.length)) := by
  have hrest := hsuffix.length_le
  simp only [readVarint, StateT.run, Nat.sub_sub_self hle, hloop,
    show stop - bs.length + (bs.length - rest.length) = stop - rest.length by omega]
  rfl

/-- The reader has an outcome exactly if a varint stands there, and reads to its end. -/
def ReadsVarint (seg : Bytes) (stop : ℕ) (bs : Bytes) : Prop :=
  (((readVarint seg stop).run (stop - bs.length)).run = none ∧ ∀ n rest, ¬Varint bs n rest) ∨
    ∃ n rest, ((readVarint seg stop).run (stop - bs.length)).run =
        some (some (n, stop - rest.length)) ∧ rest <:+ bs ∧
      ∀ n' rest', Varint bs n' rest' ↔ n' = n ∧ rest' = rest

section Varint

variable (hstop : stop ≤ seg.length) (hlt : stop < 2 ^ 31)

include hstop hlt

theorem readsVarint_of_more {bs : Bytes} (hbs : bs <:+ seg.take stop)
    (hmore : ∀ b ∈ bs, lastGroup b = false) : ReadsVarint seg stop bs := by
  obtain ⟨hle, hbytes⟩ := holdsAt_of_suffix hstop hlt hbs
  by_cases hten : bs.length ≤ 10
  · refine .inr ⟨_, [], readVarint_eq_some (ofGroups 8 0 bs) hle List.nil_suffix ?_,
      List.nil_suffix, fun n' rest' => ⟨?_, ?_⟩⟩
    · rw [varintLoop_of_cut hmore hbytes (by omega), Nat.zero_or, List.length_nil, Nat.sub_zero]
    · rintro (⟨hends, -⟩ | ⟨-, -⟩)
      · exact absurd hends (not_endsWith_of_more hmore)
      · exact ⟨rfl, rfl⟩
    · rintro ⟨hn, hrest⟩
      rw [hn, hrest]
      exact .cut hmore hten
  · have hsplit := List.take_append_drop 10 bs
    have hnone := readVarint_eq_none hstop hlt (hsplit.symm ▸ hbs)
      (fun b hb => hmore b (List.mem_of_mem_take hb)) (by rw [List.length_take]; omega)
      (List.ne_nil_of_length_pos (by rw [List.length_drop]; omega))
    rw [hsplit] at hnone
    refine .inl ⟨hnone, ?_⟩
    rintro n' rest' (⟨hends, -⟩ | ⟨-, hshort⟩)
    · exact not_endsWith_of_more hmore hends
    · exact hten hshort

theorem readsVarint_of_endsWith {groups rest : Bytes} (hbs : groups ++ rest <:+ seg.take stop)
    (hends : EndsWith lastGroup groups) : ReadsVarint seg stop (groups ++ rest) := by
  obtain ⟨hle, hbytes⟩ := holdsAt_of_suffix hstop hlt hbs
  by_cases hten : groups.length ≤ 10
  · refine .inr ⟨_, rest, readVarint_eq_some (ofGroups 8 0 groups) hle (List.suffix_append _ _) ?_,
      List.suffix_append _ _, fun n' rest' => ⟨?_, ?_⟩⟩
    · rw [varintLoop_of_holdsAt hends hbytes.left (by rw [List.length_append]; omega) (by omega),
        Nat.zero_or, List.length_append, Nat.add_sub_cancel]
    · generalize hall : groups ++ rest = all
      rintro (⟨hends', -⟩ | ⟨hmore, -⟩)
      · obtain ⟨rfl, rfl⟩ := endsWith_append_inj hends hends' hall
        exact ⟨rfl, rfl⟩
      · exact absurd hends (not_endsWith_of_more (hall ▸ hmore))
    · rintro ⟨hn, hrest⟩
      rw [hn, hrest]
      exact .whole hends hten
  · obtain ⟨front, b, rfl, hfront, hb⟩ := endsWith_iff.mp hends
    rw [List.length_append, List.length_singleton] at hten
    have hsplit : front.take 10 ++ (front.drop 10 ++ [b] ++ rest) = front ++ [b] ++ rest := by
      rw [← List.append_assoc, ← List.append_assoc, List.take_append_drop]
    have hnone := readVarint_eq_none hstop hlt (hsplit.symm ▸ hbs)
      (fun c hc => hfront c (List.mem_of_mem_take hc)) (by rw [List.length_take]; omega) (by simp)
    rw [hsplit] at hnone
    refine .inl ⟨hnone, fun n' rest' => ?_⟩
    generalize hall : front ++ [b] ++ rest = all
    rintro (⟨hends', hshort⟩ | ⟨hmore, -⟩)
    · obtain ⟨rfl, -⟩ := endsWith_append_inj hends hends' hall
      rw [List.length_append, List.length_singleton] at hshort
      omega
    · exact not_endsWith_of_more (hall ▸ hmore) hends

theorem readVarint_cases {bs : Bytes} (hbs : bs <:+ seg.take stop) : ReadsVarint seg stop bs := by
  rcases groups_cases bs with hmore | ⟨groups, rest, rfl, hends⟩
  · exact readsVarint_of_more hstop hlt hbs hmore
  · exact readsVarint_of_endsWith hstop hlt hbs hends

end Varint

/-! ## The parts of a record -/

section Record

variable (hlen : seg.length < 2 ^ 31) (hstop : stop ≤ seg.length)

include hlen hstop

theorem follows_varint {f : ℤ → RecordM α} {S : Bytes → Option Bytes → Prop}
    (hf : ∀ n, Follows seg stop (f n) S) :
    Follows seg stop (readVarint seg stop >>= f) fun bs out =>
      ∃ n mid, Varint bs n mid ∧ S mid out := by
  intro bs hbs
  rcases readVarint_cases hstop (by omega) hbs with ⟨hrun, hnot⟩ | ⟨n, rest, hrun, hsuffix, hgraph⟩
  · refine .of_none (run_bind_of_none hrun f) ?_
    rintro out ⟨n, mid, h, -⟩
    exact hnot n mid h
  · have hrest := hf n rest (hsuffix.trans hbs)
    refine (FollowsAt.of_step (run_bind_of_some hrun f) hsuffix hrest).congr fun out => ?_
    constructor
    · exact fun h => ⟨n, rest, (hgraph n rest).mpr ⟨rfl, rfl⟩, h⟩
    · rintro ⟨n', mid, hvarint, h⟩
      obtain ⟨-, rfl⟩ := (hgraph n' mid).mp hvarint
      exact h

/-- INTERNAL: a key or a value that ends in the batch is copied; one that is not there is passed. -/
theorem readField_of_le {n : ℤ} {rest : Bytes} (hrest : rest <:+ seg.take stop)
    (hn : n ≤ rest.length) :
    ∃ content, ((readField seg stop n).run (stop - rest.length)).run =
      some (some (content, stop - (rest.drop n.toNat).length)) := by
  obtain ⟨hle, -⟩ := holdsAt_of_suffix hstop (by omega) hrest
  simp only [readField, StateT.run, List.length_drop]
  by_cases hpos : 0 < n
  · have hlow : toUInt32 n = n.toNat := by
      unfold toUInt32
      omega
    have hplace : toUInt32 (stop - rest.length + n.toNat : ℕ) = stop - (rest.length - n.toNat) := by
      rw [toUInt32_of_lt (by omega)]
      omega
    refine ⟨slice seg (stop - rest.length) n.toNat, ?_⟩
    rw [if_pos hpos, hlow, hplace, if_pos (by omega), load, if_pos (by omega)]
    rfl
  · refine ⟨[], ?_⟩
    rw [if_neg hpos, show stop - (rest.length - n.toNat) = stop - rest.length by omega]
    rfl

/-- INTERNAL: a length that leads behind the batch ends the loop if the check notices it; else more
is copied than the range holds. -/
theorem readField_of_lt {n : ℤ} {rest : Bytes} (hrest : rest <:+ seg.take stop)
    (hn : rest.length < n) :
    ((readField seg stop n).run (stop - rest.length)).run =
      if stop < ((stop - rest.length : ℕ) + n) % 2 ^ 32 then some none else none := by
  obtain ⟨hle, -⟩ := holdsAt_of_suffix hstop (by omega) hrest
  have hplace : (toUInt32 (stop - rest.length + toUInt32 n : ℕ) : ℤ) =
      ((stop - rest.length : ℕ) + n) % 2 ^ 32 := by
    unfold toUInt32
    omega
  simp only [readField, StateT.run]
  rw [if_pos (show n > 0 by omega)]
  by_cases hnoticed : stop < ((stop - rest.length : ℕ) + n) % 2 ^ 32
  · rw [if_neg (by omega), if_pos hnoticed]
    rfl
  · rw [if_pos (by omega), if_neg hnoticed, load, if_neg (by omega)]
    rfl

omit hlen hstop in
theorem sized_iff {bs rest : Bytes} {n : ℤ}
    (hgraph : ∀ n' rest', Varint bs n' rest' ↔ n' = n ∧ rest' = rest) (out : Option Bytes) :
    Sized stop bs out ↔ (n ≤ rest.length ∧ out = some (rest.drop n.toNat)) ∨
      (rest.length < n ∧ stop < ((stop - rest.length : ℕ) + n) % 2 ^ 32 ∧ out = none) := by
  have hvarint : Varint bs n rest := (hgraph n rest).mpr ⟨rfl, rfl⟩
  constructor
  · rintro (⟨length, h⟩ | ⟨length, h⟩ | ⟨length, h, hnoticed⟩)
    · obtain ⟨rfl, rfl⟩ := (hgraph _ _).mp length
      exact .inl ⟨by omega, by rw [Int.toNat_of_nonpos h, List.drop_zero]⟩
    · obtain ⟨rfl, rfl⟩ := (hgraph _ _).mp length
      exact .inl ⟨by rw [List.length_append]; omega, by rw [Int.toNat_natCast, List.drop_left]⟩
    · obtain ⟨rfl, rfl⟩ := (hgraph _ _).mp length
      exact .inr ⟨h, hnoticed, rfl⟩
  · rintro (⟨hle, rfl⟩ | ⟨hlt, hnoticed, rfl⟩)
    · by_cases hpos : 0 < n
      · have hcontent : (rest.take n.toNat).length = n.toNat := by
          rw [List.length_take]
          omega
        have hwhole : Varint bs (rest.take n.toNat).length
            (rest.take n.toNat ++ rest.drop n.toNat) := by
          rwa [List.take_append_drop, hcontent, Int.toNat_of_nonneg hpos.le]
        exact .whole hwhole (List.ne_nil_of_length_pos (by omega))
      · have hmissing : Sized stop bs (some rest) := .missing hvarint (not_lt.mp hpos)
        rwa [Int.toNat_of_nonpos (not_lt.mp hpos), List.drop_zero]
    · exact .cut hvarint hlt hnoticed

/-- INTERNAL: a length and what it is the length of. -/
theorem follows_sized {f : Bytes → RecordM α} {S : Bytes → Option Bytes → Prop}
    (hf : ∀ content, Follows seg stop (f content) S) :
    Follows seg stop (readVarint seg stop >>= fun n => readField seg stop n >>= f) fun bs out =>
      (Sized stop bs none ∧ out = none) ∨ ∃ mid, Sized stop bs (some mid) ∧ S mid out := by
  intro bs hbs
  rcases readVarint_cases hstop (by omega) hbs with ⟨hrun, hnot⟩ | ⟨n, rest, hrun, hsuffix, hgraph⟩
  · have hno : ∀ out, ¬Sized stop bs out := by
      rintro out (⟨length, -⟩ | ⟨length, -⟩ | ⟨length, -, -⟩)
      · exact hnot _ _ length
      · exact hnot _ _ length
      · exact hnot _ _ length
    refine .of_none (run_bind_of_none hrun _) ?_
    rintro out (⟨h, -⟩ | ⟨mid, h, -⟩)
    · exact hno _ h
    · exact hno _ h
  · have hrest := hsuffix.trans hbs
    simp only [sized_iff hgraph]
    refine FollowsAt.of_step (run_bind_of_some hrun _) hsuffix ?_
    by_cases hn : n ≤ rest.length
    · obtain ⟨content, hfield⟩ := readField_of_le hlen hstop hrest hn
      have hmid := List.drop_suffix n.toNat rest
      refine (FollowsAt.of_step (run_bind_of_some hfield f) hmid
        (hf content _ (hmid.trans hrest))).congr fun out => ?_
      simp [hn, not_lt.mpr hn]
    · have hfield := readField_of_lt hlen hstop hrest (not_le.mp hn)
      by_cases hnoticed : stop < ((stop - rest.length : ℕ) + n) % 2 ^ 32
      · rw [if_pos hnoticed] at hfield
        refine .of_break (run_bind_of_break hfield f) fun out => ?_
        simp only [hn, not_le.mp hn, hnoticed, false_and, true_and, and_self, and_false,
          reduceCtorEq, exists_false, or_false, false_or]
      · rw [if_neg hnoticed] at hfield
        refine .of_none (run_bind_of_none hfield f) fun out => ?_
        simp only [hn, hnoticed, false_and, and_false, exists_false, or_self, not_false_eq_true]

/-- INTERNAL: the attributes of a record are passed if something follows them. -/
theorem follows_attributes {x : RecordM α} {S : Bytes → Option Bytes → Prop}
    (hx : Follows seg stop x S) :
    Follows seg stop (do
      breakAt stop
      modify fun rpos => toUInt32 (rpos + 1 : ℕ)
      breakAt stop
      x) fun bs out =>
      (bs.length ≤ 1 ∧ out = none) ∨
        ∃ attributes mid, bs = attributes :: mid ∧ mid ≠ [] ∧ S mid out := by
  intro bs hbs
  obtain ⟨hle, -⟩ := holdsAt_of_suffix hstop (by omega) hbs
  cases bs with
  | nil =>
    refine .of_break (run_bind_of_break (breakAt_of_le le_rfl) _) fun out => ?_
    simp
  | cons attributes mid =>
    rw [List.length_cons] at hle
    have hplace : toUInt32 (stop - (attributes :: mid).length + 1 : ℕ) = stop - mid.length := by
      rw [List.length_cons, toUInt32_of_lt (by omega)]
      omega
    have hnext : ((modify fun rpos => toUInt32 (rpos + 1 : ℕ) : RecordM Unit).run
        (stop - (attributes :: mid).length)).run = some (some ((), stop - mid.length)) := by
      rw [← hplace]
      rfl
    have hfirst : ((breakAt stop).run (stop - (attributes :: mid).length)).run = _ :=
      breakAt_of_lt (by rw [List.length_cons]; omega)
    refine FollowsAt.of_step ((run_bind_of_some hfirst _).trans (run_bind_of_some hnext _))
      (List.suffix_cons attributes mid) ?_
    by_cases hmid : mid = []
    · refine .of_break (run_bind_of_break (breakAt_of_le (by rw [hmid]; exact le_rfl)) _) fun out => ?_
      simp [hmid]
    · have hpos := List.length_pos_iff.mpr hmid
      refine (FollowsAt.of_step (run_bind_of_some (breakAt_of_lt (by omega)) _) List.suffix_rfl
        (hx mid ((List.suffix_cons attributes mid).trans hbs))).congr fun out => ?_
      simp [hmid]

omit hlen hstop in
theorem record_iff (bs : Bytes) (out : Option Bytes) :
    Record stop bs out ↔ ∃ n mid, Varint bs n mid ∧ ((mid.length ≤ 1 ∧ out = none) ∨
      ∃ attributes mid₁, mid = attributes :: mid₁ ∧ mid₁ ≠ [] ∧
        ∃ timestamp mid₂, Varint mid₁ timestamp mid₂ ∧ ∃ offset mid₃, Varint mid₂ offset mid₃ ∧
          ((Sized stop mid₃ none ∧ out = none) ∨ ∃ mid₄, Sized stop mid₃ (some mid₄) ∧
            ((Sized stop mid₄ none ∧ out = none) ∨ ∃ mid₅, Sized stop mid₄ (some mid₅) ∧
              ∃ headers rest, Varint mid₅ headers rest ∧ out = some rest))) := by
  constructor
  · rintro (⟨head⟩ | ⟨head, key⟩ | ⟨head, key, value⟩ | ⟨head, key, value, headerCount⟩)
    · obtain ⟨length, h⟩ := head
      exact ⟨_, _, length, .inl ⟨h, rfl⟩⟩
    · obtain _ | ⟨length, h, timestampDelta, offsetDelta⟩ := head
      exact ⟨_, _, length, .inr ⟨_, _, rfl, h, _, _, timestampDelta, _, _, offsetDelta,
        .inl ⟨key, rfl⟩⟩⟩
    · obtain _ | ⟨length, h, timestampDelta, offsetDelta⟩ := head
      exact ⟨_, _, length, .inr ⟨_, _, rfl, h, _, _, timestampDelta, _, _, offsetDelta,
        .inr ⟨_, key, .inl ⟨value, rfl⟩⟩⟩⟩
    · obtain _ | ⟨length, h, timestampDelta, offsetDelta⟩ := head
      exact ⟨_, _, length, .inr ⟨_, _, rfl, h, _, _, timestampDelta, _, _, offsetDelta,
        .inr ⟨_, key, .inr ⟨_, value, _, _, headerCount, rfl⟩⟩⟩⟩
  · rintro ⟨n, mid, length, ⟨h, rfl⟩ | ⟨attributes, mid₁, rfl, h, t, mid₂, timestampDelta, o, mid₃,
      offsetDelta, ⟨key, rfl⟩ | ⟨mid₄, key, ⟨value, rfl⟩ | ⟨mid₅, value, headers, rest, headerCount,
        rfl⟩⟩⟩⟩
    · exact .noHead (.cut length h)
    · exact .noKey (.whole length h timestampDelta offsetDelta) key
    · exact .noValue (.whole length h timestampDelta offsetDelta) key value
    · exact .whole (.whole length h timestampDelta offsetDelta) key value headerCount

/-- INTERNAL: **a round of the record loop follows the layout of a record**. -/
theorem follows_peekRecord (base first : ℤ) :
    Follows seg stop (peekRecord seg stop base first) (Record stop) := by
  intro bs hbs
  refine FollowsAt.congr ?_ fun out => (record_iff bs out).symm
  have hget : ((get : RecordM ℕ).run (stop - bs.length)).run =
      some (some (stop - bs.length, stop - bs.length)) := rfl
  refine FollowsAt.of_step (run_bind_of_some hget _) List.suffix_rfl ?_
  refine follows_varint hlen hstop (fun _ => ?_) bs hbs
  refine follows_attributes hlen hstop ?_
  refine follows_varint hlen hstop fun timestampDelta => ?_
  refine follows_varint hlen hstop fun offsetDelta => ?_
  refine follows_sized hlen hstop fun key => ?_
  refine follows_sized hlen hstop fun value => ?_
  exact follows_varint hlen hstop fun _ bs _ => followsAt_pure _ bs

/-! ## Records and batches -/

omit hlen hstop in
theorem records_over_iff {left room : ℕ} {bs : Bytes} (h : left = 0 ∨ room = 0 ∨ bs = [])
    (shown : ℕ) : Records stop left room bs shown ↔ shown = 0 := by
  constructor
  · rintro (_ | ⟨hne, -⟩ | ⟨hne, -, -⟩)
    · rfl
    · exact absurd h (by simp [hne])
    · exact absurd h (by simp [hne])
  · rintro rfl
    exact .over h

omit hlen hstop in
theorem records_succ_iff {left room : ℕ} {bs : Bytes} (hne : bs ≠ []) (shown : ℕ) :
    Records stop (left + 1) (room + 1) bs shown ↔ (Record stop bs none ∧ shown = 0) ∨
      ∃ rest, Record stop bs (some rest) ∧ ∃ k, Records stop left room rest k ∧ shown = k + 1 := by
  constructor
  · rintro (h | ⟨-, record⟩ | ⟨-, record, records⟩)
    · exact absurd h (by simp [hne])
    · exact .inl ⟨record, rfl⟩
    · exact .inr ⟨_, record, _, records, rfl⟩
  · rintro (⟨record, rfl⟩ | ⟨rest, record, k, records, rfl⟩)
    · exact .last hne record
    · exact .next hne record records

/-- INTERNAL: **the record loop follows the records of a batch**, and finds as many messages. -/
theorem records_iff (base first limit : ℤ) (left count : ℕ) {bs : Bytes}
    (hbs : bs <:+ seg.take stop) (shown : ℕ) :
    Records stop left (limit - count).toNat bs shown ↔
      ∃ messages, peekRecords seg stop base first limit left count (stop - bs.length) =
        some messages ∧ messages.length = shown := by
  have hempty : ∀ n : ℕ, n = 0 ↔ ∃ messages : List PeekedMessage, some [] = some messages ∧
      messages.length = n := by
    intro n
    simp [eq_comm]
  induction left generalizing count bs shown with
  | zero =>
    rw [records_over_iff (.inl rfl)]
    exact hempty shown
  | succ left ih =>
    obtain ⟨hle, -⟩ := holdsAt_of_suffix hstop (by omega) hbs
    by_cases hover : (limit - count).toNat = 0 ∨ bs = []
    · have hnot : ¬(count < limit ∧ stop - bs.length < stop) := by
        rintro ⟨hcount, hplace⟩
        rcases hover with h | rfl
        · omega
        · exact absurd hplace (by simp)
      rw [records_over_iff (.inr hover), peekRecords, if_neg hnot]
      exact hempty shown
    · obtain ⟨hroom, hne⟩ := not_or.mp hover
      have hpos := List.length_pos_iff.mpr hne
      rw [show (limit - count).toNat = (limit - (count + 1 : ℕ)).toNat + 1 by omega,
        records_succ_iff hne, peekRecords, if_pos ⟨by omega, by omega⟩]
      obtain ⟨o, hrun, hsuffix, hgraph⟩ := follows_peekRecord hlen hstop base first bs hbs
      simp only [hgraph, hrun]
      rcases o with _ | _ | ⟨message, rest⟩
      · simp
      · simpa using hempty shown
      · have hrest := ih (count + 1) ((hsuffix _ rfl).trans hbs)
        simp only [Option.map_some, Option.some.injEq, reduceCtorEq, false_and, false_or,
          exists_eq_left', Option.bind_eq_bind, Option.bind_some, hrest]
        constructor
        · rintro ⟨_, ⟨messages, hmessages, rfl⟩, rfl⟩
          exact ⟨message :: messages, by rw [hmessages]; rfl, rfl⟩
        · rintro ⟨messages, hmessages, rfl⟩
          obtain ⟨tail, htail, hcons⟩ := Option.bind_eq_some_iff.mp hmessages
          obtain rfl := Option.some.inj hcons
          exact ⟨_, ⟨tail, htail, rfl⟩, rfl⟩

end Record

section Batches

variable {limit : ℤ} (hlen : seg.length < 2 ^ 31)

theorem load_of_le {pos n : ℕ} (h : pos + n ≤ seg.length) :
    load seg pos n = some (slice seg pos n) :=
  if_pos h

theorem intOfBe_slice_four_lt (seg : Bytes) (p : ℕ) : intOfBe (slice seg p 4) < 2 ^ 31 := by
  have hfits := (fits_intOfBe (slice seg p 4)).mono (show (slice seg p 4).length ≤ 4 by simp)
  have hhi := hfits.2
  norm_num at hhi
  omega

include hlen in
/-- INTERNAL: a round of the loop over batches; sums of places in the range do not wrap. -/
theorem peekBatches_succ {scan : ℕ} (hscan : scan ≤ seg.length) (fuel count : ℕ) :
    let batchLen := intOfBe (slice seg (scan + 8) 4)
    let stop := scan + (12 + batchLen.toNat)
    peekBatches seg limit (fuel + 1) scan count =
      if scan + 12 ≤ seg.length ∧ count < limit ∧ 0 < batchLen ∧ stop ≤ seg.length then
        if stop < scan + 61 then peekBatches seg limit fuel stop count
        else do
          let messages ← peekRecords seg stop (intOfBe (slice seg scan 8))
            (intOfBe (slice seg (scan + 25) 8)) limit (intOfBe (slice seg (scan + 57) 4)).toNat
            count (scan + 61)
          let more ← peekBatches seg limit fuel stop (count + messages.length)
          return messages ++ more
      else some [] := by
  have hbatchLen := intOfBe_slice_four_lt seg (scan + 8)
  dsimp only
  rw [peekBatches, toUInt32_of_lt (by omega)]
  by_cases hmore : scan + 12 ≤ seg.length ∧ count < limit
  · rw [if_pos hmore, load_of_le (by omega), load_of_le (by omega)]
    simp only [Option.bind_eq_bind, Option.bind_some]
    generalize intOfBe (slice seg (scan + 8) 4) = batchLen at hbatchLen ⊢
    rw [toUInt32_of_lt (by omega)]
    by_cases hpos : batchLen ≤ 0
    · rw [if_pos hpos, if_neg (by omega)]
      rfl
    · rw [if_neg hpos]
      by_cases hwhole : scan + (12 + batchLen.toNat) ≤ seg.length
      · have hgo : scan + 12 ≤ seg.length ∧ count < limit ∧ 0 < batchLen ∧
            scan + (12 + batchLen.toNat) ≤ seg.length := ⟨hmore.1, hmore.2, by omega, hwhole⟩
        rw [if_pos hgo, if_neg (show ¬scan + (12 + batchLen.toNat) > seg.length by omega)]
        by_cases hshort : 12 + batchLen.toNat < 61
        · rw [if_pos hshort, if_pos (by omega)]
        · rw [if_neg hshort, if_neg (by omega), peekBatch, load_of_le (by omega),
            load_of_le (by omega), toUInt32_of_lt (by omega)]
          rfl
      · rw [if_pos (by omega), if_neg (by omega)]
        rfl
  · rw [if_neg hmore, if_neg (by omega)]

/-- A whole batch stands at the front of the bytes, and there is room for a message. -/
structure Front (room : ℕ) (bs : Bytes) (n : ℕ) : Prop where
  room : room ≠ 0
  pos : 12 < n
  whole : n ≤ bs.length
  length : (n : ℤ) = 12 + batchLength bs

theorem batches_of_not_front {scan room : ℕ} {bs : Bytes}
    (h : ¬Front room bs (12 + (batchLength bs).toNat)) : Batches scan room bs := by
  by_cases hover : bs.length < 12 ∨ room = 0
  · exact .over hover
  · refine .cut ?_
    by_contra hnot
    exact h ⟨by omega, by omega, by omega, by omega⟩

theorem Front.not_over {room n : ℕ} {bs : Bytes} (h : Front room bs n) :
    ¬(bs.length < 12 ∨ room = 0) := by
  obtain ⟨hroom, hpos, hwhole, -⟩ := h
  omega

theorem Front.not_cut {room n : ℕ} {bs : Bytes} (h : Front room bs n) :
    ¬(batchLength bs ≤ 0 ∨ bs.length < 12 + batchLength bs) := by
  obtain ⟨-, hpos, hwhole, hlength⟩ := h
  omega

/-- A batch that the bytes begin with is the one at the front. -/
theorem Front.eq_length {room n : ℕ} {batch rest : Bytes} (h : Front room (batch ++ rest) n)
    (hpos : 12 < batch.length) (hlength : batch.length = 12 + batchLength batch) :
    n = batch.length := by
  have hn := h.length
  rw [batchLength, slice_append_left _ _ _ _ (by omega)] at hn
  rw [batchLength] at hlength
  omega

theorem Front.length_take {room n : ℕ} {bs : Bytes} (h : Front room bs n) :
    (bs.take n).length = n ∧ ((bs.take n).length : ℤ) = 12 + batchLength (bs.take n) := by
  have hpos := h.pos
  have htake : (bs.take n).length = n := List.length_take_of_le h.whole
  refine ⟨htake, ?_⟩
  have hn := h.length
  conv at hn => rhs; rw [← List.take_append_drop n bs]
  rw [htake]
  rwa [batchLength, slice_append_left _ _ _ _ (by omega), ← batchLength] at hn

theorem batches_headless_iff {scan room n : ℕ} {bs : Bytes} (h : Front room bs n)
    (hshort : n < 61) : Batches scan room bs ↔ Batches (scan + n) room (bs.drop n) := by
  constructor
  · rintro (hover | hcut | ⟨hlength, hpos, -, next⟩ | ⟨hlength, hlong, -, -⟩)
    · exact absurd hover h.not_over
    · exact absurd hcut h.not_cut
    · rwa [h.eq_length hpos hlength, List.drop_left]
    · have hn := h.eq_length (by omega) hlength
      omega
  · intro next
    obtain ⟨htake, hlength⟩ := h.length_take
    have hpos := h.pos
    rw [← List.take_append_drop n bs]
    refine .headless hlength (by omega) (by omega) ?_
    rwa [htake]

theorem batches_whole_iff {scan room n : ℕ} {bs : Bytes} (h : Front room bs n)
    (hlong : 61 ≤ n) : Batches scan room bs ↔
      ∃ shown, Records (scan + n) (recordCount bs) room ((bs.take n).drop 61) shown ∧
        Batches (scan + n) (room - shown) (bs.drop n) := by
  constructor
  · rintro (hover | hcut | ⟨hlength, hpos, hshort, -⟩ | ⟨hlength, hlong', records, next⟩)
    · exact absurd hover h.not_over
    · exact absurd hcut h.not_cut
    · have hn := h.eq_length hpos hlength
      omega
    · obtain rfl := h.eq_length (by omega) hlength
      rw [List.take_left, List.drop_left, recordCount, slice_append_left _ _ _ _ (by omega)]
      exact ⟨_, records, next⟩
  · rintro ⟨shown, records, next⟩
    obtain ⟨htake, hlength⟩ := h.length_take
    have hcount : recordCount bs = recordCount (bs.take n) := by
      conv_lhs => rw [← List.take_append_drop n bs]
      rw [recordCount, slice_append_left _ _ _ _ (by omega), recordCount]
    rw [hcount] at records
    have hrecords : Records (scan + (bs.take n).length) (recordCount (bs.take n)) room
        ((bs.take n).drop 61) shown := by rwa [htake]
    rw [← List.take_append_drop n bs]
    exact .whole hlength (by omega) hrecords (by rwa [htake])

include hlen in
/-- INTERNAL: **the loop over batches has an outcome exactly if it stands before batches that can
be shown**. -/
theorem isSome_peekBatches_iff {fuel scan count : ℕ} (hscan : scan ≤ seg.length)
    (hfuel : seg.length - scan ≤ fuel) :
    (peekBatches seg limit fuel scan count).isSome ↔
      Batches scan (limit - count).toNat (seg.drop scan) := by
  have hslice : ∀ scan p n, slice (seg.drop scan) p n = slice seg (scan + p) n := by
    intro scan p n
    rw [slice, List.drop_drop]
    rfl
  induction fuel generalizing scan count with
  | zero =>
    refine iff_of_true rfl (.over (.inl ?_))
    rw [List.length_drop]
    omega
  | succ fuel ih =>
    have hbatchLen : batchLength (seg.drop scan) = intOfBe (slice seg (scan + 8) 4) := by
      rw [batchLength, hslice]
    rw [peekBatches_succ hlen hscan]
    simp only [← hbatchLen]
    generalize hn : 12 + (batchLength (seg.drop scan)).toNat = n
    by_cases hfront : Front (limit - count).toNat (seg.drop scan) n
    · obtain ⟨hroom, hpos, hwhole, hlength⟩ := id hfront
      rw [List.length_drop] at hwhole
      rw [if_pos ⟨by omega, by omega, by omega, by omega⟩]
      have hmore (shown : ℕ) : (peekBatches seg limit fuel (scan + n) (count + shown)).isSome ↔ _ :=
        ih (by omega) (by omega)
      by_cases hshort : n < 61
      · rw [if_pos (by omega), batches_headless_iff hfront hshort, List.drop_drop]
        exact hmore 0
      · have hsection : ((seg.drop scan).take n).drop 61 <:+ seg.take (scan + n) := by
          rw [List.take_drop, List.drop_drop]
          exact List.drop_suffix _ _
        have hplace : scan + n - (((seg.drop scan).take n).drop 61).length = scan + 61 := by
          rw [List.length_drop, List.length_take, List.length_drop]
          omega
        have hrecords := records_iff hlen (show scan + n ≤ seg.length by omega)
          (intOfBe (slice seg scan 8)) (intOfBe (slice seg (scan + 25) 8)) limit
          (recordCount (seg.drop scan)) count hsection
        rw [hplace, recordCount, hslice] at hrecords
        rw [if_neg (by omega), batches_whole_iff hfront (by omega), List.drop_drop]
        simp only [recordCount, hslice, hrecords, Option.bind_eq_bind]
        cases peekRecords seg (scan + n) (intOfBe (slice seg scan 8))
            (intOfBe (slice seg (scan + 25) 8)) limit (intOfBe (slice seg (scan + 57) 4)).toNat
            count (scan + 61) with
        | none => simp
        | some messages =>
          have hnext := hmore messages.length
          rw [show (limit - (count + messages.length : ℕ)).toNat =
            (limit - count).toNat - messages.length by omega] at hnext
          simp only [Option.bind_some, Option.some.injEq, exists_eq_left', ← hnext]
          cases peekBatches seg limit fuel (scan + n) (count + messages.length) with
          | none => simp
          | some more => simp
    · have hstop : ¬(scan + 12 ≤ seg.length ∧ count < limit ∧ 0 < batchLength (seg.drop scan) ∧
          scan + n ≤ seg.length) := by
        rintro ⟨hhead, hcount, hpos, hwhole⟩
        exact hfront ⟨by omega, by omega, by rw [List.length_drop]; omega, by omega⟩
      rw [if_neg hstop]
      exact iff_of_true rfl (batches_of_not_front (hn ▸ hfront))

include hlen in
/-- INTERNAL: **a view into a range of less than `2^31` bytes has an outcome exactly if the range
can be shown**. -/
theorem isSome_peek_iff :
    (peekBatches seg limit seg.length 0 0).isSome ↔ Showable seg limit := by
  have hiff : (peekBatches seg limit seg.length 0 0).isSome ↔ _ :=
    isSome_peekBatches_iff hlen (Nat.zero_le _) (Nat.sub_le _ 0)
  rwa [Nat.cast_zero, Int.sub_zero, List.drop_zero] at hiff

end Batches

end StrikeMQ.Analysis.RangeWalk
