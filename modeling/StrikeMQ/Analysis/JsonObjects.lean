import StrikeMQ.Analysis.JsonFields

/-!
# Objects that the reader finds

The reader takes for an object whatever stands between an opening brace and the one that brings
the count of open braces back to zero, also where the braces are inside strings. A reader that
has run past a message without returning it has fewer messages left in the text than it still
has to return, and this stays so: an object that ends before the next message begins has started
inside a string, and the field which that string belongs to is not found in it.
-/

set_option autoImplicit false

namespace StrikeMQ.Analysis.JsonObjects

open StrikeMQ.Lib StrikeMQ.Model StrikeMQ.Interface
open StrikeMQ.Analysis.JsonStrings StrikeMQ.Analysis.JsonFields

/-! ## Objects -/

/-- INTERNAL: the scan stops at the brace that closes the object. -/
theorem closingBrace_of_closes {d : ℕ} {inner : Bytes} (hopen : StaysOpen brace d inner)
    (hend : d + net brace inner = 1) (post : Bytes) :
    closingBrace d (inner ++ 0x7d :: post) = some inner.length := by
  induction inner generalizing d with
  | nil =>
    rw [net_nil, Int.add_zero] at hend
    have hd : d = 1 := by omega
    simp [closingBrace, hd]
  | cons c inner ih =>
    obtain ⟨hpos, hrest⟩ := staysOpen_cons.mp hopen
    have hpos' := hrest.pos
    rw [net_cons] at hend
    rw [List.cons_append, closingBrace, List.length_cons]
    by_cases hc : c = 0x7b
    · rw [if_pos hc]
      rw [hc] at hrest hend
      have hone : brace 0x7b = 1 := rfl
      rw [hone] at hrest hend
      have hclose := ih (d := d + 1) (by push_cast; exact hrest) (by push_cast; omega)
      rw [hclose, Option.map_some]
    rw [if_neg hc]
    by_cases hc' : c = 0x7d
    · rw [hc'] at hrest hend hpos'
      have hminus : brace 0x7d = -1 := rfl
      rw [hminus] at hrest hend hpos'
      have hd : ((d - 1 : ℕ) : ℤ) = d + -1 := by omega
      have hclose := ih (d := d - 1) (by rw [hd]; exact hrest) (by rw [hd]; omega)
      rw [if_pos hc', if_neg (by omega), hclose, Option.map_some]
    · have hzero : brace c = 0 := by rw [brace, if_neg hc, if_neg hc']
      rw [hzero, Int.add_zero] at hrest
      rw [hzero, Int.zero_add] at hend
      rw [if_neg hc', ih hrest hend, Option.map_some]

/-- INTERNAL: an object that stays open has no closing brace. -/
theorem closingBrace_of_open {d : ℕ} {text : Bytes} (hopen : StaysOpen brace d text) :
    closingBrace d text = none := by
  induction text generalizing d with
  | nil => rfl
  | cons c text ih =>
    obtain ⟨hpos, hrest⟩ := staysOpen_cons.mp hopen
    have hpos' := hrest.pos
    rw [closingBrace]
    by_cases hc : c = 0x7b
    · rw [hc] at hrest
      have hone : brace 0x7b = 1 := rfl
      rw [hone] at hrest
      rw [if_pos hc, ih (d := d + 1) (by push_cast; exact hrest), Option.map_none]
    rw [if_neg hc]
    by_cases hc' : c = 0x7d
    · rw [hc'] at hrest hpos'
      have hminus : brace 0x7d = -1 := rfl
      rw [hminus] at hrest hpos'
      have hd : ((d - 1 : ℕ) : ℤ) = d + -1 := by omega
      rw [if_pos hc', if_neg (by omega), ih (d := d - 1) (by rw [hd]; exact hrest),
        Option.map_none]
    · have hzero : brace c = 0 := by rw [brace, if_neg hc, if_neg hc']
      rw [hzero, Int.add_zero] at hrest
      rw [if_neg hc', ih hrest, Option.map_none]

/-- INTERNAL: the only byte that brings the count of open braces down to zero is a closing
brace. -/
theorem exists_closes {text : Bytes} (h : ¬StaysOpen brace 1 text) :
    ∃ inner rest, text = inner ++ 0x7d :: rest ∧ StaysOpen brace 1 inner ∧ net brace inner = 0 := by
  obtain ⟨inner, c, rest, rfl, hopen, hclose⟩ := exists_first_close (by decide) h
  have hpos := hopen.pos_add
  have hc : c = 0x7d := by
    by_contra hne
    have hnonneg : 0 ≤ brace c := by
      rw [brace, if_neg hne]
      split <;> decide
    omega
  have hminus : brace 0x7d = -1 := rfl
  rw [hc, hminus] at hclose
  exact ⟨inner, rest, by rw [hc], hopen, by omega⟩

/-- What is read from the text of an object. -/
def readObject (inner : Bytes) : Bytes × Bytes :=
  (jsonExtractString (0x7b :: (inner ++ [0x7d])) (ascii "key"),
    jsonExtractString (0x7b :: (inner ++ [0x7d])) (ascii "value"))

/-- INTERNAL: an object that closes is read, and then what stands behind it. -/
theorem jsonObjects_of_closes {pre inner : Bytes} (hpre : 0x7b ∉ pre)
    (hopen : StaysOpen brace 1 inner) (hend : net brace inner = 0) (post : Bytes) (fuel : ℕ) :
    jsonObjects (fuel + 1) (pre ++ 0x7b :: (inner ++ 0x7d :: post)) =
      readObject inner :: jsonObjects fuel post := by
  have hfind : findSub [0x7b] (pre ++ 0x7b :: (inner ++ 0x7d :: post)) = some pre.length := by
    rw [findSub_append_of_not_mem hpre, findSub_of_isPrefix (by simp), Option.map_some,
      Nat.add_zero]
  have hdrop : (pre ++ 0x7b :: (inner ++ 0x7d :: post)).drop (pre.length + 1) =
      inner ++ 0x7d :: post := by
    rw [← List.drop_drop, List.drop_left]
    rfl
  have hclose : closingBrace 1 (inner ++ 0x7d :: post) = some inner.length :=
    closingBrace_of_closes (by simpa using hopen) (by simpa using hend) post
  have hobj : slice (pre ++ 0x7b :: (inner ++ 0x7d :: post)) pre.length (inner.length + 2) =
      0x7b :: (inner ++ [0x7d]) := by
    have hsplit : 0x7b :: (inner ++ 0x7d :: post) = (0x7b :: (inner ++ [0x7d])) ++ post := by simp
    rw [slice, List.drop_left, hsplit, List.take_left' (by simp)]
  have hpost : (pre ++ 0x7b :: (inner ++ 0x7d :: post)).drop (pre.length + inner.length + 2) =
      post := by
    have hsplit : pre ++ 0x7b :: (inner ++ 0x7d :: post) =
        (pre ++ 0x7b :: (inner ++ [0x7d])) ++ post := by simp
    rw [hsplit, List.drop_left' (by simp; omega)]
  simp only [jsonObjects, hfind, hdrop, hclose, hobj, hpost, readObject]

theorem jsonObjects_of_not_mem {text : Bytes} (h : 0x7b ∉ text) (fuel : ℕ) :
    jsonObjects fuel text = [] := by
  cases fuel with
  | zero => rfl
  | succ fuel => simp only [jsonObjects, findSub_eq_none_of_not_mem h]

/-- INTERNAL: an object that is never closed is not read. -/
theorem jsonObjects_of_open {pre text : Bytes} (hpre : 0x7b ∉ pre)
    (hopen : StaysOpen brace 1 text) (fuel : ℕ) :
    jsonObjects fuel (pre ++ 0x7b :: text) = [] := by
  cases fuel with
  | zero => rfl
  | succ fuel =>
    have hfind : findSub [0x7b] (pre ++ 0x7b :: text) = some pre.length := by
      rw [findSub_append_of_not_mem hpre, findSub_of_isPrefix (by simp), Option.map_some,
        Nat.add_zero]
    have hdrop : (pre ++ 0x7b :: text).drop (pre.length + 1) = text := by
      rw [← List.drop_drop, List.drop_left]
      rfl
    have hclose : closingBrace 1 text = none := closingBrace_of_open (by simpa using hopen)
    simp only [jsonObjects, hfind, hdrop, hclose]

/-- INTERNAL: **the first message that is read comes from the text between the first opening
brace and the brace that closes it**, and the others from what follows. -/
theorem exists_object {fuel : ℕ} {text : Bytes} {x : Bytes × Bytes} {xs : List (Bytes × Bytes)}
    (h : jsonObjects fuel text = x :: xs) :
    ∃ fuel' pre inner post, fuel = fuel' + 1 ∧ text = pre ++ 0x7b :: (inner ++ 0x7d :: post) ∧
      0x7b ∉ pre ∧ StaysOpen brace 1 inner ∧ net brace inner = 0 ∧ x = readObject inner ∧
      xs = jsonObjects fuel' post := by
  cases fuel with
  | zero => cases h
  | succ fuel =>
    by_cases hmem : 0x7b ∈ text
    · obtain ⟨pre, rest, hsplit, hpre⟩ := List.eq_append_cons_of_mem hmem
      by_cases hopen : StaysOpen brace 1 rest
      · rw [hsplit, jsonObjects_of_open hpre hopen] at h
        cases h
      · obtain ⟨inner, post, rfl, hinner, hnet⟩ := exists_closes hopen
        rw [hsplit, jsonObjects_of_closes hpre hinner hnet, List.cons.injEq] at h
        exact ⟨fuel, pre, inner, post, rfl, hsplit, hpre, hinner, hnet, h.1.symm, h.2.symm⟩
    · rw [jsonObjects_of_not_mem hmem] at h
      cases h

/-! ## Objects that start inside a string -/

theorem open_not_mem_of_brace {text : Bytes} (h : ∀ c ∈ text, brace c = 0) : 0x7b ∉ text :=
  fun hmem => absurd (h _ hmem) (by decide)

/-- INTERNAL: a byte that a front part does not have stands behind it. -/
theorem exists_of_not_mem {c : UInt8} {front pre post rest : Bytes} (hc : c ∉ front)
    (h : pre ++ c :: post = front ++ rest) :
    ∃ pre', pre = front ++ pre' ∧ pre' ++ c :: post = rest := by
  rcases List.append_eq_append_iff.mp h with ⟨mid, hfront, hmid⟩ | ⟨mid, hpre, hrest⟩
  · cases mid with
    | nil => exact ⟨[], by simpa using hfront.symm, hmid⟩
    | cons x mid =>
      obtain ⟨rfl, -⟩ := List.cons.inj hmid
      rw [hfront] at hc
      exact absurd (List.mem_append_right _ List.mem_cons_self) hc
  · exact ⟨mid, hpre, hrest.symm⟩

/-- INTERNAL: an opening brace in an escaped string is one of the string. -/
theorem exists_of_escaped {s pre post rest : Bytes} (h : pre ++ 0x7b :: post = escaped s ++ rest) :
    (∃ s₁ s₂, s = s₁ ++ 0x7b :: s₂ ∧ post = escaped s₂ ++ rest) ∨
      ∃ pre', pre' ++ 0x7b :: post = rest := by
  induction s generalizing pre with
  | nil => exact Or.inr ⟨pre, h⟩
  | cons c s ih =>
    rw [escaped_cons, List.append_assoc] at h
    by_cases hmem : 0x7b ∈ JsonWriter.escape c
    · have hesc : JsonWriter.escape c = [c] := (escape_brace c).resolve_right fun hzero =>
        absurd (hzero.2 _ hmem) (by decide)
      rw [hesc, List.mem_singleton] at hmem
      rw [hesc, List.singleton_append] at h
      cases pre with
      | nil => exact Or.inl ⟨[], s, by rw [List.nil_append, hmem], (List.cons.inj h).2⟩
      | cons x pre =>
        rcases ih (List.cons.inj h).2 with ⟨s₁, s₂, rfl, hpost⟩ | hrest
        · exact Or.inl ⟨c :: s₁, s₂, rfl, hpost⟩
        · exact Or.inr hrest
    · obtain ⟨pre', -, hrest⟩ := exists_of_not_mem hmem h
      rcases ih hrest with ⟨s₁, s₂, rfl, hpost⟩ | hbehind
      · exact Or.inl ⟨c :: s₁, s₂, rfl, hpost⟩
      · exact Or.inr hbehind

section Document

variable (s t : JsonSpace)

/-- What stands behind the messages. -/
def closing : Bytes :=
  0x5d :: (s.text ++ 0x7d :: t.text)

theorem open_not_mem_closing : 0x7b ∉ closing s t := by
  simp only [closing, List.mem_cons, List.mem_append, open_not_mem_space, or_false, false_or]
  decide

theorem quote_not_mem_closing : 0x22 ∉ closing s t := by
  simp only [closing, List.mem_cons, List.mem_append, quote_not_mem_space, or_false, false_or]
  decide

variable {s t} {m : MessageText}

theorem open_not_mem_ending (m : MessageText) : 0x7b ∉ ending m := by
  simp only [ending, List.mem_cons, List.mem_append, open_not_mem_space, or_false, false_or]
  decide

/-- INTERNAL: the opening braces behind the one of a message are those of its strings. -/
theorem exists_of_body {pre post : Bytes} (h : pre ++ 0x7b :: post = m.body ++ closing s t) :
    (∃ k₁ k₂, m.key = k₁ ++ 0x7b :: k₂ ∧ post = escaped k₂ ++
      0x22 :: valueField m (escaped m.value ++ 0x22 :: (ending m ++ closing s t))) ∨
    ∃ v₁ v₂, m.value = v₁ ++ 0x7b :: v₂ ∧
      post = escaped v₂ ++ 0x22 :: (ending m ++ closing s t) := by
  rw [body_eq, keyField_eq, List.append_assoc] at h
  obtain ⟨pre₁, -, h₁⟩ := exists_of_not_mem (open_not_mem_of_brace (brace_keyField m)) h
  rw [List.append_assoc] at h₁
  rcases exists_of_escaped h₁ with ⟨k₁, k₂, hkey, hpost⟩ | ⟨pre₂, h₂⟩
  · refine Or.inl ⟨k₁, k₂, hkey, ?_⟩
    rw [hpost, List.cons_append, ← valueField_append, List.append_assoc]
    rfl
  · rw [valueField_eq, List.append_assoc] at h₂
    obtain ⟨pre₃, -, h₃⟩ := exists_of_not_mem (open_not_mem_of_brace (brace_valueField m)) h₂
    rw [List.append_assoc] at h₃
    rcases exists_of_escaped h₃ with ⟨v₁, v₂, hvalue, hpost⟩ | ⟨pre₄, h₄⟩
    · exact Or.inr ⟨v₁, v₂, hvalue, hpost⟩
    · have hmem : 0x7b ∈ (0x22 :: ending m) ++ closing s t := by
        rw [← h₄]
        exact List.mem_append_right _ List.mem_cons_self
      rw [List.mem_append, List.mem_cons] at hmem
      rcases hmem with (hmem | hmem) | hmem
      · exact absurd hmem (by decide)
      · exact absurd hmem (open_not_mem_ending m)
      · exact absurd hmem (open_not_mem_closing s t)

theorem behind_ending {name : Bytes} {x : UInt8} (hx : name.head? = some x)
    (hspace : x ∉ [(0x20 : UInt8), 0x09, 0x0a, 0x0d, 0x7d]) :
    behind name (0x22 :: (ending m ++ closing s t)) = none := by
  have hnone : 0x22 ∉ m.afterObject.text ++ closing s t := by
    rw [List.mem_append]
    exact not_or.mpr ⟨quote_not_mem_space _, quote_not_mem_closing s t⟩
  simp only [List.mem_cons, List.not_mem_nil, or_false, not_or] at hspace
  rw [ending, List.append_assoc, List.cons_append,
    behind_quote_space hx (by simp [hspace]) _ (Ne.symm hspace.2.2.2.2) (by decide),
    behind_eq_none hnone]

/-- INTERNAL: **an object that starts inside a string of a message and ends before the next
message begins is not read as that message.** -/
theorem readObject_ne {pre inner post : Bytes}
    (h : pre ++ 0x7b :: (inner ++ 0x7d :: post) = m.body ++ closing s t) :
    readObject inner ≠ (m.key, m.value) := by
  have hsplit : ∀ rest, inner ++ 0x7d :: post = rest →
      (0x7b :: (inner ++ [0x7d])) ++ post = 0x7b :: rest := by
    rintro rest rfl
    simp
  intro hread
  obtain ⟨hkey, hvalue⟩ := Prod.mk.inj hread
  rcases exists_of_body h with ⟨k₁, k₂, hk, hpost⟩ | ⟨v₁, v₂, hv, hpost⟩
  · -- the name of the key stands in front of its string
    have hnone := jsonExtractString_front (ascii "key") (0x7b :: (inner ++ [0x7d])) post (by
        intro rest hrest
        rw [hsplit _ hpost, ← List.singleton_append, behind_append_of_not_mem (by decide),
          behind_escaped plain_key, behind_key_valueField, behind_string plain_key,
          behind_ending rfl (by decide)] at hrest
        split at hrest
        · rw [← Option.some.inj hrest, valueField]
          exact noField_space_cons _ (by decide) (by decide) (by decide) _
        · split at hrest
          · rw [← Option.some.inj hrest, ending, List.append_assoc, List.cons_append]
            exact noField_space_cons _ (by decide) (by decide) (by decide) _
          · cases hrest)
    rw [hkey, hk] at hnone
    simp at hnone
  · have hnone := jsonExtractString_front (ascii "value") (0x7b :: (inner ++ [0x7d])) post (by
        intro rest hrest
        rw [hsplit _ hpost, ← List.singleton_append, behind_append_of_not_mem (by decide),
          behind_escaped plain_value, behind_ending rfl (by decide)] at hrest
        split at hrest
        · rw [← Option.some.inj hrest, ending, List.append_assoc, List.cons_append]
          exact noField_space_cons _ (by decide) (by decide) (by decide) _
        · cases hrest)
    rw [hvalue, hv] at hnone
    simp at hnone

/-! ## Falling behind -/

/-- A message behind another one. -/
def unit (m : MessageText) : Bytes :=
  0x2c :: (m.beforeObject.text ++ 0x7b :: m.body)

variable (s t) in
/-- What follows a message. -/
def tail (ms : List MessageText) : Bytes :=
  ms.flatMap unit ++ closing s t

theorem tail_cons (m : MessageText) (ms : List MessageText) :
    tail s t (m :: ms) = (0x2c :: m.beforeObject.text) ++ 0x7b :: (m.body ++ tail s t ms) := by
  simp only [tail, unit, List.flatMap_cons, List.append_assoc, List.cons_append]

def pair (m : MessageText) : Bytes × Bytes :=
  (m.key, m.value)

/-- INTERNAL: a suffix of two parts. -/
theorem suffix_append_cases {l xs ys : Bytes} (h : l <:+ xs ++ ys) :
    l <:+ ys ∨ ∃ x r, x :: r <:+ xs ∧ l = x :: (r ++ ys) := by
  obtain ⟨front, hfront⟩ := h
  rcases List.append_eq_append_iff.mp hfront with ⟨mid, rfl, rfl⟩ | ⟨mid, rfl, rfl⟩
  · cases mid with
    | nil => exact Or.inl List.suffix_rfl
    | cons x r => exact Or.inr ⟨x, r, ⟨front, rfl⟩, rfl⟩
  · exact Or.inl ⟨mid, rfl⟩

theorem suffix_of_cons_suffix_cons {α : Type} {x y : α} {xs ys : List α}
    (h : x :: xs <:+ y :: ys) : xs <:+ ys := by
  rcases List.suffix_cons_iff.mp h with heq | hsuffix
  · rw [(List.cons.inj heq).2]
  · exact (List.suffix_cons x xs).trans hsuffix

/-- INTERNAL: behind a closing brace there is the rest of a message, or no message any more. -/
theorem exists_of_close {ms : List MessageText} {post : Bytes}
    (h : 0x7d :: post <:+ tail s t ms) :
    0x7d :: post <:+ closing s t ∨
      ∃ m ms' r, m :: ms' <:+ ms ∧ r <:+ m.body ∧ post = r ++ tail s t ms' := by
  induction ms with
  | nil => exact Or.inl h
  | cons m ms ih =>
    have hunit : tail s t (m :: ms) =
        ((0x2c :: m.beforeObject.text) ++ [0x7b]) ++ (m.body ++ tail s t ms) := by
      rw [tail_cons]
      simp
    rw [hunit] at h
    rcases suffix_append_cases h with h | ⟨x, r, hr, heq⟩
    · rcases suffix_append_cases h with h | ⟨x, r, hr, heq⟩
      · rcases ih h with hclosing | ⟨m', ms', r, hms, hr, hpost⟩
        · exact Or.inl hclosing
        · exact Or.inr ⟨m', ms', r, hms.trans (List.suffix_cons m ms), hr, hpost⟩
      · exact Or.inr ⟨m, ms, r, List.suffix_rfl, (List.suffix_cons x r).trans hr,
          (List.cons.inj heq).2⟩
    · -- in front of a message there is no closing brace
      obtain ⟨rfl, -⟩ := List.cons.inj heq
      have hmem := hr.mem List.mem_cons_self
      rw [List.mem_append, List.mem_cons, List.mem_singleton] at hmem
      rcases hmem with (hmem | hmem) | hmem
      · exact absurd hmem (by decide)
      · exact absurd hmem (close_not_mem_space _)
      · exact absurd hmem (by decide)

theorem jsonObjects_of_closing {post : Bytes} (h : 0x7d :: post <:+ closing s t) (fuel : ℕ) :
    jsonObjects fuel post = [] :=
  jsonObjects_of_not_mem
    (fun hmem => open_not_mem_closing s t (h.mem (List.mem_cons_of_mem _ hmem))) fuel

/-- INTERNAL: **a reader that has fallen behind the text stays behind.** If it is at a place
inside or behind a message, and has still to return that message and all that follow, it
does not. -/
theorem jsonObjects_ne {r : Bytes} {ms : List MessageText} {expected : List (Bytes × Bytes)}
    (hr : r <:+ m.body) (hexpected : (m :: ms).map pair <:+ expected) (fuel : ℕ) :
    jsonObjects fuel (r ++ tail s t ms) ≠ expected := by
  induction fuel generalizing r m ms expected with
  | zero =>
    rintro rfl
    have hlen := hexpected.length_le
    simp [jsonObjects] at hlen
  | succ fuel ih =>
    intro hread
    cases expected with
    | nil => simpa using hexpected.length_le
    | cons x xs =>
      obtain ⟨fuel', pre, inner, post, hfuel, htext, -, -, -, hx, hxs⟩ := exists_object hread
      obtain rfl : fuel = fuel' := by omega
      obtain ⟨front, hfront⟩ := hr
      have hrest : ms.map pair <:+ xs := suffix_of_cons_suffix_cons hexpected
      have hclose : 0x7d :: post <:+ r ++ tail s t ms := by
        rw [htext]
        exact ⟨pre ++ 0x7b :: inner, by simp⟩
      rcases suffix_append_cases hclose with hclose | ⟨c, r', hr', hpost⟩
      · rcases exists_of_close hclose with hclosing | ⟨m', ms', r', hms, hr', rfl⟩
        · -- no messages are left, so the object is read as the last one
          rw [jsonObjects_of_closing hclosing] at hxs
          rw [hxs] at hrest hexpected
          have hms : ms = [] := List.map_eq_nil_iff.mp (List.suffix_nil.mp hrest)
          rw [hms] at hexpected htext
          have hpair : [pair m] = [x] := hexpected.eq_of_length rfl
          rw [List.cons.injEq] at hpair
          have hinside : (front ++ pre) ++ 0x7b :: (inner ++ 0x7d :: post) =
              m.body ++ closing s t := by
            rw [List.append_assoc, ← htext, ← hfront, List.append_assoc]
            rfl
          exact readObject_ne hinside (hx.symm.trans hpair.1.symm)
        · exact ih hr' ((hms.map pair).trans hrest) hxs.symm
      · obtain ⟨-, rfl⟩ := List.cons.inj hpost
        rcases List.suffix_cons_iff.mp hexpected with heq | hlater
        · -- the object lies inside the strings of the message it is read as
          have hpair := (List.cons.inj heq).1
          have hobject : pre ++ 0x7b :: (inner ++ 0x7d :: r') ++ tail s t ms = r ++ tail s t ms := by
            rw [htext]
            simp
          have hinside : (front ++ pre) ++ 0x7b :: (inner ++ 0x7d :: (r' ++ closing s t)) =
              m.body ++ closing s t := by
            rw [← hfront, ← List.append_cancel_right hobject]
            simp
          exact readObject_ne hinside (hx.symm.trans hpair.symm)
        · exact ih ((List.suffix_cons c r').trans hr' |>.trans ⟨front, hfront⟩) hlater hxs.symm
end Document

end StrikeMQ.Analysis.JsonObjects
