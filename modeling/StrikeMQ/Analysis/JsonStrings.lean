import Mathlib.Data.List.TakeWhile
import StrikeMQ.Interface.MessageJson

/-!
# Strings in JSON, written and read

The writer escapes a string byte by byte; the reader, behind the opening quote, undoes every
escape but that of the control characters, of which it keeps the digits. The reader looks for a
field by its quoted name, wherever that stands: also where an escaped quote and the end of a
string make it up.
-/

set_option autoImplicit false

namespace StrikeMQ.Analysis.JsonStrings

open StrikeMQ.Lib StrikeMQ.Model StrikeMQ.Interface

/-! ## Escaped strings -/

/-- A string as it is written, without its quotes. -/
def escaped (s : Bytes) : Bytes :=
  s.flatMap JsonWriter.escape

@[simp]
theorem escaped_nil : escaped [] = [] := rfl

@[simp]
theorem escaped_cons (c : UInt8) (s : Bytes) :
    escaped (c :: s) = JsonWriter.escape c ++ escaped s :=
  List.flatMap_cons

@[simp]
theorem escaped_append (s t : Bytes) : escaped (s ++ t) = escaped s ++ escaped t :=
  List.flatMap_append

/-- INTERNAL: a string without NUL is written escaped, between quotes. -/
theorem stringText_eq {s : Bytes} (h : 0 ∉ s) :
    JsonWriter.stringText s = 0x22 :: (escaped s ++ [0x22]) := by
  have hall : s.takeWhile (· ≠ 0) = s := by
    rw [List.takeWhile_eq_self_iff]
    intro c hc
    rw [decide_eq_true_eq]
    rintro rfl
    exact h hc
  rw [JsonWriter.stringText, hall]
  rfl

/-- The digits of a hexadecimal number are neither quotes nor backslashes nor braces. -/
theorem hexDigits_plain (w n : ℕ) :
    ∀ c ∈ hexDigits w n, c ≠ 0x22 ∧ c ≠ 0x5c ∧ c ≠ 0x7b ∧ c ≠ 0x7d := by
  induction w generalizing n with
  | zero =>
    intro c hc
    cases hc
  | succ w ih =>
    intro c hc
    rw [hexDigits, List.mem_append, List.mem_singleton] at hc
    rcases hc with hc | rfl
    · exact ih _ c hc
    · have hall : ∀ d, d < 16 → hexDigit d ≠ 0x22 ∧ hexDigit d ≠ 0x5c ∧ hexDigit d ≠ 0x7b ∧
          hexDigit d ≠ 0x7d := by
        decide
      exact hall _ (Nat.mod_lt _ (by decide))

/-- INTERNAL: what the writer makes of a byte. -/
theorem escape_cases (c : UInt8) :
    (JsonWriter.escape c = [c] ∧ c ≠ 0x22 ∧ c ≠ 0x5c ∧ ¬IsControl c) ∨
    (c = 0x22 ∧ JsonWriter.escape c = [0x5c, 0x22]) ∨
    (c ≠ 0x22 ∧ ¬IsControl c ∧ brace c = 0 ∧
      ∃ d, JsonWriter.escape c = [0x5c, d] ∧ jsonUnescapeChar d = c ∧ d ≠ 0x22 ∧ brace d = 0) ∨
    (IsControl c ∧ JsonWriter.escape c = 0x5c :: 0x75 :: hexDigits 4 c.toNat) := by
  unfold JsonWriter.escape
  by_cases hquote : c = 0x22
  · exact Or.inr (Or.inl ⟨hquote, if_pos hquote⟩)
  rw [if_neg hquote]
  by_cases hslash : c = 0x5c
  · subst hslash
    exact Or.inr (Or.inr (Or.inl ⟨by decide, by decide, by decide, 0x5c, by decide⟩))
  rw [if_neg hslash]
  by_cases hfeed : c = 0x0a
  · subst hfeed
    exact Or.inr (Or.inr (Or.inl ⟨by decide, by decide, by decide, 0x6e, by decide⟩))
  rw [if_neg hfeed]
  by_cases hreturn : c = 0x0d
  · subst hreturn
    exact Or.inr (Or.inr (Or.inl ⟨by decide, by decide, by decide, 0x72, by decide⟩))
  rw [if_neg hreturn]
  by_cases htab : c = 0x09
  · subst htab
    exact Or.inr (Or.inr (Or.inl ⟨by decide, by decide, by decide, 0x74, by decide⟩))
  rw [if_neg htab]
  by_cases hcontrol : c < 0x20
  · rw [if_pos hcontrol]
    exact Or.inr (Or.inr (Or.inr ⟨⟨hcontrol, htab, hfeed, hreturn⟩, rfl⟩))
  · rw [if_neg hcontrol]
    exact Or.inl ⟨rfl, hquote, hslash, fun h => hcontrol h.1⟩

/-! ## Reading a string back -/

/-- What the reader makes of an escaped byte. -/
def shownChar (c : UInt8) : Bytes :=
  if IsControl c then 0x75 :: hexDigits 4 c.toNat else [c]

/-- What the reader makes of an escaped string. -/
def shownText (s : Bytes) : Bytes :=
  s.flatMap shownChar

theorem jsonStringBody_cons {c : UInt8} (hquote : c ≠ 0x22) (hslash : c ≠ 0x5c) (rest : Bytes) :
    jsonStringBody (c :: rest) = c :: jsonStringBody rest := by
  cases rest with
  | nil => simp [jsonStringBody, hquote]
  | cons d rest => simp [jsonStringBody, hquote, hslash]

theorem jsonStringBody_backslash (d : UInt8) (rest : Bytes) :
    jsonStringBody (0x5c :: d :: rest) = jsonUnescapeChar d :: jsonStringBody rest := by
  simp [jsonStringBody]

theorem jsonStringBody_quote (rest : Bytes) : jsonStringBody (0x22 :: rest) = [] := by
  cases rest with
  | nil => rfl
  | cons d rest => rfl

theorem jsonStringBody_plain {s : Bytes} (h : ∀ c ∈ s, c ≠ 0x22 ∧ c ≠ 0x5c) (rest : Bytes) :
    jsonStringBody (s ++ rest) = s ++ jsonStringBody rest := by
  induction s with
  | nil => rfl
  | cons c s ih =>
    obtain ⟨hquote, hslash⟩ := h c List.mem_cons_self
    rw [List.cons_append, jsonStringBody_cons hquote hslash,
      ih fun d hd => h d (List.mem_cons_of_mem _ hd), List.cons_append]

/-- INTERNAL: **the reader goes through an escaped string and on behind it.** -/
theorem jsonStringBody_escaped (s rest : Bytes) :
    jsonStringBody (escaped s ++ rest) = shownText s ++ jsonStringBody rest := by
  induction s with
  | nil => rfl
  | cons c s ih =>
    rw [escaped_cons, List.append_assoc, shownText, List.flatMap_cons, List.append_assoc,
      ← shownText, ← ih, shownChar]
    rcases escape_cases c with ⟨hesc, hquote, hslash, hplain⟩ | ⟨rfl, hesc⟩ |
      ⟨-, hplain, -, d, hesc, hback, -⟩ | ⟨hcontrol, hesc⟩
    · rw [hesc, if_neg hplain, List.singleton_append, jsonStringBody_cons hquote hslash,
        List.singleton_append]
    · rw [hesc, if_neg (by decide)]
      exact jsonStringBody_backslash 0x22 _
    · rw [hesc, if_neg hplain, List.cons_append, List.singleton_append, jsonStringBody_backslash,
        hback, List.singleton_append]
    · rw [hesc, if_pos hcontrol, List.cons_append, List.cons_append, jsonStringBody_backslash,
        jsonStringBody_plain fun c hc => ⟨(hexDigits_plain _ _ c hc).1, (hexDigits_plain _ _ c hc).2.1⟩,
        List.cons_append]
      rfl

/-- INTERNAL: a string that is read is not the beginning of a longer one, and it is the one that
was written only without control characters. -/
theorem shownText_eq_append_iff {s t : Bytes} :
    shownText s = s ++ t ↔ t = [] ∧ ∀ c ∈ s, ¬IsControl c := by
  induction s with
  | nil => simp [shownText, eq_comm]
  | cons c s ih =>
    rw [shownText, List.flatMap_cons, ← shownText, List.forall_mem_cons, shownChar]
    by_cases hc : IsControl c
    · rw [if_pos hc]
      simp only [hc, not_true_eq_false, false_and, and_false, iff_false]
      intro heq
      have hhead : (0x75 : UInt8) = c := (List.cons.inj heq).1
      rw [← hhead] at hc
      exact absurd hc (by decide)
    · rw [if_neg hc, List.singleton_append, List.cons_append, List.cons.injEq]
      simp only [true_and, hc, not_false_eq_true]
      exact ih

/-! ## Braces -/

/-- INTERNAL: an escape has no braces, and only what is no brace is escaped. -/
theorem escape_brace (c : UInt8) : JsonWriter.escape c = [c] ∨
    brace c = 0 ∧ ∀ x ∈ JsonWriter.escape c, brace x = 0 := by
  rcases escape_cases c with ⟨hesc, -⟩ | ⟨rfl, hesc⟩ | ⟨-, -, hbrace, d, hesc, -, -, hd⟩ |
    ⟨hcontrol, hesc⟩
  · exact Or.inl hesc
  · exact Or.inr (by rw [hesc]; decide +kernel)
  · refine Or.inr ⟨hbrace, ?_⟩
    rw [hesc, List.forall_mem_cons, List.forall_mem_singleton]
    exact ⟨by decide, hd⟩
  · refine Or.inr ⟨?_, ?_⟩
    · have hlt : c.toNat < 32 := hcontrol.1
      unfold brace
      rw [if_neg (by rintro rfl; exact absurd hlt (by decide)),
        if_neg (by rintro rfl; exact absurd hlt (by decide))]
    · rw [hesc, List.forall_mem_cons, List.forall_mem_cons]
      refine ⟨by decide, by decide, fun x hx => ?_⟩
      obtain ⟨-, -, hopen, hclose⟩ := hexDigits_plain _ _ x hx
      rw [brace, if_neg hopen, if_neg hclose]

theorem net_escape (c : UInt8) : net brace (JsonWriter.escape c) = brace c := by
  rcases escape_brace c with hesc | ⟨hc, hesc⟩
  · rw [hesc, net_cons, net_nil, Int.add_zero]
  · rw [net_eq_zero hesc, hc]

theorem staysOpen_escape {d : ℤ} {c : UInt8} :
    StaysOpen brace d (JsonWriter.escape c) ↔ StaysOpen brace d [c] := by
  rcases escape_brace c with hesc | ⟨hc, hesc⟩
  · rw [hesc]
  · rw [staysOpen_of_zero hesc, staysOpen_of_zero (by simpa using hc)]

theorem net_escaped (s : Bytes) : net brace (escaped s) = net brace s := by
  induction s with
  | nil => rfl
  | cons c s ih => rw [escaped_cons, net_append, net_escape, ih, net_cons]

/-- INTERNAL: escaping leaves the braces of a string where they are. -/
theorem staysOpen_escaped {d : ℤ} {s : Bytes} :
    StaysOpen brace d (escaped s) ↔ StaysOpen brace d s := by
  induction s generalizing d with
  | nil => rfl
  | cons c s ih =>
    have hsplit : StaysOpen brace d (c :: s) ↔
        StaysOpen brace d [c] ∧ StaysOpen brace (d + net brace [c]) s := by
      rw [← staysOpen_append, List.singleton_append]
    rw [escaped_cons, staysOpen_append, net_escape, staysOpen_escape, ih, hsplit, net_cons, net_nil,
      Int.add_zero]

/-! ## Looking for a field -/

/-- The quoted name of a field. -/
def quoted (name : Bytes) : Bytes :=
  0x22 :: (name ++ [0x22])

/-- What stands behind the first place where the name of a field is found.
SOURCE: http/http_server.cpp:855-858 -/
def behind (name text : Bytes) : Option Bytes :=
  (findSub (quoted name) text).map fun i => text.drop (i + (quoted name).length)

/-- The string that is read from what stands behind the name.
SOURCE: http/http_server.cpp:860-882 -/
def fieldText (rest : Bytes) : Bytes :=
  match rest.dropWhile (fun c => c = 0x20 ∨ c = 0x3a) with
  | [] => []
  | c :: text => if c = 0x22 then jsonStringBody text else []

theorem jsonExtractString_of_none {name text : Bytes} (h : behind name text = none) :
    jsonExtractString text name = [] := by
  rw [behind, Option.map_eq_none_iff] at h
  have hname : [0x22] ++ name ++ [0x22] = quoted name := rfl
  simp only [jsonExtractString, hname, h]

theorem jsonExtractString_of_some {name text rest : Bytes} (h : behind name text = some rest) :
    jsonExtractString text name = fieldText rest := by
  rw [behind, Option.map_eq_some_iff] at h
  obtain ⟨i, hi, rfl⟩ := h
  have hname : [0x22] ++ name ++ [0x22] = quoted name := rfl
  simp only [jsonExtractString, hname, hi]
  rfl

variable {name : Bytes}

theorem behind_append {text rest : Bytes} (h : behind name text = some rest) (more : Bytes) :
    behind name (text ++ more) = some (rest ++ more) := by
  rw [behind, Option.map_eq_some_iff] at h
  obtain ⟨i, hi, rfl⟩ := h
  have hle := add_length_le_of_findSub hi (List.cons_ne_nil _ _)
  rw [behind, findSub_append hi, Option.map_some, List.drop_append_of_le_length hle]

theorem behind_append_of_not_mem {front : Bytes} (h : 0x22 ∉ front) (text : Bytes) :
    behind name (front ++ text) = behind name text := by
  rw [behind, quoted, findSub_append_of_not_mem h, Option.map_map, behind, quoted]
  congr 1
  funext i
  rw [Function.comp_apply, Nat.add_assoc, ← List.drop_drop, List.drop_left]

theorem behind_eq_none {text : Bytes} (h : 0x22 ∉ text) : behind name text = none := by
  rw [behind, quoted, findSub_eq_none_of_not_mem h, Option.map_none]

theorem behind_quote (text : Bytes) :
    behind name (0x22 :: text) =
      if name ++ [0x22] <+: text then some (text.drop (name.length + 1)) else behind name text := by
  have hfront : quoted name <+: 0x22 :: text ↔ name ++ [0x22] <+: text := by
    rw [quoted, List.cons_prefix_cons]
    exact and_iff_right rfl
  rw [behind, findSub]
  by_cases h : name ++ [0x22] <+: text
  · rw [if_pos (hfront.mpr h), if_pos h, Option.map_some, Nat.zero_add, quoted, List.length_cons,
      List.drop_succ_cons, List.length_append, List.length_singleton]
  · rw [if_neg fun hf => h (hfront.mp hf), if_neg h, Option.map_map, behind]
    congr 1
    funext i
    rw [Function.comp_apply, Nat.add_right_comm, List.drop_succ_cons]

/-- INTERNAL: a quote behind which there is no name opens no name. -/
theorem behind_quote_of_head {text : Bytes} (hne : name ≠ []) (h : text.head? ≠ name.head?) :
    behind name (0x22 :: text) = behind name text := by
  rw [behind_quote, if_neg]
  rintro ⟨rest, rfl⟩
  cases name with
  | nil => exact hne rfl
  | cons c name => exact h rfl

theorem behind_quoted (rest : Bytes) : behind name (quoted name ++ rest) = some rest := by
  have hsplit : quoted name ++ rest = 0x22 :: (name ++ [0x22] ++ rest) := rfl
  rw [hsplit, behind_quote, if_pos (List.prefix_append _ _)]
  have hlen : name.length + 1 = (name ++ [0x22]).length := by simp
  rw [hlen, List.drop_left]

/-- A name that is written as it is. -/
def Plain (name : Bytes) : Prop :=
  ∀ c ∈ name, JsonWriter.escape c = [c]

theorem escaped_of_plain (h : Plain name) : escaped name = name := by
  induction name with
  | nil => rfl
  | cons c name ih =>
    rw [escaped_cons, h c List.mem_cons_self, ih fun d hd => h d (List.mem_cons_of_mem _ hd),
      List.singleton_append]

/-- INTERNAL: the bytes of an escape. -/
theorem escape_head (c : UInt8) :
    (JsonWriter.escape c = [c] ∧ c ≠ 0x22) ∨
      JsonWriter.escape c ≠ [c] ∧ ∃ rest, JsonWriter.escape c = 0x5c :: rest := by
  rcases escape_cases c with ⟨hesc, hquote, -⟩ | ⟨rfl, hesc⟩ | ⟨-, -, -, d, hesc, -⟩ | ⟨-, hesc⟩
  · exact Or.inl ⟨hesc, hquote⟩
  all_goals exact Or.inr ⟨by rw [hesc]; simp, _, hesc⟩

/-- INTERNAL: a string and its closing quote begin with the name and a quote only if the name is
the string. -/
theorem isPrefix_escaped_iff (hplain : Plain name) (s rest : Bytes) :
    name ++ [0x22] <+: escaped s ++ 0x22 :: rest ↔ s = name := by
  induction s generalizing name with
  | nil =>
    cases name with
    | nil => simp
    | cons d name =>
      have hd := hplain d List.mem_cons_self
      simp only [escaped_nil, List.nil_append, List.cons_append, List.cons_prefix_cons,
        List.nil_eq, reduceCtorEq, iff_false]
      rintro ⟨rfl, -⟩
      exact absurd hd (by decide)
  | cons c s ih =>
    rw [escaped_cons, List.append_assoc]
    rcases escape_head c with ⟨hesc, hquote⟩ | ⟨hesc, more, hslash⟩
    · rw [hesc, List.singleton_append]
      cases name with
      | nil =>
        rw [List.nil_append, List.cons_prefix_cons]
        exact iff_of_false (fun h => hquote h.1.symm) (by simp)
      | cons d name =>
        rw [List.cons_append, List.cons_prefix_cons,
          ih fun x hx => hplain x (List.mem_cons_of_mem _ hx), List.cons.injEq, eq_comm (a := d)]
    · rw [hslash, List.cons_append]
      cases name with
      | nil =>
        rw [List.nil_append, List.cons_prefix_cons]
        exact iff_of_false (fun h => absurd h.1 (by decide)) (by simp)
      | cons d name =>
        rw [List.cons_append, List.cons_prefix_cons, List.cons.injEq]
        have hd := hplain d List.mem_cons_self
        refine iff_of_false ?_ ?_
        · rintro ⟨rfl, -⟩
          exact absurd hd (by decide)
        · rintro ⟨rfl, -⟩
          exact hesc hd

/-- INTERNAL: **inside a string the name of a field is found only at its end**, made up of an
escaped quote, the name and the closing quote. -/
theorem behind_escaped (hplain : Plain name) (s rest : Bytes) :
    behind name (escaped s ++ 0x22 :: rest) =
      if 0x22 :: name <:+ s then some rest else behind name (0x22 :: rest) := by
  induction s with
  | nil =>
    rw [if_neg (by simp)]
    rfl
  | cons c s ih =>
    rw [escaped_cons, List.append_assoc]
    simp only [List.suffix_cons_iff, List.cons.injEq]
    rcases escape_cases c with ⟨hesc, hquote, -⟩ | ⟨rfl, hesc⟩ | ⟨hquote, -, -, d, hesc, -, hd, -⟩ |
      ⟨hcontrol, hesc⟩
    · rw [hesc, behind_append_of_not_mem (by simpa using hquote.symm), ih]
      simp [hquote.symm]
    · have hsplit : [0x5c, 0x22] ++ (escaped s ++ 0x22 :: rest) =
          [0x5c] ++ 0x22 :: (escaped s ++ 0x22 :: rest) := rfl
      rw [hesc, hsplit, behind_append_of_not_mem (by decide), behind_quote]
      simp only [isPrefix_escaped_iff hplain]
      by_cases hs : s = name
      · rw [if_pos hs, if_pos (Or.inl ⟨trivial, hs.symm⟩), hs, escaped_of_plain hplain,
          ← List.drop_drop, List.drop_left]
        rfl
      · rw [if_neg hs, ih]
        simp [Ne.symm hs]
    · rw [hesc, behind_append_of_not_mem (by simpa using hd.symm), ih]
      simp [hquote.symm]
    · have hnone : 0x22 ∉ JsonWriter.escape c := by
        rw [hesc, List.mem_cons, List.mem_cons]
        rintro (h | h | h)
        · exact absurd h (by decide)
        · exact absurd h (by decide)
        · exact (hexDigits_plain _ _ _ h).1 rfl
      have hquote : (0x22 : UInt8) ≠ c := by
        rintro rfl
        exact absurd hcontrol (by decide)
      rw [behind_append_of_not_mem hnone, ih]
      simp [hquote]

/-- INTERNAL: from the opening quote on, the string itself may be the name. -/
theorem behind_string (hplain : Plain name) (s rest : Bytes) :
    behind name (0x22 :: (escaped s ++ 0x22 :: rest)) =
      if s = name ∨ 0x22 :: name <:+ s then some rest else behind name (0x22 :: rest) := by
  rw [behind_quote, behind_escaped hplain]
  simp only [isPrefix_escaped_iff hplain]
  by_cases hs : s = name
  · rw [if_pos hs, if_pos (Or.inl hs), hs, escaped_of_plain hplain, ← List.drop_drop,
      List.drop_left]
    rfl
  · simp [hs]

/-- INTERNAL: without its closing quote a string has no name in it. -/
theorem behind_cut (hplain : Plain name) (s : Bytes) :
    behind name (0x22 :: escaped s) = none := by
  cases h : behind name (0x22 :: escaped s) with
  | none => rfl
  | some rest =>
    have hclosed := behind_append h [0x22]
    rw [List.cons_append, behind_string hplain] at hclosed
    split at hclosed
    · simp at hclosed
    · rw [behind_quote, behind_eq_none (by simp)] at hclosed
      simp at hclosed

/-! ## What is no field -/

/-- What stands behind a name is not the value of a field. -/
def NoField (rest : Bytes) : Prop :=
  (rest.dropWhile (fun c => c = 0x20 ∨ c = 0x3a)).head? ≠ some 0x22

theorem fieldText_of_noField {rest : Bytes} (h : NoField rest) : fieldText rest = [] := by
  unfold NoField at h
  unfold fieldText
  cases hdrop : rest.dropWhile (fun c => c = 0x20 ∨ c = 0x3a) with
  | nil => rfl
  | cons c text =>
    rw [hdrop, List.head?_cons, ne_eq, Option.some.injEq] at h
    exact if_neg h

theorem NoField.of_append {rest more : Bytes} (h : NoField (rest ++ more)) : NoField rest := by
  unfold NoField at h ⊢
  rw [List.dropWhile_append] at h
  split at h
  · next hempty =>
    rw [List.isEmpty_iff.mp hempty]
    simp
  · next hsome =>
    cases hdrop : rest.dropWhile (fun c => c = 0x20 ∨ c = 0x3a) with
    | nil => simp
    | cons c text =>
      rw [hdrop] at h
      exact h

/-- INTERNAL: **what a text does not have as a field, the front part of it does not have
either.** -/
theorem jsonExtractString_front (name text more : Bytes)
    (h : ∀ rest, behind name (text ++ more) = some rest → NoField rest) :
    jsonExtractString text name = [] := by
  cases hbehind : behind name text with
  | none => exact jsonExtractString_of_none hbehind
  | some rest =>
    rw [jsonExtractString_of_some hbehind]
    exact fieldText_of_noField (h _ (behind_append hbehind more)).of_append

end StrikeMQ.Analysis.JsonStrings
