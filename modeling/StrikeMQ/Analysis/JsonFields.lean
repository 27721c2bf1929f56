import StrikeMQ.Analysis.JsonStrings

/-!
# The fields of a message in JSON

A message is an object with two fields. The text of such an object, up to any place in its
strings, tells what the reader finds in it: the key behind the first quoted `key`, and the value
behind the first quoted `value`, which may be the end of the key; each only if there are nothing
but blanks around the colon, and as far as the text goes.
-/

set_option autoImplicit false

namespace StrikeMQ.Analysis.JsonFields

open StrikeMQ.Lib StrikeMQ.Model StrikeMQ.Interface StrikeMQ.Analysis.JsonStrings

/-! ## White space and names -/

theorem quote_not_mem_space (s : JsonSpace) : (0x22 : UInt8) ∉ s.text := by
  intro h
  exact absurd (s.isSpace _ h) (by decide)

theorem brace_space (s : JsonSpace) : ∀ c ∈ s.text, brace c = 0 := by
  intro c hc
  rcases s.isSpace c hc with rfl | rfl | rfl | rfl <;> rfl

theorem open_not_mem_space (s : JsonSpace) : (0x7b : UInt8) ∉ s.text := by
  intro h
  exact absurd (brace_space s _ h) (by decide)

theorem close_not_mem_space (s : JsonSpace) : (0x7d : UInt8) ∉ s.text := by
  intro h
  exact absurd (brace_space s _ h) (by decide)

/-- INTERNAL: white space with anything but blanks ends the search for the value of a field. -/
theorem noField_of_not_blank {s : JsonSpace} (h : ¬s.IsBlank) (rest : Bytes) :
    NoField (s.text ++ rest) := by
  obtain ⟨ws, hws⟩ := s
  unfold JsonSpace.IsBlank at h
  simp only at h ⊢
  induction ws with
  | nil => exact absurd (by simp) h
  | cons c ws ih =>
    by_cases hc : c = 0x20
    · have hrest := ih (fun d hd => hws d (List.mem_cons_of_mem _ hd)) fun hall => h (by
        rw [List.forall_mem_cons]
        exact ⟨hc, hall⟩)
      unfold NoField at hrest ⊢
      rwa [List.cons_append, List.dropWhile_cons_of_pos (by simp [hc])]
    · have hspace := hws c List.mem_cons_self
      have hcolon : c ≠ 0x3a := by
        rintro rfl
        exact absurd hspace (by decide)
      unfold NoField
      rw [List.cons_append, List.dropWhile_cons_of_neg (by simp [hc, hcolon]), List.head?_cons]
      intro hquote
      obtain rfl := Option.some.inj hquote
      exact absurd hspace (by decide)

theorem noField_space_cons (s : JsonSpace) {c : UInt8} (hblank : c ≠ 0x20) (hcolon : c ≠ 0x3a)
    (hquote : c ≠ 0x22) (rest : Bytes) : NoField (s.text ++ c :: rest) := by
  by_cases hs : s.IsBlank
  · unfold NoField
    rw [List.dropWhile_append_of_pos fun x hx => by simp [hs x hx],
      List.dropWhile_cons_of_neg (by simp [hblank, hcolon]), List.head?_cons]
    exact fun h => hquote (Option.some.inj h)
  · exact noField_of_not_blank hs _

/-- INTERNAL: the value of a field is found behind the colon if there are only blanks around it. -/
theorem fieldText_spaces (s t : JsonSpace) (rest : Bytes) :
    fieldText (s.text ++ 0x3a :: (t.text ++ 0x22 :: rest)) =
      if s.IsBlank ∧ t.IsBlank then jsonStringBody rest else [] := by
  by_cases hs : s.IsBlank
  · have hfront : fieldText (s.text ++ 0x3a :: (t.text ++ 0x22 :: rest)) =
        fieldText (t.text ++ 0x22 :: rest) := by
      unfold fieldText
      rw [List.dropWhile_append_of_pos fun x hx => by simp [hs x hx],
        List.dropWhile_cons_of_pos (by simp)]
    rw [hfront]
    by_cases ht : t.IsBlank
    · unfold fieldText
      rw [List.dropWhile_append_of_pos fun x hx => by simp [ht x hx],
        List.dropWhile_cons_of_neg (by decide), if_pos ⟨hs, ht⟩]
      rfl
    · rw [fieldText_of_noField (noField_of_not_blank ht _), if_neg fun h => ht h.2]
  · rw [fieldText_of_noField (noField_of_not_blank hs _), if_neg fun h => hs h.1]

/-- INTERNAL: behind a closing quote comes white space and a byte of the syntax of JSON, not a
name. -/
theorem behind_quote_space {name : Bytes} {x : UInt8} (hx : name.head? = some x)
    (hspace : x ∉ [(0x20 : UInt8), 0x09, 0x0a, 0x0d]) (s : JsonSpace) {c : UInt8} (hc : c ≠ x)
    (hquote : c ≠ 0x22) (rest : Bytes) :
    behind name (0x22 :: (s.text ++ c :: rest)) = behind name rest := by
  have hhead : (s.text ++ c :: rest).head? ≠ name.head? := by
    obtain ⟨ws, hws⟩ := s
    rw [hx]
    cases ws with
    | nil => simpa using hc
    | cons d ws =>
      rw [List.cons_append, List.head?_cons, ne_eq, Option.some.injEq]
      rintro rfl
      have hd := hws d List.mem_cons_self
      simp only [List.mem_cons, List.not_mem_nil, or_false] at hspace
      exact hspace hd
  have hsplit : s.text ++ c :: rest = (s.text ++ [c]) ++ rest := by simp
  have hnone : 0x22 ∉ s.text ++ [c] := by
    rw [List.mem_append, List.mem_singleton]
    exact not_or.mpr ⟨quote_not_mem_space s, hquote.symm⟩
  rw [behind_quote_of_head (by rintro rfl; cases hx) hhead, hsplit, behind_append_of_not_mem hnone]

theorem plain_key : Plain (ascii "key") := by
  unfold Plain
  decide +kernel

theorem plain_value : Plain (ascii "value") := by
  unfold Plain
  decide +kernel

/-! ## The text of a message -/

section Message

variable (m : MessageText)

/-- The front part of a message, with the text of its key and what follows it. -/
def keyField (rest : Bytes) : Bytes :=
  m.beforeKeyName.text ++ (quoted (ascii "key") ++ (m.afterKeyName.text ++
    0x3a :: (m.beforeKey.text ++ 0x22 :: rest)))

/-- The part behind the key, with the text of the value and what follows it. -/
def valueField (rest : Bytes) : Bytes :=
  m.afterKey.text ++ 0x2c :: (m.beforeValueName.text ++ (quoted (ascii "value") ++
    (m.afterValueName.text ++ 0x3a :: (m.beforeValue.text ++ 0x22 :: rest))))

/-- What stands behind the value. -/
def ending : Bytes :=
  m.afterValue.text ++ 0x7d :: m.afterObject.text

theorem body_eq : m.body = keyField m (escaped m.key ++
    0x22 :: valueField m (escaped m.value ++ 0x22 :: ending m)) := by
  unfold MessageText.body keyField valueField ending
  rw [stringText_eq m.key_text, stringText_eq m.value_text]
  simp only [List.append_assoc, List.cons_append, List.nil_append]
  rfl

theorem keyField_append (rest more : Bytes) :
    keyField m (rest ++ more) = keyField m rest ++ more := by
  simp only [keyField, List.append_assoc, List.cons_append]

theorem valueField_append (rest more : Bytes) :
    valueField m (rest ++ more) = valueField m rest ++ more := by
  simp only [valueField, List.append_assoc, List.cons_append]

/-- INTERNAL: the first quoted `key` is the name of the key. -/
theorem behind_key_keyField (rest : Bytes) :
    behind (ascii "key") (0x7b :: keyField m rest) =
      some (m.afterKeyName.text ++ 0x3a :: (m.beforeKey.text ++ 0x22 :: rest)) := by
  have hnone : 0x22 ∉ 0x7b :: m.beforeKeyName.text :=
    List.not_mem_cons_of_ne_of_not_mem (by decide) (quote_not_mem_space _)
  rw [keyField, ← List.cons_append, behind_append_of_not_mem hnone, behind_quoted]

/-- INTERNAL: the name of the key is not the name of the value. -/
theorem behind_value_keyField (rest : Bytes) :
    behind (ascii "value") (0x7b :: keyField m rest) = behind (ascii "value") (0x22 :: rest) := by
  have hnone : 0x22 ∉ 0x7b :: m.beforeKeyName.text :=
    List.not_mem_cons_of_ne_of_not_mem (by decide) (quote_not_mem_space _)
  have hname : ∀ text, quoted (ascii "key") ++ text = 0x22 :: (ascii "key" ++ 0x22 :: text) :=
    fun _ => rfl
  rw [keyField, ← List.cons_append, behind_append_of_not_mem hnone, hname,
    behind_quote_of_head (by decide) (by simp [ascii]), behind_append_of_not_mem (by decide),
    behind_quote_space rfl (by decide) _ (by decide) (by decide),
    behind_append_of_not_mem (quote_not_mem_space _)]

theorem behind_value_valueField (rest : Bytes) :
    behind (ascii "value") (0x22 :: valueField m rest) =
      some (m.afterValueName.text ++ 0x3a :: (m.beforeValue.text ++ 0x22 :: rest)) := by
  rw [valueField, behind_quote_space rfl (by decide) _ (by decide) (by decide),
    behind_append_of_not_mem (quote_not_mem_space _), behind_quoted]

theorem behind_key_valueField (rest : Bytes) :
    behind (ascii "key") (0x22 :: valueField m rest) = behind (ascii "key") (0x22 :: rest) := by
  have hname : ∀ text, quoted (ascii "value") ++ text = 0x22 :: (ascii "value" ++ 0x22 :: text) :=
    fun _ => rfl
  rw [valueField, behind_quote_space rfl (by decide) _ (by decide) (by decide),
    behind_append_of_not_mem (quote_not_mem_space _), hname,
    behind_quote_of_head (by decide) (by simp [ascii]), behind_append_of_not_mem (by decide),
    behind_quote_space rfl (by decide) _ (by decide) (by decide),
    behind_append_of_not_mem (quote_not_mem_space _)]

/-! ## What is read from an object that starts a message -/

/-- What the reader returns for the key if it is cut off behind `k`. -/
def keyShown (k : Bytes) : Bytes :=
  if m.afterKeyName.IsBlank ∧ m.beforeKey.IsBlank then shownText k else []

/-- What the reader returns for the value if it is cut off behind `v`. -/
def valueShown (v : Bytes) : Bytes :=
  if m.key = ascii "value" ∨ 0x22 :: ascii "value" <:+ m.key then []
  else if m.afterValueName.IsBlank ∧ m.beforeValue.IsBlank then shownText v else []

theorem extract_key (k rest : Bytes) (hrest : jsonStringBody rest = []) :
    jsonExtractString (0x7b :: keyField m (escaped k ++ rest)) (ascii "key") = keyShown m k := by
  rw [jsonExtractString_of_some (behind_key_keyField m _), fieldText_spaces,
    jsonStringBody_escaped, hrest, List.append_nil, keyShown]

theorem extract_value_of_cut (k : Bytes) :
    jsonExtractString (0x7b :: keyField m (escaped k)) (ascii "value") = [] := by
  apply jsonExtractString_of_none
  rw [behind_value_keyField, behind_cut plain_value]

/-- INTERNAL: the search for the value finds what its field shows. -/
theorem extract_value (v rest : Bytes) (hrest : jsonStringBody rest = []) :
    jsonExtractString (0x7b :: keyField m (escaped m.key ++
      0x22 :: valueField m (escaped v ++ rest))) (ascii "value") = valueShown m v := by
  have hbehind := behind_value_keyField m
    (escaped m.key ++ 0x22 :: valueField m (escaped v ++ rest))
  rw [behind_string plain_value, behind_value_valueField] at hbehind
  unfold valueShown
  by_cases hname : m.key = ascii "value" ∨ 0x22 :: ascii "value" <:+ m.key
  · rw [if_pos hname] at hbehind
    rw [if_pos hname, jsonExtractString_of_some hbehind, valueField,
      fieldText_of_noField (noField_space_cons _ (by decide) (by decide) (by decide) _)]
  · rw [if_neg hname] at hbehind
    rw [if_neg hname, jsonExtractString_of_some hbehind, fieldText_spaces,
      jsonStringBody_escaped, hrest, List.append_nil]

/-- INTERNAL: a text that is cut off is not shown whole. -/
theorem shownText_eq_whole_iff {s rest : Bytes} :
    shownText s = s ++ rest ↔ s ++ rest = [] ∨ rest = [] ∧ ∀ c ∈ s ++ rest, ¬IsControl c := by
  rw [shownText_eq_append_iff]
  constructor
  · rintro ⟨rfl, hplain⟩
    rw [List.append_nil]
    exact Or.inr ⟨rfl, hplain⟩
  · rintro (hnil | ⟨rfl, hplain⟩)
    · obtain ⟨rfl, rfl⟩ := List.append_eq_nil_iff.mp hnil
      exact ⟨rfl, fun c hc => absurd hc List.not_mem_nil⟩
    · rw [List.append_nil] at hplain
      exact ⟨rfl, hplain⟩

/-- INTERNAL: a key that is cut off is not returned whole. -/
theorem keyShown_eq_iff {k rest : Bytes} (hkey : m.key = k ++ rest) :
    keyShown m k = m.key ↔ m.key = [] ∨ rest = [] ∧
      m.afterKeyName.IsBlank ∧ m.beforeKey.IsBlank ∧ ∀ c ∈ m.key, ¬IsControl c := by
  unfold keyShown
  by_cases hblank : m.afterKeyName.IsBlank ∧ m.beforeKey.IsBlank
  · rw [if_pos hblank, hkey, shownText_eq_whole_iff]
    simp only [hblank.1, hblank.2, true_and]
  · rw [if_neg hblank, eq_comm]
    exact ⟨Or.inl, fun h => h.resolve_right fun hr => hblank ⟨hr.2.1, hr.2.2.1⟩⟩

/-- INTERNAL: a value that is cut off is not returned whole. -/
theorem valueShown_eq_iff {v rest : Bytes} (hvalue : m.value = v ++ rest) :
    valueShown m v = m.value ↔ m.value = [] ∨ rest = [] ∧ ¬m.EndsWithName ∧
      m.afterValueName.IsBlank ∧ m.beforeValue.IsBlank ∧ ∀ c ∈ m.value, ¬IsControl c := by
  unfold valueShown
  by_cases hname : m.key = ascii "value" ∨ 0x22 :: ascii "value" <:+ m.key
  · rw [if_pos hname, eq_comm]
    exact ⟨Or.inl, fun h => h.resolve_right fun hr => hr.2.1 hname⟩
  rw [if_neg hname]
  by_cases hblank : m.afterValueName.IsBlank ∧ m.beforeValue.IsBlank
  · have hnot : ¬m.EndsWithName := hname
    rw [if_pos hblank, hvalue, shownText_eq_whole_iff]
    simp only [hnot, hblank.1, hblank.2, not_false_eq_true, true_and]
  · rw [if_neg hblank, eq_comm]
    exact ⟨Or.inl, fun h => h.resolve_right fun hr => hblank ⟨hr.2.2.1, hr.2.2.2.1⟩⟩

/-! ## The braces of a message -/

theorem keyField_eq (rest : Bytes) : keyField m rest = keyField m [] ++ rest :=
  keyField_append m [] rest

theorem valueField_eq (rest : Bytes) :
    0x22 :: valueField m rest = (0x22 :: valueField m []) ++ rest := by
  rw [List.cons_append, ← valueField_append, List.nil_append]

theorem brace_keyField : ∀ c ∈ keyField m [], brace c = 0 := by
  intro c hc
  simp only [keyField, List.mem_append, List.mem_cons, List.not_mem_nil, or_false] at hc
  rcases hc with hc | hc | hc | rfl | hc | rfl
  · exact brace_space _ c hc
  · revert c
    decide +kernel
  · exact brace_space _ c hc
  · rfl
  · exact brace_space _ c hc
  · rfl

theorem brace_valueField : ∀ c ∈ 0x22 :: valueField m [], brace c = 0 := by
  intro c hc
  simp only [valueField, List.mem_append, List.mem_cons, List.not_mem_nil, or_false] at hc
  rcases hc with rfl | hc | rfl | hc | hc | hc | rfl | hc | rfl
  · rfl
  · exact brace_space _ c hc
  · rfl
  · exact brace_space _ c hc
  · revert c
    decide +kernel
  · exact brace_space _ c hc
  · rfl
  · exact brace_space _ c hc
  · rfl

theorem net_keyField (rest : Bytes) : net brace (keyField m rest) = net brace rest := by
  rw [keyField_eq, net_append, net_eq_zero (brace_keyField m), Int.zero_add]

theorem net_valueField (rest : Bytes) :
    net brace (0x22 :: valueField m rest) = net brace rest := by
  rw [valueField_eq, net_append, net_eq_zero (brace_valueField m), Int.zero_add]

theorem staysOpen_keyField {d : ℤ} {rest : Bytes} :
    StaysOpen brace d (keyField m rest) ↔ StaysOpen brace d rest := by
  rw [keyField_eq, staysOpen_append, staysOpen_of_zero (brace_keyField m),
    net_eq_zero (brace_keyField m), Int.add_zero]
  exact ⟨fun h => h.2, fun h => ⟨h.pos, h⟩⟩

theorem staysOpen_valueField {d : ℤ} {rest : Bytes} :
    StaysOpen brace d (0x22 :: valueField m rest) ↔ StaysOpen brace d rest := by
  rw [valueField_eq, staysOpen_append, staysOpen_of_zero (brace_valueField m),
    net_eq_zero (brace_valueField m), Int.add_zero]
  exact ⟨fun h => h.2, fun h => ⟨h.pos, h⟩⟩

end Message

end StrikeMQ.Analysis.JsonFields
