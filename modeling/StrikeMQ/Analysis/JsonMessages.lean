import StrikeMQ.Lib.WireFormat
import StrikeMQ.Analysis.JsonObjects

/-!
# Messages in JSON, written and read

As long as every object that the reader of the REST producer finds is the one of the next
message, the strings of that message decide what is read: where the braces in them first close
the object, what is unescaped wrongly, and whether the key hides the name of the value. An
object that runs past its message makes the reader fall behind for good, except behind the last
message, where the brace that closes the document may close it.
-/

set_option autoImplicit false

namespace StrikeMQ.Analysis.JsonMessages

open StrikeMQ.Lib StrikeMQ.Model StrikeMQ.Interface StrikeMQ.Analysis.JsonStrings
open StrikeMQ.Analysis.JsonFields StrikeMQ.Analysis.JsonObjects

section Document

variable {s t : JsonSpace} {m : MessageText}

/-! ## Keeping up -/

/-- The messages come back. -/
def AllReadable (ms : List MessageText) : Prop :=
  (∀ m ∈ ms, m.Readable) ∧ ∀ m ∈ ms.dropLast, net brace (m.key ++ m.value) ≤ 0

theorem allReadable_cons {m : MessageText} {ms : List MessageText} :
    AllReadable (m :: ms) ↔ m.Readable ∧ (ms ≠ [] → net brace (m.key ++ m.value) ≤ 0) ∧
      AllReadable ms := by
  unfold AllReadable
  cases ms with
  | nil => simp
  | cons m' ms =>
    simp only [List.dropLast_cons_cons, List.forall_mem_cons, ne_eq, reduceCtorEq,
      not_false_eq_true, forall_const]
    tauto

/-- INTERNAL: as far as the braces of its strings go, a message is readable if they leave the
object open to their end, or close it with their last byte. -/
theorem closes_of_open {p : Bytes} (h : StaysOpen brace 1 p) :
    ∀ q, q <+: p → q ≠ p → 0 ≤ net brace q := by
  intro q hq _
  have hpos := h q hq
  omega

theorem closes_of_close {p : Bytes} (h : StaysOpen brace 1 p) :
    ∀ q, q <+: p ++ [0x7d] → q ≠ p ++ [0x7d] → 0 ≤ net brace q := by
  intro q hq hne
  rcases List.prefix_concat_iff.mp hq with heq | hq
  · exact absurd heq hne
  · have hpos := h q hq
    omega

theorem not_closes {p rest : Bytes} (hnet : net brace p = 0) (hrest : rest ≠ []) :
    ¬∀ q, q <+: p ++ 0x7d :: rest → q ≠ p ++ 0x7d :: rest → 0 ≤ net brace q := by
  intro h
  have hneg := h (p ++ [0x7d]) ⟨rest, by simp⟩ (by simpa using hrest.symm)
  have hminus : net brace [0x7d] = -1 := rfl
  rw [net_append, hnet, hminus] at hneg
  omega

theorem net_front (m : MessageText) (v : Bytes) {gap : Bytes} (hgap : ∀ c ∈ gap, brace c = 0) :
    net brace (keyField m (escaped m.key ++ 0x22 :: valueField m (escaped v ++ gap))) =
      net brace (m.key ++ v) := by
  rw [net_keyField, net_append, net_valueField, net_append, net_escaped, net_escaped,
    net_eq_zero hgap, Int.add_zero, net_append]

theorem staysOpen_front (m : MessageText) {d : ℤ} (v : Bytes) {gap : Bytes}
    (hgap : ∀ c ∈ gap, brace c = 0) :
    StaysOpen brace d (keyField m (escaped m.key ++ 0x22 :: valueField m (escaped v ++ gap))) ↔
      StaysOpen brace d (m.key ++ v) := by
  rw [staysOpen_keyField, staysOpen_append, staysOpen_escaped, staysOpen_valueField, net_escaped,
    staysOpen_append, staysOpen_escaped, staysOpen_of_zero hgap, net_escaped, staysOpen_append]
  exact ⟨fun h => ⟨h.1, h.2.1⟩, fun h => ⟨h.1, h.2, h.2.pos_add⟩⟩

/-- The text of a message between its own braces. -/
def objectText (m : MessageText) : Bytes :=
  keyField m (escaped m.key ++ 0x22 :: valueField m (escaped m.value ++ 0x22 :: m.afterValue.text))

theorem objectText_append (m : MessageText) (rest : Bytes) :
    objectText m ++ rest = keyField m (escaped m.key ++
      0x22 :: valueField m (escaped m.value ++ 0x22 :: (m.afterValue.text ++ rest))) := by
  have hvalue : escaped m.value ++ 0x22 :: (m.afterValue.text ++ rest) =
      (escaped m.value ++ 0x22 :: m.afterValue.text) ++ rest := by simp
  rw [objectText, hvalue, valueField_append m (escaped m.value ++ 0x22 :: m.afterValue.text) rest,
    ← List.cons_append, ← List.append_assoc]
  exact (keyField_append m _ rest).symm

theorem body_eq_objectText (m : MessageText) :
    m.body = objectText m ++ 0x7d :: m.afterObject.text := by
  rw [objectText_append, body_eq, ending]

theorem brace_afterValue (m : MessageText) : ∀ c ∈ 0x22 :: m.afterValue.text, brace c = 0 :=
  List.forall_mem_cons.mpr ⟨rfl, brace_space _⟩

/-- INTERNAL: a message whose strings leave braces open is not closed by its own brace. -/
theorem staysOpen_body (hopen : StaysOpen brace 1 (m.key ++ m.value))
    (hnet : 1 ≤ net brace (m.key ++ m.value)) :
    StaysOpen brace 1 m.body ∧ net brace m.body = net brace (m.key ++ m.value) - 1 := by
  have hgap := brace_afterValue m
  have hminus : brace 0x7d = -1 := rfl
  have hobject : net brace (objectText m) = net brace (m.key ++ m.value) := net_front m m.value hgap
  rw [body_eq_objectText, staysOpen_append, staysOpen_cons, staysOpen_of_zero (brace_space _),
    net_append, net_cons, net_eq_zero (brace_space _), hobject, hminus]
  exact ⟨⟨(staysOpen_front m m.value hgap).mpr hopen, by omega, by omega⟩, by omega⟩

theorem escaped_close (s rest : Bytes) :
    escaped (s ++ 0x7d :: rest) = escaped s ++ 0x7d :: escaped rest := by
  rw [escaped_append, escaped_cons]
  rfl

theorem readObject_of_strings {inner v rest : Bytes} (hrest : jsonStringBody rest = [])
    (h : inner ++ [0x7d] = keyField m (escaped m.key ++ 0x22 :: valueField m (escaped v ++ rest))) :
    readObject inner = (keyShown m m.key, valueShown m v) := by
  rw [readObject, h, extract_key m m.key _ (jsonStringBody_quote _), extract_value m v rest hrest]

/-- INTERNAL: the message that is read from an object with both its strings. -/
theorem shown_eq_iff (m : MessageText) {v rest : Bytes} (hvalue : m.value = v ++ rest)
    (hcut : rest ≠ [] → m.value ≠ []) :
    (keyShown m m.key, valueShown m v) = pair m ↔ rest = [] ∧
      (m.key = [] ∨ m.afterKeyName.IsBlank ∧ m.beforeKey.IsBlank ∧ ∀ c ∈ m.key, ¬IsControl c) ∧
      (m.value = [] ∨ ¬m.EndsWithName ∧ m.afterValueName.IsBlank ∧ m.beforeValue.IsBlank ∧
        ∀ c ∈ m.value, ¬IsControl c) := by
  have hkey := keyShown_eq_iff m (List.append_nil m.key).symm
  rw [pair, Prod.mk.injEq, hkey, valueShown_eq_iff m hvalue]
  by_cases hrest : rest = []
  · simp [hrest]
  · simp [hrest, hcut hrest]

section Step

variable {ms : List MessageText} {pre : Bytes} (hpre : 0x7b ∉ pre) {fuel : ℕ}
  (hrest : ∀ gap, 0x7b ∉ gap →
    (jsonObjects fuel (gap ++ tail s t ms) = ms.map pair ↔ AllReadable ms))

include hpre hrest

/-- INTERNAL: the key closes the object. -/
theorem jsonObjects_iff_of_key {k rest : Bytes} (hkey : m.key = k ++ 0x7d :: rest)
    (hopen : StaysOpen brace 1 k) (hnet : net brace k = 0) :
    jsonObjects (fuel + 1) (pre ++ 0x7b :: (m.body ++ tail s t ms)) = (m :: ms).map pair ↔
      AllReadable (m :: ms) := by
  have hbody : m.body ++ tail s t ms = keyField m (escaped k) ++ 0x7d :: (escaped rest ++
      0x22 :: valueField m (escaped m.value ++ 0x22 :: ending m) ++ tail s t ms) := by
    rw [body_eq, hkey, escaped_close, List.append_assoc, keyField_append]
    simp
  have hread : readObject (keyField m (escaped k)) = (keyShown m (k ++ [0x7d]), []) := by
    have hobject : keyField m (escaped k) ++ [0x7d] = keyField m (escaped (k ++ [0x7d]) ++ []) := by
      rw [escaped_close, escaped_nil, List.append_nil, keyField_append]
    rw [readObject, hobject, extract_key m _ [] rfl, List.append_nil, extract_value_of_cut]
  have hsplit : m.key ++ m.value = k ++ 0x7d :: (rest ++ m.value) := by
    rw [hkey, List.append_assoc, List.cons_append]
  have hkey' : m.key = (k ++ [0x7d]) ++ rest := by rw [hkey, List.append_assoc, List.singleton_append]
  have hne : m.key ≠ [] := by simp [hkey]
  rw [hbody, jsonObjects_of_closes hpre ((staysOpen_keyField m).mpr (staysOpen_escaped.mpr hopen))
    (by rw [net_keyField, net_escaped, hnet]), hread, List.map_cons, List.cons.injEq, pair,
    Prod.mk.injEq, keyShown_eq_iff m hkey', allReadable_cons]
  by_cases hend : rest ++ m.value = []
  · -- the brace is the last byte of the strings
    obtain ⟨hrestnil, hvalue⟩ := List.append_eq_nil_iff.mp hend
    have hgap : 0x7b ∉ escaped rest ++ 0x22 :: valueField m (escaped m.value ++ 0x22 :: ending m) := by
      rw [hrestnil, hvalue, valueField_eq]
      simp only [escaped_nil, List.nil_append, List.mem_append, List.mem_cons, not_or]
      exact ⟨not_or.mp fun h => open_not_mem_of_brace (brace_valueField m) (List.mem_cons.mpr h),
        by decide, open_not_mem_ending m⟩
    have hclose : m.key ++ m.value = k ++ [0x7d] := by rw [hsplit, hend]
    have htotal : net brace (m.key ++ m.value) = -1 := by
      rw [hclose, net_append, hnet]
      rfl
    rw [hrest _ hgap]
    constructor
    · rintro ⟨⟨hshown, -⟩, hms⟩
      refine ⟨⟨Or.inr (hshown.resolve_left hne).2, Or.inl hvalue, ?_, by omega⟩, fun _ => by omega, hms⟩
      rw [hclose]
      exact closes_of_close hopen
    · rintro ⟨hm, -, hms⟩
      exact ⟨⟨Or.inr ⟨hrestnil, hm.key.resolve_left hne⟩, hvalue.symm⟩, hms⟩
  · refine iff_of_false ?_ ?_
    · rintro ⟨⟨hshown, hvalue⟩, -⟩
      exact hend (by rw [(hshown.resolve_left hne).1, ← hvalue]; rfl)
    · rintro ⟨hm, -⟩
      have hcloses := hm.closes
      rw [hsplit] at hcloses
      exact not_closes hnet hend hcloses

/-- INTERNAL: the value closes the object. -/
theorem jsonObjects_iff_of_value {v rest : Bytes} (hvalue : m.value = v ++ 0x7d :: rest)
    (hopen : StaysOpen brace 1 (m.key ++ v)) (hnet : net brace (m.key ++ v) = 0) :
    jsonObjects (fuel + 1) (pre ++ 0x7b :: (m.body ++ tail s t ms)) = (m :: ms).map pair ↔
      AllReadable (m :: ms) := by
  have hnil : ∀ c ∈ ([] : Bytes), brace c = 0 := fun c hc => absurd hc List.not_mem_nil
  have hbody : m.body ++ tail s t ms =
      keyField m (escaped m.key ++ 0x22 :: valueField m (escaped v ++ [])) ++
        0x7d :: (escaped rest ++ 0x22 :: ending m ++ tail s t ms) := by
    rw [body_eq, hvalue, escaped_close, List.append_assoc, List.append_nil, valueField_append,
      ← List.cons_append, ← List.append_assoc, keyField_append]
    simp
  have hread : readObject (keyField m (escaped m.key ++ 0x22 :: valueField m (escaped v ++ []))) =
      (keyShown m m.key, valueShown m (v ++ [0x7d])) := by
    refine readObject_of_strings (m := m) (show jsonStringBody [] = [] from rfl) ?_
    rw [escaped_close, escaped_nil, List.append_nil, List.append_nil, valueField_append,
      ← keyField_append, List.append_assoc, List.cons_append]
  have hsplit : m.key ++ m.value = (m.key ++ v) ++ 0x7d :: rest := by rw [hvalue, List.append_assoc]
  have hvalue' : m.value = (v ++ [0x7d]) ++ rest := by
    rw [hvalue, List.append_assoc, List.singleton_append]
  have hne : m.value ≠ [] := by simp [hvalue]
  rw [hbody, jsonObjects_of_closes hpre ((staysOpen_front m v hnil).mpr hopen)
    (by rw [net_front m v hnil, hnet]), hread, List.map_cons, List.cons.injEq,
    shown_eq_iff m hvalue' fun _ => hne, allReadable_cons]
  by_cases hend : rest = []
  · -- the brace is the last byte of the strings
    have hgap : 0x7b ∉ escaped rest ++ 0x22 :: ending m := by
      rw [hend, escaped_nil, List.nil_append, List.mem_cons]
      exact not_or.mpr ⟨by decide, open_not_mem_ending m⟩
    have hclose : m.key ++ m.value = (m.key ++ v) ++ [0x7d] := by rw [hsplit, hend]
    have htotal : net brace (m.key ++ m.value) = -1 := by
      rw [hclose, net_append, hnet]
      rfl
    rw [hrest _ hgap]
    constructor
    · rintro ⟨⟨-, hk, hv⟩, hms⟩
      refine ⟨⟨hk, hv, ?_, by omega⟩, fun _ => by omega, hms⟩
      rw [hclose]
      exact closes_of_close hopen
    · rintro ⟨hm, -, hms⟩
      exact ⟨⟨hend, hm.key, hm.value⟩, hms⟩
  · refine iff_of_false (fun h => hend h.1.1) ?_
    rintro ⟨hm, -⟩
    have hcloses := hm.closes
    rw [hsplit] at hcloses
    exact not_closes hnet hend hcloses

/-- INTERNAL: the object ends at its own closing brace. -/
theorem jsonObjects_iff_of_balanced (hopen : StaysOpen brace 1 (m.key ++ m.value))
    (hnet : net brace (m.key ++ m.value) = 0) :
    jsonObjects (fuel + 1) (pre ++ 0x7b :: (m.body ++ tail s t ms)) = (m :: ms).map pair ↔
      AllReadable (m :: ms) := by
  have hgap := brace_afterValue m
  have hread : readObject (objectText m) = (keyShown m m.key, valueShown m m.value) :=
    readObject_of_strings (jsonStringBody_quote _) (objectText_append m [0x7d])
  have hobject : StaysOpen brace 1 (objectText m) := (staysOpen_front m m.value hgap).mpr hopen
  have hclosed : net brace (objectText m) = 0 := (net_front m m.value hgap).trans hnet
  rw [body_eq_objectText, List.append_assoc, List.cons_append,
    jsonObjects_of_closes hpre hobject hclosed, hread, List.map_cons, List.cons.injEq,
    shown_eq_iff m (List.append_nil m.value).symm (fun h => absurd rfl h),
    hrest _ (open_not_mem_space _), allReadable_cons]
  constructor
  · rintro ⟨⟨-, hk, hv⟩, hms⟩
    exact ⟨⟨hk, hv, closes_of_open hopen, by omega⟩, fun _ => by omega, hms⟩
  · rintro ⟨hm, -, hms⟩
    exact ⟨⟨rfl, hm.key, hm.value⟩, hms⟩

omit hrest in
/-- INTERNAL: an object that is still open at the end of its message takes in others, and then
too few are left. -/
theorem jsonObjects_ne_of_excess (hopen : StaysOpen brace 1 (m.key ++ m.value))
    (hnet : 1 ≤ net brace (m.key ++ m.value)) (hms : ms ≠ []) :
    jsonObjects (fuel + 1) (pre ++ 0x7b :: (m.body ++ tail s t ms)) ≠ (m :: ms).map pair := by
  intro hread
  obtain ⟨fuel', pre', inner, post, -, htext, hpre', hinner, hclosed, -, hxs⟩ := exists_object hread
  obtain ⟨front, hfront, hafter⟩ := exists_of_not_mem hpre htext.symm
  have hfront' : front = [] := by
    cases front with
    | nil => rfl
    | cons c front =>
      have hc : c = 0x7b := (List.cons.inj hafter).1
      rw [hfront, hc] at hpre'
      exact absurd (List.mem_append_right _ List.mem_cons_self) hpre'
  rw [hfront', List.nil_append, List.cons.injEq] at hafter
  have hclose : 0x7d :: post <:+ tail s t ms := by
    have hsuffix : 0x7d :: post <:+ m.body ++ tail s t ms := ⟨inner, hafter.2⟩
    rcases suffix_append_cases hsuffix with hclose | ⟨c, r, hr, hpost⟩
    · exact hclose
    · -- the object would end inside the message
      exfalso
      obtain ⟨rfl, rfl⟩ := List.cons.inj hpost
      have hbody : inner ++ 0x7d :: r = m.body := by
        have hwhole : inner ++ 0x7d :: r ++ tail s t ms = m.body ++ tail s t ms := by
          rw [← hafter.2]
          simp
        exact List.append_cancel_right hwhole
      have hpos := (staysOpen_body hopen hnet).1 (inner ++ [0x7d]) ⟨r, by rw [← hbody]; simp⟩
      have hminus : net brace [0x7d] = -1 := rfl
      rw [net_append, hclosed, hminus] at hpos
      omega
  rcases exists_of_close hclose with hclosing | ⟨m', ms', r, hms', hr, rfl⟩
  · rw [jsonObjects_of_closing hclosing] at hxs
    exact hms (List.map_eq_nil_iff.mp hxs)
  · exact jsonObjects_ne hr (hms'.map pair) fuel' hxs.symm

omit hrest in
/-- INTERNAL: the brace that closes the document closes the last message if that has left one
brace open. -/
theorem jsonObjects_iff_of_last (hopen : StaysOpen brace 1 (m.key ++ m.value))
    (hnet : 1 ≤ net brace (m.key ++ m.value)) :
    jsonObjects (fuel + 1) (pre ++ 0x7b :: (m.body ++ closing s t)) = [pair m] ↔ m.Readable := by
  obtain ⟨hbody, htotal⟩ := staysOpen_body hopen hnet
  have hspace : ∀ c ∈ 0x5d :: s.text, brace c = 0 :=
    List.forall_mem_cons.mpr ⟨rfl, brace_space s⟩
  have hclosing : m.body ++ closing s t = (m.body ++ 0x5d :: s.text) ++ 0x7d :: t.text := by
    simp [closing]
  have hinner : StaysOpen brace 1 (m.body ++ 0x5d :: s.text) := by
    rw [staysOpen_append, staysOpen_of_zero hspace]
    exact ⟨hbody, hbody.pos_add⟩
  have hdepth : net brace (m.body ++ 0x5d :: s.text) = net brace (m.key ++ m.value) - 1 := by
    rw [net_append, net_eq_zero hspace, htotal, Int.add_zero]
  rw [hclosing]
  by_cases hone : net brace (m.key ++ m.value) = 1
  · have hread : readObject (m.body ++ 0x5d :: s.text) = (keyShown m m.key, valueShown m m.value) := by
      apply readObject_of_strings (jsonStringBody_quote _)
      rw [body_eq_objectText, List.append_assoc, List.append_assoc]
      exact objectText_append m _
    rw [jsonObjects_of_closes hpre hinner (by omega), hread,
      jsonObjects_of_not_mem (open_not_mem_space t), List.cons.injEq,
      shown_eq_iff m (List.append_nil m.value).symm fun h => absurd rfl h]
    constructor
    · rintro ⟨⟨-, hk, hv⟩, -⟩
      exact ⟨hk, hv, closes_of_open hopen, by omega⟩
    · intro hm
      exact ⟨⟨rfl, hm.key, hm.value⟩, rfl⟩
  · refine iff_of_false ?_ fun hm => ?_
    · have hnever : StaysOpen brace 1 ((m.body ++ 0x5d :: s.text) ++ 0x7d :: t.text) := by
        have hminus : brace 0x7d = -1 := rfl
        rw [staysOpen_append, staysOpen_cons, staysOpen_of_zero (brace_space t), hdepth, hminus]
        exact ⟨hinner, by omega, by omega⟩
      rw [jsonObjects_of_open hpre hnever]
      simp
    · have hle := hm.opens
      omega

/-- INTERNAL: the strings of the message leave more objects open than their own. -/
theorem jsonObjects_iff_of_excess (hopen : StaysOpen brace 1 (m.key ++ m.value))
    (hnet : 1 ≤ net brace (m.key ++ m.value)) :
    jsonObjects (fuel + 1) (pre ++ 0x7b :: (m.body ++ tail s t ms)) = (m :: ms).map pair ↔
      AllReadable (m :: ms) := by
  rw [allReadable_cons]
  by_cases hms : ms = []
  · subst hms
    have hlast : jsonObjects (fuel + 1) (pre ++ 0x7b :: (m.body ++ tail s t [])) = [pair m] ↔
        m.Readable := jsonObjects_iff_of_last hpre hopen hnet
    have hnone : AllReadable [] := by simp [AllReadable]
    simpa [hnone] using hlast
  · refine iff_of_false (jsonObjects_ne_of_excess hpre hopen hnet hms) ?_
    rintro ⟨-, hle, -⟩
    have hle := hle hms
    omega

/-- INTERNAL: **the step of the argument**, from one message to those that follow it. -/
theorem jsonObjects_iff_cons :
    jsonObjects (fuel + 1) (pre ++ 0x7b :: (m.body ++ tail s t ms)) = (m :: ms).map pair ↔
      AllReadable (m :: ms) := by
  by_cases hopen : StaysOpen brace 1 (m.key ++ m.value)
  · have hpos := hopen.pos_add
    by_cases hnet : net brace (m.key ++ m.value) = 0
    · exact jsonObjects_iff_of_balanced hpre hrest hopen hnet
    · exact jsonObjects_iff_of_excess hpre hrest hopen (by omega)
  · obtain ⟨inner, rest, hsplit, hinner, hnet⟩ := exists_closes hopen
    rcases List.append_eq_append_iff.mp hsplit with ⟨v, hv, hvalue⟩ | ⟨k, hkey, hk⟩
    · rw [hv] at hinner hnet
      exact jsonObjects_iff_of_value hpre hrest hvalue hinner hnet
    · cases k with
      | nil =>
        rw [List.append_nil] at hkey
        rw [List.nil_append] at hk
        refine jsonObjects_iff_of_value hpre hrest (v := []) hk.symm ?_ ?_
        · rw [List.append_nil, hkey]
          exact hinner
        · rw [List.append_nil, hkey]
          exact hnet
      | cons c k =>
        obtain ⟨rfl, -⟩ := List.cons.inj hk
        exact jsonObjects_iff_of_key hpre hrest hkey hinner hnet

end Step

/-- INTERNAL: **what is read of the messages behind the first one.** -/
theorem jsonObjects_iff (ms : List MessageText) {fuel : ℕ} (hfuel : ms.length ≤ fuel) {gap : Bytes}
    (hgap : 0x7b ∉ gap) :
    jsonObjects fuel (gap ++ tail s t ms) = ms.map pair ↔ AllReadable ms := by
  induction ms generalizing fuel gap with
  | nil =>
    have hnone : 0x7b ∉ gap ++ tail s t [] := by
      rw [List.mem_append]
      exact not_or.mpr ⟨hgap, open_not_mem_closing s t⟩
    rw [jsonObjects_of_not_mem hnone]
    simp [AllReadable]
  | cons m ms ih =>
    obtain ⟨fuel, rfl⟩ := Nat.exists_eq_add_of_lt (show 0 < fuel by rw [List.length_cons] at hfuel; omega)
    rw [List.length_cons] at hfuel
    have hpre : 0x7b ∉ gap ++ 0x2c :: m.beforeObject.text := by
      rw [List.mem_append, List.mem_cons]
      exact not_or.mpr ⟨hgap, not_or.mpr ⟨by decide, open_not_mem_space _⟩⟩
    rw [tail_cons, ← List.append_assoc, Nat.zero_add]
    exact jsonObjects_iff_cons hpre fun gap hgap => ih (by omega) hgap

end Document

/-! ## The document -/

theorem elements_cons (m : MessageText) (ms : List MessageText) :
    MessagesText.elements (m :: ms) = m.beforeObject.text ++ 0x7b :: (m.body ++ ms.flatMap unit) := by
  have hbrace : ascii "\x7b" = [0x7b] := rfl
  have hcomma : ascii "," = [0x2c] := rfl
  have hunit : (fun m : MessageText => ascii "," ++ m.text) = unit := by
    funext m
    simp only [MessageText.text, unit, hbrace, hcomma, List.append_assoc, List.singleton_append]
  rw [MessagesText.elements, MessageText.text, hunit, hbrace]
  simp only [List.append_assoc, List.cons_append, List.nil_append]

theorem length_le_elements (ms : List MessageText) :
    ms.length ≤ (MessagesText.elements ms).length := by
  cases ms with
  | nil => exact Nat.zero_le _
  | cons m ms =>
    have hne : ∀ m ∈ ms, unit m ≠ [] := fun m _ => List.cons_ne_nil _ _
    have hle := length_le_length_flatMap hne
    rw [elements_cons]
    simp only [List.length_append, List.length_cons]
    omega

/-- INTERNAL: the messages are looked for from the bracket of their array on. -/
theorem jsonExtractMessages_text (t : MessagesText) :
    ∃ fuel, t.messages.length ≤ fuel ∧ jsonExtractMessages t.text = jsonObjects fuel
      (t.inArray.text ++ MessagesText.elements t.messages ++ closing t.afterArray t.afterDocument) := by
  obtain ⟨front, hfront, hquote⟩ : ∃ front : Bytes,
      front = t.beforeDocument.text ++ 0x7b :: t.beforeName.text ∧ 0x22 ∉ front := by
    refine ⟨_, rfl, ?_⟩
    rw [List.mem_append, List.mem_cons]
    exact not_or.mpr ⟨quote_not_mem_space _, not_or.mpr ⟨by decide, quote_not_mem_space _⟩⟩
  obtain ⟨name, hname, hbracket⟩ : ∃ name : Bytes, name = ascii "\"messages\"" ++
      t.afterName.text ++ 0x3a :: t.beforeArray.text ∧ 0x5b ∉ name := by
    have hspace : ∀ s : JsonSpace, 0x5b ∉ s.text := fun s hs => absurd (s.isSpace _ hs) (by decide)
    refine ⟨_, rfl, ?_⟩
    simp only [List.mem_append, List.mem_cons, hspace, or_false]
    decide
  obtain ⟨rest, hrest⟩ : ∃ rest : Bytes, rest = t.inArray.text ++
      MessagesText.elements t.messages ++ closing t.afterArray t.afterDocument := ⟨_, rfl⟩
  have htext : t.text = front ++ (name ++ 0x5b :: rest) := by
    have hbrace : ascii "\x7b" = [0x7b] := rfl
    have hcolon : ascii ":" = [0x3a] := rfl
    have hopen : ascii "[" = [0x5b] := rfl
    have hclose : ascii "]" = [0x5d] := rfl
    have hend : ascii "\x7d" = [0x7d] := rfl
    rw [hfront, hname, hrest, MessagesText.text, closing, hbrace, hcolon, hopen, hclose, hend]
    simp only [List.append_assoc, List.cons_append, List.nil_append]
  have hfind : findSub (ascii "\"messages\"") t.text = some front.length := by
    have hpattern : ascii "\"messages\"" = 0x22 :: (ascii "messages\"") := rfl
    rw [htext, hpattern, findSub_append_of_not_mem hquote, ← hpattern, findSub_of_isPrefix,
      Option.map_some, Nat.add_zero]
    rw [hname, List.append_assoc, List.append_assoc]
    exact List.prefix_append _ _
  have hdrop : t.text.drop front.length = name ++ 0x5b :: rest := by
    rw [htext, List.drop_left]
  have harray : findSub [0x5b] (name ++ 0x5b :: rest) = some name.length := by
    rw [findSub_append_of_not_mem hbracket, findSub_of_isPrefix (by simp), Option.map_some,
      Nat.add_zero]
  have hinside : (name ++ 0x5b :: rest).drop (name.length + 1) = rest := by
    rw [← List.drop_drop, List.drop_left]
    rfl
  refine ⟨(name ++ 0x5b :: rest).length, ?_, ?_⟩
  · have hle : t.messages.length ≤ (MessagesText.elements t.messages).length := length_le_elements _
    rw [hrest]
    simp only [List.length_append, List.length_cons]
    omega
  · rw [← hrest]
    simp only [jsonExtractMessages, hfind, hdrop, harray, hinside]

/-- PROPERTY: **which lists of messages come back from their JSON.** For every list of messages
and every JSON text of it, the REST producer reads exactly that list if and only if every
message is readable and only the last one leaves a brace open.
SOURCE: http/http_server.cpp:853-922, http/http_server.h:79-100 -/
theorem messages_read_back_iff (t : MessagesText) :
    jsonExtractMessages t.text = t.messages.map (fun m => (m.key, m.value)) ↔
      (∀ m ∈ t.messages, m.Readable) ∧
        ∀ m ∈ t.messages.dropLast, net brace (m.key ++ m.value) ≤ 0 := by
  obtain ⟨fuel, hfuel, hread⟩ := jsonExtractMessages_text t
  rw [hread]
  cases hms : t.messages with
  | nil =>
    have hnone : 0x7b ∉ t.inArray.text ++ MessagesText.elements [] ++
        closing t.afterArray t.afterDocument := by
      simp only [MessagesText.elements, List.append_nil, List.mem_append, not_or]
      exact ⟨open_not_mem_space _, open_not_mem_closing _ _⟩
    rw [jsonObjects_of_not_mem hnone]
    simp
  | cons m ms =>
    rw [hms, List.length_cons] at hfuel
    obtain ⟨fuel, rfl⟩ := Nat.exists_eq_add_of_lt (show 0 < fuel by omega)
    have hpre : 0x7b ∉ t.inArray.text ++ m.beforeObject.text := by
      rw [List.mem_append]
      exact not_or.mpr ⟨open_not_mem_space _, open_not_mem_space _⟩
    have htext : t.inArray.text ++ MessagesText.elements (m :: ms) ++
        closing t.afterArray t.afterDocument = (t.inArray.text ++ m.beforeObject.text) ++
          0x7b :: (m.body ++ tail t.afterArray t.afterDocument ms) := by
      rw [elements_cons, tail]
      simp
    rw [htext, Nat.zero_add]
    exact jsonObjects_iff_cons hpre fun gap hgap => jsonObjects_iff ms (by omega) hgap

/-- A value with a closing brace inside is cut off at the brace, a key that is the word `value`
hides the value, a control character comes back as the digits of its escape, a tab in front of
the value hides it, and a brace left open in one message takes in the next one. -/
theorem strings_are_taken_for_structure :
    jsonExtractMessages (MessagesText.text
      { messages := [{ key := ascii "k", value := ascii "a\x7db" }] }) =
        [(ascii "k", ascii "a\x7d")] ∧
    jsonExtractMessages (MessagesText.text
      { messages := [{ key := ascii "value", value := ascii "v" }] }) =
        [(ascii "value", [])] ∧
    jsonExtractMessages (MessagesText.text
      { messages := [{ key := ascii "k", value := [0x01] }] }) =
        [(ascii "k", ascii "u0001")] ∧
    jsonExtractMessages (MessagesText.text
      { messages := [{ key := ascii "k", value := ascii "v",
                       beforeValue := { text := [0x09] } }] }) =
        [(ascii "k", [])] ∧
    jsonExtractMessages (MessagesText.text
      { messages := [{ key := ascii "k", value := ascii "\x7b" },
                     { key := ascii "l", value := ascii "w" }] }) =
        [(ascii "k", ascii "\x7b")] := by
  decide +kernel

end StrikeMQ.Analysis.JsonMessages
