import StrikeMQ.Lib.FiniteMap
import StrikeMQ.Interface.RequestHead
import StrikeMQ.Analysis.HttpParsing

/-!
# The header lines of a request

`process_request` hands `parse_headers` what stands between the end of the request line and the
empty line, without the line end of the last header. `parse_headers` takes a line only when it
sees the line end behind it. So the last header line is never read: the map holds what the lines
before it say. A value that is empty is kept as the space in front of it.

For a request without headers the slice is not bounded by the empty line, but it begins with one,
and nothing is read.
-/

set_option autoImplicit false

namespace StrikeMQ.Analysis.HeaderLines

open StrikeMQ.Lib StrikeMQ.Model StrikeMQ.Model.HttpServer StrikeMQ.Interface
open StrikeMQ.Analysis.HttpParsing

/-! ## One line -/

theorem cr_notMem_text (l : HeaderLine) : (0x0d : UInt8) ∉ l.text := by
  simp only [HeaderLine.text, List.mem_append, List.mem_cons, not_or]
  exact ⟨l.name_plain.2.1, by decide, by decide, l.value_plain.1⟩

theorem text_ne_nil (l : HeaderLine) : l.text ≠ [] :=
  List.append_ne_nil_of_right_ne_nil _ (List.cons_ne_nil _ _)

/-- INTERNAL: the value as it is stored. -/
def storedValue (l : HeaderLine) : Bytes :=
  if l.value = [] then [0x20] else l.value

/-- INTERNAL: a header line is stored under its key. -/
theorem parseHeaderLine_text (headers : StringMap) (l : HeaderLine) :
    parseHeaderLine headers l.text = headers.insert l.key (storedValue l) := by
  have hcolon : findSub [0x3a] l.text = some l.name.length := by
    have hfront : [0x3a] <+: 0x3a :: 0x20 :: l.value := List.prefix_append [0x3a] _
    rw [HeaderLine.text, findSub_append_of_not_mem l.name_plain.1, findSub_of_isPrefix hfront]
    rfl
  have hval : l.text.drop (l.name.length + 1) = 0x20 :: l.value := by
    rw [HeaderLine.text, ← List.drop_drop, List.drop_left' rfl]
    rfl
  have htrim : (0x20 :: l.value).dropWhile (· = (0x20 : UInt8)) = l.value := by
    cases hv : l.value with
    | nil => rfl
    | cons c cs =>
      have hc : c ≠ 0x20 := by
        intro h
        apply l.value_trimmed
        rw [hv, h]
        rfl
      simp [hc]
  have hname : l.text.take l.name.length = l.name := List.take_left' rfl
  have hstored : (if l.value = [] then 0x20 :: l.value else l.value) = storedValue l := by
    unfold storedValue
    by_cases hv : l.value = []
    · rw [if_pos hv, if_pos hv, hv]
    · rw [if_neg hv, if_neg hv]
  simp only [parseHeaderLine, hcolon, hval, htrim, hname, hstored]
  rfl

/-! ## The slice -/

/-- INTERNAL: all lines but the last are read. -/
theorem parseHeaders_lines (l : HeaderLine) (ls : List HeaderLine) (headers : StringMap)
    {fuel : ℕ} (hfuel : ls.length < fuel) :
    parseHeaders fuel (l.text ++ ls.flatMap fun l => crlf ++ l.text) headers =
      (l :: ls).dropLast.foldl (fun headers l => headers.insert l.key (storedValue l)) headers := by
  induction ls generalizing l headers fuel with
  | nil =>
    obtain ⟨fuel, rfl⟩ : ∃ n, fuel = n + 1 := ⟨fuel - 1, by omega⟩
    rw [parseHeaders, List.flatMap_nil, List.append_nil, crlf,
      findSub_eq_none_of_not_mem (cr_notMem_text l)]
    rfl
  | cons l' ls ih =>
    rw [List.length_cons] at hfuel
    obtain ⟨fuel, rfl⟩ : ∃ n, fuel = n + 1 := ⟨fuel - 1, by omega⟩
    have hblock : l.text ++ (l' :: ls).flatMap (fun l => crlf ++ l.text) =
        l.text ++ (crlf ++ (l'.text ++ ls.flatMap fun l => crlf ++ l.text)) := by
      simp only [List.flatMap_cons, List.append_assoc]
    have heol : findSub crlf (l.text ++ (crlf ++ (l'.text ++ ls.flatMap fun l => crlf ++ l.text))) =
        some l.text.length := by
      have hfront := findSub_append_of_not_mem (cr_notMem_text l) [0x0a]
        (crlf ++ (l'.text ++ ls.flatMap fun l => crlf ++ l.text))
      rw [crlf] at hfront ⊢
      rw [hfront, findSub_of_isPrefix (List.prefix_append _ _)]
      rfl
    have hpos : l.text.length ≠ 0 := fun h => text_ne_nil l (List.length_eq_zero_iff.mp h)
    have hrest : (l.text ++ (crlf ++ (l'.text ++ ls.flatMap fun l => crlf ++ l.text))).drop
        (l.text.length + 2) = l'.text ++ ls.flatMap fun l => crlf ++ l.text := by
      rw [← List.drop_drop, List.drop_left' rfl]
      rfl
    rw [hblock, parseHeaders, heol]
    simp only
    rw [if_neg hpos, hrest, List.take_left' rfl, parseHeaderLine_text, ih l' _ (by omega),
      List.dropLast_cons_of_ne_nil (List.cons_ne_nil _ _), List.foldl_cons]

theorem length_le_flatMap_lines (ls : List HeaderLine) :
    ls.length ≤ (ls.flatMap fun l => crlf ++ l.text).length := by
  induction ls with
  | nil => exact le_rfl
  | cons l ls ih =>
    have hcrlf : crlf.length = 2 := rfl
    rw [List.flatMap_cons, List.length_append, List.length_append, List.length_cons]
    omega

theorem findSub_crlf_wire (h : RequestHead) (rest : Bytes) :
    findSub crlf (h.wire rest) = some h.requestLine.length := by
  have hfront : [0x0d, 0x0a] <+: (h.lines.flatMap fun l => crlf ++ l.text) ++
      ((crlf ++ crlf) ++ rest) := by
    cases h.lines with
    | nil => exact ⟨crlf ++ rest, rfl⟩
    | cons l ls =>
      rw [List.flatMap_cons, List.append_assoc, List.append_assoc]
      exact List.prefix_append crlf _
  rw [RequestHead.wire, RequestHead.text, List.append_assoc, List.append_assoc, crlf,
    findSub_append_of_not_mem h.requestLine_plain.1]
  rw [crlf] at hfront
  rw [findSub_of_isPrefix hfront]
  rfl

/-- INTERNAL: a line end with a header line behind it is no empty line. -/
theorem not_isPrefix_line (l : HeaderLine) (rest : Bytes) :
    ¬ crlf ++ crlf <+: 0x0d :: 0x0a :: (l.text ++ rest) := by
  obtain ⟨c, cs, hc⟩ := List.exists_cons_of_ne_nil (text_ne_nil l)
  have hne : (0x0d : UInt8) ≠ c := by
    rintro rfl
    exact cr_notMem_text l (hc ▸ List.mem_cons_self)
  intro hfront
  rw [hc, List.cons_append] at hfront
  have hthird := (List.cons_prefix_cons.mp (List.cons_prefix_cons.mp hfront).2).2
  exact hne (List.cons_prefix_cons.mp hthird).1

/-- INTERNAL: the first empty line is the one behind the last header. -/
theorem findSub_lines (ls : List HeaderLine) (rest : Bytes) :
    findSub (crlf ++ crlf) ((ls.flatMap fun l => crlf ++ l.text) ++ ((crlf ++ crlf) ++ rest)) =
      some (ls.flatMap fun l => crlf ++ l.text).length := by
  induction ls with
  | nil => exact findSub_of_isPrefix (List.prefix_append _ _)
  | cons l ls ih =>
    have hlayout : ((l :: ls).flatMap fun l => crlf ++ l.text) ++ ((crlf ++ crlf) ++ rest) =
        0x0d :: 0x0a :: (l.text ++
          ((ls.flatMap fun l => crlf ++ l.text) ++ ((crlf ++ crlf) ++ rest))) := by
      rw [List.flatMap_cons, List.append_assoc, List.append_assoc]
      rfl
    have hlater : findSub (crlf ++ crlf) (0x0a :: (l.text ++
          ((ls.flatMap fun l => crlf ++ l.text) ++ ((crlf ++ crlf) ++ rest)))) =
        some (l.text.length + (ls.flatMap fun l => crlf ++ l.text).length + 1) := by
      have hskip := findSub_append_of_not_mem (cr_notMem_text l) [0x0a, 0x0d, 0x0a]
        ((ls.flatMap fun l => crlf ++ l.text) ++ ((crlf ++ crlf) ++ rest))
      have hpat : crlf ++ crlf = [0x0d, 0x0a, 0x0d, 0x0a] := rfl
      rw [hpat] at ih ⊢
      rw [hpat] at hskip
      rw [findSub_cons_of_ne (by decide), hskip, ih]
      rfl
    have hlen : ((l :: ls).flatMap fun l => crlf ++ l.text).length =
        l.text.length + (ls.flatMap fun l => crlf ++ l.text).length + 1 + 1 := by
      rw [List.flatMap_cons, List.length_append, List.length_append]
      have hcrlf : crlf.length = 2 := rfl
      omega
    rw [hlayout, findSub, if_neg (not_isPrefix_line l _), hlater, hlen]
    rfl

theorem findSub_wire (h : RequestHead) (rest : Bytes) :
    findSub (crlf ++ crlf) (h.wire rest) = some h.text.length := by
  have hskip := findSub_append_of_not_mem h.requestLine_plain.1 [0x0a, 0x0d, 0x0a]
    ((h.lines.flatMap fun l => crlf ++ l.text) ++ ((crlf ++ crlf) ++ rest))
  have hlines := findSub_lines h.lines rest
  have hpat : crlf ++ crlf = [0x0d, 0x0a, 0x0d, 0x0a] := rfl
  rw [RequestHead.wire, RequestHead.text, List.append_assoc, List.append_assoc, List.length_append]
  rw [hpat] at hlines hskip ⊢
  rw [hskip, hlines]
  rfl

/-- INTERNAL: the headers that are found: those of all lines but the last. -/
theorem parseHeaders_wire (h : RequestHead) (rest : Bytes) (hsize : h.text.length < 2 ^ 64) :
    parseHeaders (headerBlock (h.wire rest) h.text.length h.requestLine.length).length
        (headerBlock (h.wire rest) h.text.length h.requestLine.length) ∅ =
      h.lines.dropLast.foldl (fun headers l => headers.insert l.key (storedValue l)) ∅ := by
  cases hlines : h.lines with
  | nil =>
    have htext : h.text = h.requestLine := by
      rw [RequestHead.text, hlines, List.flatMap_nil, List.append_nil]
    have hend := findSub_wire h rest
    rw [htext] at hend ⊢
    rw [parseHeaders_of_crlf (crlf_isPrefix_headerBlock hend)]
    rfl
  | cons l ls =>
    have htext : h.text = h.requestLine ++ (crlf ++ (l.text ++ ls.flatMap fun l => crlf ++ l.text)) := by
      rw [RequestHead.text, hlines, List.flatMap_cons, List.append_assoc]
    have hlen : h.text.length = h.requestLine.length + 2 +
        (l.text ++ ls.flatMap fun l => crlf ++ l.text).length := by
      rw [htext, List.length_append, List.length_append]
      have hcrlf : crlf.length = 2 := rfl
      omega
    have hword : toUInt64 ((h.text.length : ℤ) - h.requestLine.length - 2) =
        (l.text ++ ls.flatMap fun l => crlf ++ l.text).length := by
      unfold toUInt64
      omega
    have hblock : headerBlock (h.wire rest) h.text.length h.requestLine.length =
        l.text ++ ls.flatMap fun l => crlf ++ l.text := by
      have hwire : h.wire rest = h.requestLine ++ (crlf ++
          ((l.text ++ ls.flatMap fun l => crlf ++ l.text) ++ ((crlf ++ crlf) ++ rest))) := by
        rw [RequestHead.wire, htext]
        simp only [List.append_assoc]
      rw [headerBlock, hword, slice, hwire, ← List.drop_drop, List.drop_left' rfl]
      exact List.take_left' rfl
    have hcount := length_le_flatMap_lines ls
    have hpos := List.length_pos_iff.mpr (text_ne_nil l)
    rw [hblock, parseHeaders_lines l ls ∅ (by rw [List.length_append]; omega)]

/-! ## What is read -/

/-- INTERNAL: what is stored of a value determines it, since no value starts with a space. -/
theorem storedValue_eq_iff (l l' : HeaderLine) :
    storedValue l = l'.value ↔ l.value = l'.value ∧ l'.value ≠ [] := by
  unfold storedValue
  by_cases hv : l.value = []
  · rw [if_pos hv, hv]
    refine iff_of_false ?_ ?_
    · intro h
      apply l'.value_trimmed
      rw [← h]
      rfl
    · rintro ⟨h, hne⟩
      exact hne h.symm
  · rw [if_neg hv]
    refine ⟨fun h => ⟨h, h ▸ hv⟩, fun h => h.1⟩

/-- INTERNAL: a name is found in the map with the value that is stored of its last line but one
of all lines. -/
theorem lookup_parsed (h : RequestHead) (rest : Bytes) (hsize : h.text.length < 2 ^ 64)
    (key : Bytes) :
    (parseHeaders (headerBlock (h.wire rest) h.text.length h.requestLine.length).length
        (headerBlock (h.wire rest) h.text.length h.requestLine.length) ∅).lookup key =
      (h.lines.dropLast.filter fun l => l.key = key).getLast?.map storedValue := by
  rw [parseHeaders_wire h rest hsize, lookup_foldl_insert, AList.lookup_empty, Option.or_none]

theorem exists_of_valueOf {lines : List HeaderLine} {key v : Bytes}
    (h : HeaderLine.valueOf lines key = some v) :
    ∃ l, (lines.filter fun l => l.key = key).getLast? = some l ∧ l.value = v :=
  Option.map_eq_some_iff.mp h

/-- PROPERTY: **of the head of any request, followed by anything, `parse_headers` is given a slice
of which it makes the map of all header lines if and only if the last header line changes nothing:
each name has the value that the lines before it give it, and none of these is empty.** In
particular there may be no line at all.
SOURCE: http/http_server.cpp:92-112, 385-403 -/
theorem headers_read_iff (h : RequestHead) (rest : Bytes) (hsize : h.text.length < 2 ^ 64) :
    ∃ headerEnd firstEol, findSub (crlf ++ crlf) (h.wire rest) = some headerEnd ∧
      findSub crlf (h.wire rest) = some firstEol ∧
      ((∀ key, (parseHeaders (headerBlock (h.wire rest) headerEnd firstEol).length
          (headerBlock (h.wire rest) headerEnd firstEol) ∅).lookup key =
            HeaderLine.valueOf h.lines key) ↔
        ∀ key v, HeaderLine.valueOf h.lines key = some v →
          v ≠ [] ∧ HeaderLine.valueOf h.lines.dropLast key = some v) := by
  refine ⟨h.text.length, h.requestLine.length, findSub_wire h rest, findSub_crlf_wire h rest, ?_⟩
  simp only [lookup_parsed h rest hsize]
  constructor
  · intro hread key v hv
    obtain ⟨l', -, rfl⟩ := exists_of_valueOf hv
    have hstored := hread key
    rw [hv] at hstored
    obtain ⟨l, hl, heq⟩ := Option.map_eq_some_iff.mp hstored
    obtain ⟨hvalue, hne⟩ := (storedValue_eq_iff l l').mp heq
    refine ⟨hne, ?_⟩
    rw [HeaderLine.valueOf, hl, Option.map_some, hvalue]
  · intro hlast key
    cases hv : HeaderLine.valueOf h.lines key with
    | some v =>
      obtain ⟨hne, hbefore⟩ := hlast key v hv
      obtain ⟨l, hl, rfl⟩ := exists_of_valueOf hbefore
      rw [hl, Option.map_some, (storedValue_eq_iff l l).mpr ⟨rfl, hne⟩]
    | none =>
      -- a name that no line has is not among the first lines either
      have hnone : (h.lines.filter fun l => l.key = key) = [] :=
        List.getLast?_eq_none_iff.mp (Option.map_eq_none_iff.mp hv)
      have hsub := h.lines.dropLast_sublist.filter fun l => decide (l.key = key)
      rw [hnone] at hsub
      rw [List.sublist_nil.mp hsub]
      rfl

/-- A request that tells the length of its body twice, the second time last. -/
def repeatingHead : RequestHead where
  requestLine := ascii "POST /v1/topics/t/messages HTTP/1.1"
  lines :=
    [⟨ascii "Content-Length", ascii "4", by decide, by decide, by decide⟩,
      ⟨ascii "Host", ascii "a", by decide, by decide, by decide⟩,
      ⟨ascii "content-length", ascii "4", by decide, by decide, by decide⟩]
  requestLine_plain := by decide

theorem headers_read_iff_repeated :
    ∃ headerEnd firstEol,
      findSub (crlf ++ crlf) (repeatingHead.wire (ascii "body")) = some headerEnd ∧
      findSub crlf (repeatingHead.wire (ascii "body")) = some firstEol ∧
      ∀ key, (parseHeaders (headerBlock (repeatingHead.wire (ascii "body")) headerEnd firstEol).length
        (headerBlock (repeatingHead.wire (ascii "body")) headerEnd firstEol) ∅).lookup key =
          HeaderLine.valueOf repeatingHead.lines key := by
  obtain ⟨headerEnd, firstEol, hend, heol, hiff⟩ :=
    headers_read_iff repeatingHead (ascii "body") (by decide)
  have hlines : ∀ l ∈ repeatingHead.lines,
      HeaderLine.valueOf repeatingHead.lines l.key ≠ some [] ∧
      HeaderLine.valueOf repeatingHead.lines.dropLast l.key =
        HeaderLine.valueOf repeatingHead.lines l.key := by
    decide +kernel
  refine ⟨headerEnd, firstEol, hend, heol, hiff.mpr fun key v hv => ?_⟩
  obtain ⟨l, hl, -⟩ := exists_of_valueOf hv
  obtain ⟨hmem, hkey⟩ := List.mem_filter.mp (List.mem_of_getLast? hl)
  obtain ⟨hne, hsame⟩ := hlines l hmem
  rw [of_decide_eq_true hkey, hv] at hne hsame
  exact ⟨fun h => hne (congrArg some h), hsame⟩

/-- A POST whose one header tells the length of its body. -/
def postHead : RequestHead where
  requestLine := ascii "POST /v1/topics/t/messages HTTP/1.1"
  lines := [⟨ascii "Content-Length", ascii "4", by decide, by decide, by decide⟩]
  requestLine_plain := by decide

/-- The body of a complete request, and the length that its headers tell. -/
def bodyAndLength : Parsed → Option (Bytes × Option Bytes)
  | .complete req => some (req.body, req.headers.lookup (ascii "content-length"))
  | _ => none

/-- The length that the one header tells is not seen, and the request has no body. -/
theorem last_header_is_not_read :
    HeaderLine.valueOf postHead.lines (ascii "content-length") = some (ascii "4") ∧
      bodyAndLength (parseRequest (postHead.wire (ascii "body"))) = some ([], none) := by
  decide +kernel

end StrikeMQ.Analysis.HeaderLines
