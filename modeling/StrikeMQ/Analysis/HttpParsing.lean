import StrikeMQ.Interface.Messages
import StrikeMQ.Analysis.SessionRuns

/-!
# Parsing a request of which more bytes may come

`process_request` parses the whole buffer each time bytes have arrived. Once it has come to a
result, further bytes do not change it: the first empty line stays where it is, the head lies
before it, and the body is counted from it. The one slice that is not bounded by the empty
line, taken when there is no header at all, begins with a line end and holds no header.

From this follows what the server makes of a message of which only a part has arrived.
-/

set_option autoImplicit false

namespace StrikeMQ.Analysis.HttpParsing

open StrikeMQ.Lib StrikeMQ.Model StrikeMQ.Model.HttpServer StrikeMQ.Interface
open StrikeMQ.Analysis.ByteQueue StrikeMQ.Analysis.SessionRuns

/-! ## More bytes behind the data -/

/-- INTERNAL: the first line ends at the empty line or a whole line end before it. -/
theorem firstEol_eq_or_le {data : Bytes} {headerEnd firstEol : ℕ}
    (hend : findSub (crlf ++ crlf) data = some headerEnd)
    (heol : findSub crlf data = some firstEol) :
    firstEol = headerEnd ∨ firstEol + 2 ≤ headerEnd := by
  have hcrlf : crlf <+: data.drop headerEnd :=
    (List.prefix_append crlf crlf).trans (isPrefix_drop_of_findSub hend)
  obtain ⟨j, hle, hj⟩ := exists_findSub_of_isPrefix_drop hcrlf (by decide)
  obtain rfl : firstEol = j := Option.some.inj (heol.symm.trans hj)
  -- a line end cannot start at the second byte of another one
  have hne : headerEnd ≠ firstEol + 1 := by
    rintro rfl
    obtain ⟨rest, hrest⟩ := isPrefix_drop_of_findSub heol
    rw [← List.drop_drop, ← hrest] at hcrlf
    obtain ⟨rest', hrest'⟩ := hcrlf
    exact absurd (List.cons.inj hrest').1 (by decide)
  omega

theorem parseHeaders_of_crlf {block : Bytes} (h : crlf <+: block) (fuel : ℕ)
    (headers : StringMap) : parseHeaders fuel block headers = headers := by
  cases fuel with
  | zero => rfl
  | succ fuel =>
    rw [parseHeaders, findSub_of_isPrefix h]
    rfl

/-- The bytes that `parse_headers` is given. -/
def headerBlock (data : Bytes) (headerEnd firstEol : ℕ) : Bytes :=
  slice data (firstEol + 2) (toUInt64 ((headerEnd : ℤ) - firstEol - 2))

/-- INTERNAL: without any header the slice begins with the second of the closing line ends. -/
theorem crlf_isPrefix_headerBlock {data : Bytes} {headerEnd : ℕ}
    (hend : findSub (crlf ++ crlf) data = some headerEnd) :
    crlf <+: headerBlock data headerEnd headerEnd := by
  obtain ⟨rest, hrest⟩ := isPrefix_drop_of_findSub hend
  have hwrap : toUInt64 ((headerEnd : ℤ) - headerEnd - 2) = 2 + (2 ^ 64 - 4) := by
    rw [sub_self]
    decide
  rw [headerBlock, slice, ← List.drop_drop, ← hrest, hwrap, List.append_assoc,
    List.drop_left' (by rfl), List.prefix_take_iff]
  exact ⟨List.prefix_append _ _, Nat.le_add_right 2 _⟩

/-- INTERNAL: the headers that are found do not depend on what follows the data. -/
theorem parseHeaders_headerBlock_append {data : Bytes} {headerEnd firstEol : ℕ}
    (hend : findSub (crlf ++ crlf) data = some headerEnd)
    (heol : findSub crlf data = some firstEol) (more : Bytes) (headers : StringMap) :
    parseHeaders (headerBlock (data ++ more) headerEnd firstEol).length
        (headerBlock (data ++ more) headerEnd firstEol) headers =
      parseHeaders (headerBlock data headerEnd firstEol).length
        (headerBlock data headerEnd firstEol) headers := by
  cases firstEol_eq_or_le hend heol with
  | inl heq =>
    subst heq
    rw [parseHeaders_of_crlf (crlf_isPrefix_headerBlock hend),
      parseHeaders_of_crlf (crlf_isPrefix_headerBlock (findSub_append hend more))]
  | inr hle =>
    have hbound := add_length_le_of_findSub hend (by decide)
    have hslice : toUInt64 ((headerEnd : ℤ) - firstEol - 2) ≤ headerEnd - firstEol - 2 := by
      unfold toUInt64
      omega
    have hsame : headerBlock (data ++ more) headerEnd firstEol =
        headerBlock data headerEnd firstEol :=
      slice_append_left data more _ _ (by omega)
    rw [hsame]

theorem parseHead_append {data : Bytes} {headerEnd firstEol : ℕ}
    (hend : findSub (crlf ++ crlf) data = some headerEnd)
    (heol : findSub crlf data = some firstEol) (more : Bytes) :
    parseHead (data ++ more) headerEnd firstEol = parseHead data headerEnd firstEol := by
  have hline := add_length_le_of_findSub heol (by decide)
  unfold parseHead
  rw [List.take_append_of_le_length (by omega)]
  cases parseRequestLine (data.take firstEol) with
  | none => rfl
  | some req =>
    have hheaders := parseHeaders_headerBlock_append hend heol more req.headers
    simp only [headerBlock] at hheaders
    simp only [Option.bind_eq_bind, Option.bind_some, hheaders]

theorem parseBody_append {data : Bytes} {headerEnd : ℕ} {req : HttpRequest}
    (h : parseBody data headerEnd req ≠ .incomplete) (more : Bytes) :
    parseBody (data ++ more) headerEnd req = parseBody data headerEnd req := by
  unfold parseBody at h ⊢
  cases hlength : contentLength req.headers with
  | none => rfl
  | some length =>
    simp only [hlength] at h ⊢
    by_cases hlarge : length > kMaxBodySize
    · rw [if_pos hlarge, if_pos hlarge]
    · rw [if_neg hlarge] at h
      rw [if_neg hlarge, if_neg hlarge]
      by_cases hshort : data.length < headerEnd + 4 + length
      · exact absurd (if_pos hshort) h
      · rw [if_neg hshort, if_neg (by rw [List.length_append]; omega),
          slice_append_left data more _ _ (by omega)]

/-- INTERNAL: what is parsed of data in which the head is complete. -/
theorem parseRequest_of_find {data : Bytes} {headerEnd firstEol : ℕ}
    (hend : findSub (crlf ++ crlf) data = some headerEnd)
    (heol : findSub crlf data = some firstEol) :
    parseRequest data =
      (parseHead data headerEnd firstEol).elim .badRequestLine (parseBody data headerEnd) := by
  simp only [parseRequest, hend, heol]
  cases parseHead data headerEnd firstEol with
  | none => rfl
  | some req => rfl

/-- INTERNAL: **once the data amount to something, further bytes do not change what.** -/
theorem parseRequest_append {data : Bytes} (h : parseRequest data ≠ .incomplete) (more : Bytes) :
    parseRequest (data ++ more) = parseRequest data := by
  cases hend : findSub (crlf ++ crlf) data with
  | none => exact absurd (by simp only [parseRequest, hend]) h
  | some headerEnd =>
    cases heol : findSub crlf data with
    | none => exact absurd (by simp only [parseRequest, hend, heol]) h
    | some firstEol =>
      rw [parseRequest_of_find hend heol] at h
      rw [parseRequest_of_find hend heol,
        parseRequest_of_find (findSub_append hend more) (findSub_append heol more),
        parseHead_append hend heol]
      cases hhead : parseHead data headerEnd firstEol with
      | none => rfl
      | some req =>
        rw [hhead] at h
        exact parseBody_append h more

/-! ## A message of which a part has arrived -/

variable {m : HttpMessage} {req : HttpRequest}

theorem length_head_append (m : HttpMessage) :
    (m.head ++ (crlf ++ crlf)).length = m.head.length + 4 := by
  rw [List.length_append]
  rfl

theorem findSub_wire (m : HttpMessage) :
    findSub (crlf ++ crlf) m.wire = some m.head.length :=
  findSub_append m.head_ends m.body

/-- INTERNAL: data that hold the head of an understood message and a part of its body. -/
theorem parseRequest_head_append (h : m.Understood req) (part : Bytes) :
    parseRequest (m.head ++ (crlf ++ crlf) ++ part) =
      parseBody (m.head ++ (crlf ++ crlf) ++ part) m.head.length req := by
  obtain ⟨hhead, -⟩ := h
  obtain ⟨firstEol, heol, hreq⟩ := Option.bind_eq_some_iff.mp hhead
  rw [parseRequest_of_find (findSub_append m.head_ends part) (findSub_append heol part),
    parseHead_append m.head_ends heol, hreq, Option.elim_some]

/-- INTERNAL: a message that has not arrived completely is waited for. -/
theorem parseRequest_of_isPrefix_wire (h : m.Understood req) (hmax : m.body.length ≤ kMaxBodySize)
    {data : Bytes} (hpre : data <+: m.wire) (hne : data ≠ m.wire) :
    parseRequest data = .incomplete := by
  have hlen : data.length < m.wire.length :=
    lt_of_le_of_ne hpre.length_le fun heq => hne (hpre.eq_of_length heq)
  by_cases hshort : data.length < m.head.length + (crlf ++ crlf).length
  · rw [parseRequest, findSub_eq_none_of_isPrefix (findSub_wire m) (by decide) hpre hshort]
  · have hwhole : m.head ++ (crlf ++ crlf) <+: data :=
      List.prefix_of_prefix_length_le (List.prefix_append _ m.body) hpre
        (by rw [List.length_append]; omega)
    obtain ⟨part, rfl⟩ := hwhole
    have hpart : part.length < m.body.length := by
      simp only [HttpMessage.wire, List.length_append] at hlen
      omega
    rw [parseRequest_head_append h, parseBody, h.2]
    simp only
    rw [if_neg (by omega), if_pos (by rw [List.length_append, length_head_append]; omega)]

/-- INTERNAL: a message that has arrived is understood as it was meant. -/
theorem parseRequest_wire (h : m.Understood req) (hmax : m.body.length ≤ kMaxBodySize) :
    parseRequest m.wire = .complete { req with body := m.body } := by
  have hlen := length_head_append m
  rw [HttpMessage.wire, parseRequest_head_append h, parseBody, h.2]
  simp only
  rw [if_neg (by omega), if_neg (by rw [List.length_append, hlen]; omega), slice,
    List.drop_left' hlen, List.take_length]

/-! ## The read buffer keeps everything that arrived -/

variable {σ : Type}

/-- Nothing is ever taken from the read buffer. -/
def HoldsReceived (s : Session HttpRequest σ) : Prop :=
  HoldsQueue s.conn.readBuf s.received ∧ s.conn.readBuf.capacity = 131072

theorem holdsReceived_new (state : σ) :
    HoldsReceived ({ state := state } : Session HttpRequest σ) :=
  ⟨holdsQueue_new (by norm_num) nextPowerOf2_connection, nextPowerOf2_connection⟩

theorem processRequest_fields (route : HttpRequest → σ → HttpResponse × σ)
    (s : Session HttpRequest σ) :
    (processRequest route s).conn.readBuf = s.conn.readBuf ∧
      (processRequest route s).received = s.received := by
  unfold processRequest
  split
  · exact ⟨rfl, rfl⟩
  · exact ⟨rfl, rfl⟩
  · exact ⟨rfl, rfl⟩
  · exact ⟨readBuf_queueWrite s _, received_queueWrite s _⟩
  · exact ⟨readBuf_queueWrite _ _, received_queueWrite _ _⟩

theorem kept_holdsReceived (route : HttpRequest → σ → HttpResponse × σ) :
    Kept (httpServer route) HoldsReceived where
  recv s bs s' h hrecv := by
    obtain ⟨b, hfill, rfl⟩ := recv_eq_some_iff.mp hrecv
    obtain ⟨hqueue, hcap, -, -⟩ := h.1.fill hfill
    exact ⟨hqueue, hcap.trans h.2⟩
  send s n s' h hsend := by
    obtain ⟨bs, b, -, rfl⟩ := send_eq_some_iff.mp hsend
    exact h
  process s h := by
    obtain ⟨hbuf, hreceived⟩ := processRequest_fields route s
    show HoldsQueue (processRequest route s).conn.readBuf (processRequest route s).received ∧ _
    rw [hbuf, hreceived]
    exact ⟨h.1, (congrArg _ hbuf).trans h.2⟩
  drained s h := h
  close s h := h

theorem HoldsReceived.peek {s : Session HttpRequest σ} (h : HoldsReceived s) :
    s.conn.readBuf.peek s.conn.readBuf.size = s.received := by
  rw [h.1.peek, h.1.size_eq, List.take_length]

end StrikeMQ.Analysis.HttpParsing
