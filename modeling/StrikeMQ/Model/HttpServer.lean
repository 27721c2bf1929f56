import Mathlib.Data.List.AList
import StrikeMQ.Lib.Search
import StrikeMQ.Model.Connection

/-!
# The HTTP server's connections

`HttpServer::process_request` of `http/http_server.cpp` and the parsing it does: each time
bytes have arrived, the whole read buffer is copied and parsed from its start, and a complete
request is routed and answered. Nothing is taken from the read buffer. The router is a function
of the request and of the state behind it.
-/

set_option autoImplicit false

namespace StrikeMQ.Model

open StrikeMQ.Lib

abbrev StringMap := AList fun _ : Bytes => Bytes

/-- SOURCE: http/http_server.h:32-38 -/
structure HttpRequest where
  method : Bytes := []
  path : Bytes := []
  queryParams : StringMap := ∅
  headers : StringMap := ∅
  body : Bytes := []
  deriving DecidableEq

/-- SOURCE: http/http_server.h:40-44 -/
structure HttpResponse where
  statusCode : ℤ := 200
  statusText : Bytes := ascii "OK"
  body : Bytes := []
  deriving DecidableEq

namespace HttpServer

/-- SOURCE: http/http_server.cpp:32-37 -/
def hexValue (c : UInt8) : Option ℕ :=
  if 0x30 ≤ c ∧ c ≤ 0x39 then some (c.toNat - 0x30)
  else if 0x61 ≤ c ∧ c ≤ 0x66 then some (10 + c.toNat - 0x61)
  else if 0x41 ≤ c ∧ c ≤ 0x46 then some (10 + c.toNat - 0x41)
  else none

/-- SOURCE: http/http_server.cpp:46-50 -/
def decodePlus (c : UInt8) : UInt8 :=
  if c = 0x2b then 0x20 else c

/-- SOURCE: http/http_server.cpp:26-53 -/
def urlDecode : Bytes → Bytes
  | [] => []
  | [c] => [decodePlus c]
  | [c, d] => [decodePlus c, decodePlus d]
  | c :: hi :: lo :: rest =>
    if c = 0x25 then
      match hexValue hi, hexValue lo with
      | some h, some l => UInt8.ofNat (h <<< 4 ||| l) :: urlDecode rest
      | _, _ => decodePlus c :: urlDecode (hi :: lo :: rest)
    else decodePlus c :: urlDecode (hi :: lo :: rest)

/-- SOURCE: http/http_server.cpp:77-83 -/
def parsePair (params : StringMap) (pair : Bytes) : StringMap :=
  match findSub [0x3d] pair with
  | some eq => params.insert (urlDecode (pair.take eq)) (urlDecode (pair.drop (eq + 1)))
  | none => params.insert (urlDecode pair) []

/-- Each round takes at least one byte from the query string.
SOURCE: http/http_server.cpp:72-85 -/
def parseQuery : ℕ → Bytes → StringMap → StringMap
  | 0, _, params => params
  | fuel + 1, qs, params =>
    if qs = [] then params
    else
      match findSub [0x26] qs with
      | none => parsePair params qs
      | some amp => parseQuery fuel (qs.drop (amp + 1)) (parsePair params (qs.take amp))

/-- SOURCE: http/http_server.cpp:67-88 -/
def parseUri (req : HttpRequest) (uri : Bytes) : HttpRequest :=
  match findSub [0x3f] uri with
  | some qpos =>
    let qs := uri.drop (qpos + 1)
    { req with
      path := urlDecode (uri.take qpos)
      queryParams := parseQuery qs.length qs req.queryParams }
  | none => { req with path := urlDecode uri }

/-- SOURCE: http/http_server.cpp:57-90 -/
def parseRequestLine (line : Bytes) : Option HttpRequest := do
  let sp1 ← findSub [0x20] line
  let after := line.drop (sp1 + 1)
  let sp2 ← findSub [0x20] after
  return parseUri { method := line.take sp1 } (after.take sp2)

/-- `tolower` in the C locale. -/
def toLower (c : UInt8) : UInt8 :=
  if 0x41 ≤ c ∧ c ≤ 0x5a then c + 0x20 else c

/-- SOURCE: http/http_server.cpp:98-108 -/
def parseHeaderLine (headers : StringMap) (line : Bytes) : StringMap :=
  match findSub [0x3a] line with
  | none => headers
  | some colon =>
    let val := line.drop (colon + 1)
    -- a value of spaces only is kept as it is
    let trimmed := val.dropWhile (· = 0x20)
    headers.insert ((line.take colon).map toLower) (if trimmed = [] then val else trimmed)

def crlf : Bytes := [0x0d, 0x0a]

/-- Each round takes a line and its end from the block; what has no line end is not looked
at.
SOURCE: http/http_server.cpp:92-112 -/
def parseHeaders : ℕ → Bytes → StringMap → StringMap
  | 0, _, headers => headers
  | fuel + 1, block, headers =>
    match findSub crlf block with
    | none => headers
    | some eol =>
      if eol = 0 then headers
      else parseHeaders fuel (block.drop (eol + 2)) (parseHeaderLine headers (block.take eol))

/-- `isspace` in the C locale. -/
def isSpace (c : UInt8) : Bool :=
  c = 0x20 ∨ (0x09 ≤ c ∧ c ≤ 0x0d)

def isDigit (c : UInt8) : Bool :=
  0x30 ≤ c ∧ c ≤ 0x39

/-- `std::stoull`: leading spaces and a sign are accepted, what follows the digits is ignored;
it throws when there is no digit or the number does not fit. -/
def stoull (s : Bytes) : Option ℕ :=
  let s := s.dropWhile isSpace
  let negative : Bool := s.head? = some 0x2d
  let unsigned := if s.head? = some 0x2d ∨ s.head? = some 0x2b then s.tail else s
  let digits := unsigned.takeWhile isDigit
  let value : ℕ := digits.foldl (fun n c => 10 * n + (c.toNat - 0x30)) 0
  if digits = [] ∨ value ≠ toUInt64 value then none
  else some (if negative then toUInt64 (-(value : ℤ)) else value)

/-- SOURCE: http/http_server.h:154 -/
def kMaxBodySize : ℕ := 1048576

/-- What the bytes received so far amount to. -/
inductive Parsed where
  | incomplete
  | badRequestLine
  | throws
  | tooLarge
  | complete (req : HttpRequest)
  deriving DecidableEq

/-- SOURCE: http/http_server.cpp:405-409 -/
def contentLength (headers : StringMap) : Option ℕ :=
  match headers.lookup (ascii "content-length") with
  | none => some 0
  | some v => stoull v

/-- The request line and the headers. The headers are looked for between the end of the first
line and the first of the line ends that close the head. The length of that slice is a
`size_t`: without any header it wraps, and the slice is all the rest.
SOURCE: http/http_server.cpp:396-403 -/
def parseHead (data : Bytes) (headerEnd firstEol : ℕ) : Option HttpRequest := do
  let req ← parseRequestLine (data.take firstEol)
  let block := slice data (firstEol + 2) (toUInt64 ((headerEnd : ℤ) - firstEol - 2))
  return { req with headers := parseHeaders block.length block req.headers }

/-- SOURCE: http/http_server.cpp:405-434 -/
def parseBody (data : Bytes) (headerEnd : ℕ) (req : HttpRequest) : Parsed :=
  match contentLength req.headers with
  | none => .throws
  | some length =>
    if length > kMaxBodySize then .tooLarge
    else if data.length < headerEnd + 4 + length then .incomplete
    else .complete { req with body := slice data (headerEnd + 4) length }

/-- SOURCE: http/http_server.cpp:385-434 -/
def parseRequest (data : Bytes) : Parsed :=
  match findSub (crlf ++ crlf) data with
  | none => .incomplete
  | some headerEnd =>
    match findSub crlf data with
    | none => .incomplete
    | some firstEol =>
      match parseHead data headerEnd firstEol with
      | none => .badRequestLine
      | some req => parseBody data headerEnd req

def statusLine (resp : HttpResponse) : Bytes :=
  ascii "HTTP/1.1 " ++ decimal resp.statusCode ++ ascii " " ++ resp.statusText ++ crlf ++
    ascii "Content-Type: application/json" ++ crlf ++
    ascii "Content-Length: " ++ decimal resp.body.length ++ crlf ++ ascii "Connection: close" ++ crlf

/-- SOURCE: http/http_server.cpp:440-445 -/
def serializeResponse (resp : HttpResponse) : Bytes :=
  statusLine resp ++ ascii "Access-Control-Allow-Origin: *" ++ crlf ++ crlf ++ resp.body

/-- SOURCE: http/http_server.cpp:411-421 -/
def payloadTooLarge : Bytes :=
  let resp : HttpResponse :=
    { statusCode := 413
      statusText := ascii "Payload Too Large"
      body := ascii "\x7b\"error\":\"Request body too large\"\x7d" }
  statusLine resp ++ crlf ++ resp.body

variable {σ : Type}

/-- An exception ends the program, and with it the connection.
SOURCE: http/http_server.cpp:380-449 -/
def processRequest (route : HttpRequest → σ → HttpResponse × σ) (s : Session HttpRequest σ) :
    Session HttpRequest σ :=
  match parseRequest (s.conn.readBuf.peek s.conn.readBuf.size) with
  | .incomplete => s
  | .badRequestLine => s.close
  | .throws => s.close
  | .tooLarge => s.queueWrite payloadTooLarge
  | .complete req =>
    let (resp, s) := s.routeTo route req
    s.queueWrite (serializeResponse resp)

end HttpServer

/-- SOURCE: http/http_server.cpp:206-449 -/
def httpServer {σ : Type} (route : HttpRequest → σ → HttpResponse × σ) :
    Server HttpRequest σ where
  process := HttpServer.processRequest route
  drained := Session.close

end StrikeMQ.Model
