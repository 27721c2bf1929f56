import StrikeMQ.Lib.Bytes
import StrikeMQ.Lib.Search

/-!
# The JSON that the REST interface writes and reads

`JsonWriter` of `http/http_server.h` and the two functions of `http/http_server.cpp` that look
for the messages in the body of a request. The writer's stack of flags has its top in front. A
string is handed to the writer as a C string, so it ends at its first zero byte.
-/

set_option autoImplicit false

namespace StrikeMQ.Model

open StrikeMQ.Lib

/-- SOURCE: http/http_server.h:48-104 -/
structure JsonWriter where
  buf : Bytes := []
  needComma : List Bool := []

namespace JsonWriter

/-- SOURCE: http/http_server.h:81-97 -/
def escape (c : UInt8) : Bytes :=
  if c = 0x22 then [0x5c, 0x22]
  else if c = 0x5c then [0x5c, 0x5c]
  else if c = 0x0a then [0x5c, 0x6e]
  else if c = 0x0d then [0x5c, 0x72]
  else if c = 0x09 then [0x5c, 0x74]
  else if c < 0x20 then ascii "\\u" ++ hexDigits 4 c.toNat
  else [c]

/-- SOURCE: http/http_server.h:79-100 -/
def stringText (s : Bytes) : Bytes :=
  [0x22] ++ (s.takeWhile (· ≠ 0)).flatMap escape ++ [0x22]

def put (j : JsonWriter) (text : Bytes) : JsonWriter :=
  { j with buf := j.buf ++ text }

/-- SOURCE: http/http_server.h:73-75 -/
def comma (j : JsonWriter) : JsonWriter :=
  if j.needComma.head? = some true then j.put [0x2c] else j

def setNeedComma (j : JsonWriter) (flag : Bool) : JsonWriter :=
  match j.needComma with
  | [] => j
  | _ :: rest => { j with needComma := flag :: rest }

/-- SOURCE: http/http_server.h:76-78 -/
def markValue (j : JsonWriter) : JsonWriter :=
  j.setNeedComma true

def openWith (j : JsonWriter) (bracket : UInt8) : JsonWriter :=
  let j := j.comma.put [bracket]
  { j with needComma := false :: j.needComma }

def closeWith (j : JsonWriter) (bracket : UInt8) : JsonWriter :=
  let j := { j with needComma := j.needComma.tail }
  (j.put [bracket]).markValue

/-- SOURCE: http/http_server.h:50 -/
def objectBegin (j : JsonWriter) : JsonWriter :=
  j.openWith 0x7b

/-- SOURCE: http/http_server.h:51 -/
def objectEnd (j : JsonWriter) : JsonWriter :=
  j.closeWith 0x7d

/-- SOURCE: http/http_server.h:52 -/
def arrayBegin (j : JsonWriter) : JsonWriter :=
  j.openWith 0x5b

/-- SOURCE: http/http_server.h:53 -/
def arrayEnd (j : JsonWriter) : JsonWriter :=
  j.closeWith 0x5d

/-- SOURCE: http/http_server.h:55-61 -/
def key (j : JsonWriter) (k : Bytes) : JsonWriter :=
  ((j.comma.put (stringText k)).put [0x3a]).setNeedComma false

/-- SOURCE: http/http_server.h:63-64 -/
def string (j : JsonWriter) (v : Bytes) : JsonWriter :=
  (j.comma.put (stringText v)).markValue

/-- SOURCE: http/http_server.h:65-67 -/
def number (j : JsonWriter) (v : ℤ) : JsonWriter :=
  (j.comma.put (decimal v)).markValue

/-- SOURCE: http/http_server.h:68 -/
def null (j : JsonWriter) : JsonWriter :=
  (j.comma.put (ascii "null")).markValue

end JsonWriter

/-- SOURCE: http/http_server.cpp:869-876 -/
def jsonUnescapeChar (c : UInt8) : UInt8 :=
  if c = 0x6e then 0x0a
  else if c = 0x72 then 0x0d
  else if c = 0x74 then 0x09
  else c

/-- The text of a string up to its closing quote, or to the end if there is none.
SOURCE: http/http_server.cpp:865-882 -/
def jsonStringBody : Bytes → Bytes
  | [] => []
  | [c] => if c = 0x22 then [] else [c]
  | c :: d :: rest =>
    if c = 0x22 then []
    else if c = 0x5c then jsonUnescapeChar d :: jsonStringBody rest
    else c :: jsonStringBody (d :: rest)

/-- SOURCE: http/http_server.cpp:853-883 -/
def jsonExtractString (json key : Bytes) : Bytes :=
  let search := [0x22] ++ key ++ [0x22]
  match findSub search json with
  | none => []
  | some pos =>
    let rest := json.drop (pos + search.length)
    match rest.dropWhile (fun c => c = 0x20 ∨ c = 0x3a) with
    | [] => []
    | c :: text => if c = 0x22 then jsonStringBody text else []

/-- The number of bytes before the brace that closes `depth` open ones.
SOURCE: http/http_server.cpp:904-911 -/
def closingBrace : ℕ → Bytes → Option ℕ
  | _, [] => none
  | depth, c :: rest =>
    if c = 0x7b then (closingBrace (depth + 1) rest).map (· + 1)
    else if c = 0x7d then
      if depth = 1 then some 0 else (closingBrace (depth - 1) rest).map (· + 1)
    else (closingBrace depth rest).map (· + 1)

/-- Each round takes at least the two braces of an object from the text.
SOURCE: http/http_server.cpp:897-919 -/
def jsonObjects : ℕ → Bytes → List (Bytes × Bytes)
  | 0, _ => []
  | fuel + 1, rest =>
    match findSub [0x7b] rest with
    | none => []
    | some start =>
      match closingBrace 1 (rest.drop (start + 1)) with
      | none => []
      | some inner =>
        let obj := slice rest start (inner + 2)
        (jsonExtractString obj (ascii "key"), jsonExtractString obj (ascii "value")) ::
          jsonObjects fuel (rest.drop (start + inner + 2))

/-- SOURCE: http/http_server.cpp:885-922 -/
def jsonExtractMessages (json : Bytes) : List (Bytes × Bytes) :=
  match findSub (ascii "\"messages\"") json with
  | none => []
  | some arrStart =>
    let rest := json.drop arrStart
    match findSub [0x5b] rest with
    | none => []
    | some bracket => jsonObjects rest.length (rest.drop (bracket + 1))

end StrikeMQ.Model
