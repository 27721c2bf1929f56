import StrikeMQ.Model.HttpServer

/-!
# The head of a request

A request line, any number of header lines and an empty line. A header line is a name, a colon,
a space and a value. Names are compared without regard to case, and the last line of a name
counts.
-/

set_option autoImplicit false

namespace StrikeMQ.Interface

open StrikeMQ.Lib StrikeMQ.Model StrikeMQ.Model.HttpServer

structure HeaderLine where
  name : Bytes
  value : Bytes
  name_plain : 0x3a ∉ name ∧ 0x0d ∉ name ∧ 0x0a ∉ name
  value_plain : 0x0d ∉ value ∧ 0x0a ∉ value
  value_trimmed : value.head? ≠ some 0x20

namespace HeaderLine

def text (l : HeaderLine) : Bytes :=
  l.name ++ 0x3a :: 0x20 :: l.value

/-- The name as it is looked up. -/
def key (l : HeaderLine) : Bytes :=
  l.name.map toLower

/-- The value that the lines give a name. -/
def valueOf (lines : List HeaderLine) (key : Bytes) : Option Bytes :=
  (lines.filter fun l => l.key = key).getLast?.map value

end HeaderLine

structure RequestHead where
  requestLine : Bytes
  lines : List HeaderLine
  requestLine_plain : 0x0d ∉ requestLine ∧ 0x0a ∉ requestLine

namespace RequestHead

/-- The head without the line ends that close it. -/
def text (h : RequestHead) : Bytes :=
  h.requestLine ++ h.lines.flatMap fun l => crlf ++ l.text

/-- The head and what follows it. -/
def wire (h : RequestHead) (rest : Bytes) : Bytes :=
  h.text ++ (crlf ++ crlf) ++ rest

end RequestHead

end StrikeMQ.Interface
