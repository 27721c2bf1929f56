import StrikeMQ.Lib.Bytes

/-!
# Percent-encoded request lines

How a client writes a method, a path and query parameters of any bytes as a request line. Of a
path, the unreserved characters of a URI and the slash stand for themselves; of a key or a value
the unreserved characters do, and the slash may. Every other byte is written as a percent sign
and two hexadecimal digits, which may be in upper or in lower case.
-/

set_option autoImplicit false

namespace StrikeMQ.Interface

open StrikeMQ.Lib

inductive HexCase where
  | upper
  | lower
  deriving DecidableEq, Repr

/-- The digit of a number below 16. -/
def HexCase.digit (hexCase : HexCase) (n : ℕ) : UInt8 :=
  if n < 10 then UInt8.ofNat (0x30 + n)
  else
    match hexCase with
    | .upper => UInt8.ofNat (0x41 + (n - 10))
    | .lower => UInt8.ofNat (0x61 + (n - 10))

/-- Letters, digits, `-`, `.`, `_` and `~`. -/
def Unreserved (c : UInt8) : Prop :=
  (0x41 ≤ c ∧ c ≤ 0x5a) ∨ (0x61 ≤ c ∧ c ≤ 0x7a) ∨ (0x30 ≤ c ∧ c ≤ 0x39) ∨
    c = 0x2d ∨ c = 0x2e ∨ c = 0x5f ∨ c = 0x7e

instance (c : UInt8) : Decidable (Unreserved c) :=
  inferInstanceAs (Decidable (_ ∨ _))

/-- How the parts of a request line are written. -/
structure UriStyle where
  hexCase : HexCase := .upper
  slashInQuery : Bool := false
  deriving DecidableEq, Repr

namespace UriStyle

def encodeByte (style : UriStyle) (slash : Bool) (c : UInt8) : Bytes :=
  if Unreserved c ∨ (slash = true ∧ c = 0x2f) then [c]
  else [0x25, style.hexCase.digit (c.toNat / 16), style.hexCase.digit (c.toNat % 16)]

def encode (style : UriStyle) (slash : Bool) (s : Bytes) : Bytes :=
  s.flatMap (style.encodeByte slash)

def pair (style : UriStyle) (kv : Bytes × Bytes) : Bytes :=
  style.encode style.slashInQuery kv.1 ++ 0x3d :: style.encode style.slashInQuery kv.2

/-- The pairs with `&` between them. -/
def query (style : UriStyle) : List (Bytes × Bytes) → Bytes
  | [] => []
  | [kv] => style.pair kv
  | kv :: kv' :: kvs => style.pair kv ++ 0x26 :: style.query (kv' :: kvs)

def uri (style : UriStyle) (path : Bytes) (params : List (Bytes × Bytes)) : Bytes :=
  if params = [] then style.encode true path
  else style.encode true path ++ 0x3f :: style.query params

def requestLine (style : UriStyle) (method path : Bytes) (params : List (Bytes × Bytes)) : Bytes :=
  method ++ 0x20 :: (style.uri path params ++ 0x20 :: ascii "HTTP/1.1")

end UriStyle

end StrikeMQ.Interface
