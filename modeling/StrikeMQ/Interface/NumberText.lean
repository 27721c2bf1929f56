import StrikeMQ.Lib.WireFormat
import StrikeMQ.Model.MessagePeek

/-!
# Numbers at the start of a text

What `std::stoi` and its relatives take for a number: decimal digits, with white space and a sign
before them, and anything that is not a digit behind. They throw when there is no such number or
when it is not in the range of their type.
-/

set_option autoImplicit false

namespace StrikeMQ.Interface

open StrikeMQ.Lib StrikeMQ.Model.HttpServer

def decimalValue (digits : Bytes) : ℤ :=
  digits.foldl (fun n c => 10 * n + (c.toNat - 0x30)) 0

/-- The text starts with the number `n`. -/
def StartsWithNumber (s : Bytes) (n : ℤ) : Prop :=
  ∃ spaces sign digits rest : Bytes, s = spaces ++ (sign ++ (digits ++ rest)) ∧
    (∀ c ∈ spaces, isSpace c) ∧ (sign = [] ∨ sign = [0x2b] ∨ sign = [0x2d]) ∧
    digits ≠ [] ∧ (∀ c ∈ digits, isDigit c) ∧ (∀ c ∈ rest.head?, ¬isDigit c) ∧
    n = if sign = [0x2d] then -decimalValue digits else decimalValue digits

/-- The text starts with a number that an integer of `w` bytes can hold. -/
def HoldsSigned (w : ℕ) (s : Bytes) : Prop :=
  ∃ n, StartsWithNumber s n ∧ Fits w n

/-- The text starts with a number whose digits an unsigned 64-bit integer can hold; the sign
negates it there. -/
def HoldsUnsigned (s : Bytes) : Prop :=
  ∃ n, StartsWithNumber s n ∧ n.natAbs < 2 ^ 64

end StrikeMQ.Interface
