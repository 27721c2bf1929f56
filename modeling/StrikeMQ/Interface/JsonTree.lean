import StrikeMQ.Lib.Json
import StrikeMQ.Model.Json

/-!
# The trees that are written with the JSON writer

A tree is written by the calls that go through it depth first: a value for a leaf, and for an
array or an object its beginning, its elements or members and its end. What it stands for is the
JSON value of the same shape.
-/

set_option autoImplicit false

namespace StrikeMQ.Interface

open StrikeMQ.Lib StrikeMQ.Model

/-- A string that is handed over as a C string whole. -/
def CString : Type :=
  {s : Bytes // (0 : UInt8) ∉ s}

/-- An integer of one of the types that the writer takes: `int32_t`, `int64_t` or `uint64_t`. -/
def CInteger : Type :=
  {n : ℤ // -2 ^ 63 ≤ n ∧ n < 2 ^ 64}

/-- A tree of objects, arrays, integers, nulls and strings. -/
inductive JsonTree
  | null
  | integer (n : CInteger)
  | string (s : CString)
  | array (elements : List JsonTree)
  | object (members : List (CString × JsonTree))

namespace JsonTree

mutual

/-- The calls on the writer for a tree. -/
def write (j : JsonWriter) : JsonTree → JsonWriter
  | null => j.null
  | integer n => j.number n.1
  | string s => j.string s.1
  | array elements => (writeElements j.arrayBegin elements).arrayEnd
  | object members => (writeMembers j.objectBegin members).objectEnd

/-- The calls for the elements of an array. -/
def writeElements (j : JsonWriter) : List JsonTree → JsonWriter
  | [] => j
  | t :: ts => writeElements (write j t) ts

/-- The calls for the members of an object. -/
def writeMembers (j : JsonWriter) : List (CString × JsonTree) → JsonWriter
  | [] => j
  | (k, t) :: ms => writeMembers (write (j.key k.1) t) ms

end

mutual

/-- The JSON value that a tree stands for. -/
def toJson : JsonTree → Json
  | null => .null
  | integer n => .number n.1 0
  | string s => .string s.1
  | array elements => .array (elementsToJson elements)
  | object members => .object (membersToJson members)

/-- The elements of an array, in their order. -/
def elementsToJson : List JsonTree → List Json
  | [] => []
  | t :: ts => toJson t :: elementsToJson ts

/-- The members of an object, in their order. -/
def membersToJson : List (CString × JsonTree) → List (Bytes × Json)
  | [] => []
  | (k, t) :: ms => (k.1, toJson t) :: membersToJson ms

end

end JsonTree

end StrikeMQ.Interface
