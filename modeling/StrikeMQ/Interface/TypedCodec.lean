import StrikeMQ.Lib.WireFormat
import StrikeMQ.Model.Endian

/-!
# Sequences of typed writes

What a client of `BinaryWriter` may write one behind the other, with the value that is meant and
the type under which it is read back. A value that a write cannot represent (a string of more than
32767 bytes, a length of 32 bits that is not the number of the bytes behind it) cannot be built.
-/

set_option autoImplicit false

namespace StrikeMQ.Interface

open StrikeMQ.Lib StrikeMQ.Model

inductive WireType where
  | int8
  | int16
  | int32
  | int64
  | string
  | bytes
  deriving DecidableEq, Repr

inductive WireValue where
  | int (v : ℤ)
  | data (bs : Bytes)
  deriving DecidableEq, Repr

/-- One read of `BinaryReader`; the bytes of a view are those it points to. -/
def WireType.read : WireType → ReaderM WireValue
  | int8 => do
    let v ← BinaryReader.readInt8
    return .int v
  | int16 => do
    let v ← BinaryReader.loadInt16
    return .int v
  | int32 => do
    let v ← BinaryReader.loadInt32
    return .int v
  | int64 => do
    let v ← BinaryReader.loadInt64
    return .int v
  | string => do
    let s ← BinaryReader.readStdString
    return .data s
  | bytes => do
    let view ← BinaryReader.readBytes
    let bs ← BinaryReader.copy view
    return .data bs

def readAll : List WireType → ReaderM (List WireValue)
  | [] => return []
  | t :: ts => do
    let v ← t.read
    let vs ← readAll ts
    return v :: vs

inductive TypedWrite where
  | int8 (v : Word 1)
  | int16 (v : Word 2)
  | int32 (v : Word 4)
  | int64 (v : Word 8)
  | string (s : ShortString)
  | bytes (s : LongBytes)

namespace TypedWrite

/-- One write of `BinaryWriter`, or for bytes two of them. -/
def write (w : BinaryWriter) : TypedWrite → BinaryWriter
  | int8 v => w.writeInt8 v
  | int16 v => w.storeInt16 v
  | int32 v => w.storeInt32 v
  | int64 v => w.storeInt64 v
  | string s => w.writeString s
  | bytes s => (w.storeInt32 s.val.length).writeRaw s

def type : TypedWrite → WireType
  | int8 _ => .int8
  | int16 _ => .int16
  | int32 _ => .int32
  | int64 _ => .int64
  | string _ => .string
  | bytes _ => .bytes

def value : TypedWrite → WireValue
  | int8 v => .int v
  | int16 v => .int v
  | int32 v => .int v
  | int64 v => .int v
  | string s => .data s
  | bytes s => .data s

end TypedWrite

/-- A writer that starts at the beginning of its buffer, after a sequence of writes. -/
def writeAll (capacity : ℕ) (ops : List TypedWrite) : BinaryWriter :=
  ops.foldl TypedWrite.write { capacity := capacity }

end StrikeMQ.Interface
