import StrikeMQ.Lib.Varint

/-!
# Record batches on the wire

Kafka's record batch, magic 2, with its records not compressed. A record stands behind the
varint of its length, and in it key, value and headers each behind their own; the batch has a
fixed header that ends with the number of records. The layout is the protocol's, not read off
the code.
-/

set_option autoImplicit false

namespace StrikeMQ.Interface

open StrikeMQ.Lib

/-- A record with its headers, each a key and a value that may be missing. -/
structure WireRecord where
  attributes : Word 1 := wordOf 1 0
  timestampDelta : Word 8 := wordOf 8 0
  offsetDelta : Word 4 := wordOf 4 0
  key : Option Bytes := none
  value : Option Bytes := none
  headers : List (Bytes × Option Bytes) := []

namespace WireRecord

def headerBytes (h : Bytes × Option Bytes) : Bytes :=
  varBytes (some h.1) ++ varBytes h.2

/-- The record behind its length. -/
def body (r : WireRecord) : Bytes :=
  beInt 1 r.attributes ++ varlong r.timestampDelta ++ varint r.offsetDelta ++ varBytes r.key ++
    varBytes r.value ++ varArray headerBytes r.headers

def bytes (r : WireRecord) : Bytes :=
  varint r.body.length ++ r.body

/-- The timestamp delta, alone a 64-bit integer, has no more groups than a 32-bit one: it lies
within 2^34 milliseconds. -/
def Short (r : WireRecord) : Prop :=
  (varlong r.timestampDelta).length ≤ 5

instance (r : WireRecord) : Decidable r.Short :=
  inferInstanceAs (Decidable (_ ≤ 5))

end WireRecord

structure WireBatch where
  baseOffset : Word 8 := wordOf 8 0
  partitionLeaderEpoch : Word 4 := wordOf 4 (-1)
  crc : Word 4 := wordOf 4 0
  attributes : Word 2 := wordOf 2 0
  lastOffsetDelta : Word 4 := wordOf 4 0
  firstTimestamp : Word 8 := wordOf 8 0
  maxTimestamp : Word 8 := wordOf 8 0
  producerId : Word 8 := wordOf 8 (-1)
  producerEpoch : Word 2 := wordOf 2 (-1)
  baseSequence : Word 4 := wordOf 4 (-1)
  records : List WireRecord := []

namespace WireBatch

/-- The batch behind its length. -/
def body (b : WireBatch) : Bytes :=
  beInt 4 b.partitionLeaderEpoch ++ beInt 1 2 ++ beInt 4 b.crc ++ beInt 2 b.attributes ++
    beInt 4 b.lastOffsetDelta ++ beInt 8 b.firstTimestamp ++ beInt 8 b.maxTimestamp ++
    beInt 8 b.producerId ++ beInt 2 b.producerEpoch ++ beInt 4 b.baseSequence ++
    wireArray WireRecord.bytes b.records

def bytes (b : WireBatch) : Bytes :=
  beInt 8 b.baseOffset ++ wireBytes b.body

end WireBatch

/-- The record data of one partition: a batch, with any further ones behind it, or a message
set of the formats before magic 2, of which only the length and the magic byte matter. -/
inductive RecordData where
  | batches (first : WireBatch) (more : Bytes)
  | messageSet (bytes : Bytes) (header : 17 ≤ bytes.length) (magic : bytes[16]? ≠ some 2)

namespace RecordData

def bytes : RecordData → Bytes
  | batches first more => first.bytes ++ more
  | messageSet bytes _ _ => bytes

/-- The records that are appended of the data. -/
def records : RecordData → List WireRecord
  | batches first _ => first.records
  | messageSet _ _ _ => []

def Short (d : RecordData) : Prop :=
  ∀ r ∈ d.records, r.Short

instance (d : RecordData) : Decidable d.Short :=
  inferInstanceAs (Decidable (∀ r ∈ d.records, r.Short))

end RecordData

end StrikeMQ.Interface
