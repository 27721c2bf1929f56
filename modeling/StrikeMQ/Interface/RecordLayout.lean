import StrikeMQ.Lib.Varint

/-!
# Records laid out field by field

A record of which nothing is asked but that its fields follow each other: each varint ends, a key, a
value or a header has as many bytes as the number before it says, and there are as many headers as
their number says. A varint has at most five groups, which may be more than it needs, and counts as
a 32-bit integer: what it has above that is dropped. A negative length stands before a key or a
value that is missing, and before the value of a header; the key of a header is always there. The
length of the record itself may be any number.

Every record of Kafka's format with a short timestamp delta is laid out so. So is much that Kafka
would reject.
-/

set_option autoImplicit false

namespace StrikeMQ.Interface

open StrikeMQ.Lib

/-- The bytes of a varint. -/
structure Groups where
  bytes : Bytes
  ends : EndsWith lastGroup bytes
  short : bytes.length ≤ 5

/-- The number that a 32-bit reader makes of it. -/
def Groups.value (g : Groups) : ℤ :=
  ofZigzag 4 (ofGroups 4 0 g.bytes)

/-- Bytes behind the varint of their number. -/
structure SizedBytes where
  size : Groups
  content : Bytes
  length_content : content.length = size.value.toNat

def SizedBytes.bytes (s : SizedBytes) : Bytes :=
  s.size.bytes ++ s.content

structure HeaderLayout where
  key : SizedBytes
  value : SizedBytes
  key_nonneg : 0 ≤ key.size.value

def HeaderLayout.bytes (h : HeaderLayout) : Bytes :=
  h.key.bytes ++ h.value.bytes

structure RecordLayout where
  length : Groups
  attributes : Word 1
  timestampDelta : Groups
  offsetDelta : Groups
  key : SizedBytes
  value : SizedBytes
  headerCount : Groups
  headers : List HeaderLayout
  length_headers : headers.length = headerCount.value.toNat

def RecordLayout.bytes (r : RecordLayout) : Bytes :=
  r.length.bytes ++ beInt 1 r.attributes ++ r.timestampDelta.bytes ++ r.offsetDelta.bytes ++
    r.key.bytes ++ r.value.bytes ++ r.headerCount.bytes ++ r.headers.flatMap HeaderLayout.bytes

/-- The fields of a batch of magic 2, with its records. Its length may be any number. -/
structure BatchLayout where
  baseOffset : Word 8
  batchLength : Word 4
  partitionLeaderEpoch : Word 4
  crc : Word 4
  attributes : Word 2
  lastOffsetDelta : Word 4
  firstTimestamp : Word 8
  maxTimestamp : Word 8
  producerId : Word 8
  producerEpoch : Word 2
  baseSequence : Word 4
  recordCount : Word 4
  records : List RecordLayout
  length_records : records.length = recordCount.val.toNat

def BatchLayout.bytes (b : BatchLayout) : Bytes :=
  beInt 8 b.baseOffset ++ beInt 4 b.batchLength ++ beInt 4 b.partitionLeaderEpoch ++ beInt 1 2 ++
    beInt 4 b.crc ++ beInt 2 b.attributes ++ beInt 4 b.lastOffsetDelta ++
    beInt 8 b.firstTimestamp ++ beInt 8 b.maxTimestamp ++ beInt 8 b.producerId ++
    beInt 2 b.producerEpoch ++ beInt 4 b.baseSequence ++ beInt 4 b.recordCount ++
    b.records.flatMap RecordLayout.bytes

end StrikeMQ.Interface
