import StrikeMQ.Lib.LittleEndian
import StrikeMQ.Model.KafkaDecoder
import StrikeMQ.Model.KafkaEncoder

/-!
# Byte swapping

`utils/endian.h`, and the words of the codec as the machine moves them: `memcpy` copies the bytes
of a word as they stand in the memory of a little-endian machine, and the word is swapped before a
store and after a load. The byte swaps are the portable ones of the header; the compilers' built-in
functions compute the same.
-/

set_option autoImplicit false

namespace StrikeMQ.Model

open StrikeMQ.Lib

/-- SOURCE: utils/endian.h:9-15 -/
def bswap16 (v : ℕ) : ℕ :=
  (v >>> 8 ||| v <<< 8) % 2 ^ 16

/-- SOURCE: utils/endian.h:17-24 -/
def bswap32 (v : ℕ) : ℕ :=
  v >>> 24 ||| (v >>> 8 &&& 0xFF00) |||
    (v <<< 8 % 2 ^ 32 &&& 0xFF0000) ||| v <<< 24 % 2 ^ 32

/-- SOURCE: utils/endian.h:26-35 -/
def bswap64 (v : ℕ) : ℕ :=
  v >>> 56 ||| (v >>> 40 &&& 0xFF00) |||
    (v >>> 24 &&& 0xFF0000) ||| (v >>> 8 &&& 0xFF000000) |||
    (v <<< 8 % 2 ^ 64 &&& 0xFF00000000) ||| (v <<< 24 % 2 ^ 64 &&& 0xFF0000000000) |||
    (v <<< 40 % 2 ^ 64 &&& 0xFF000000000000) ||| v <<< 56 % 2 ^ 64

/-- The value is converted to an unsigned word of `n` bytes, swapped and copied. -/
def BinaryWriter.storeWord (w : BinaryWriter) (n : ℕ) (bswap : ℕ → ℕ) (v : ℤ) : BinaryWriter :=
  w.writeRaw (leBytes n (bswap (v % (2 ^ (8 * n) : ℕ)).toNat))

/-- SOURCE: protocol/kafka_codec.h:84 -/
def BinaryWriter.storeInt16 (w : BinaryWriter) (v : ℤ) : BinaryWriter :=
  w.storeWord 2 bswap16 v

/-- SOURCE: protocol/kafka_codec.h:85 -/
def BinaryWriter.storeInt32 (w : BinaryWriter) (v : ℤ) : BinaryWriter :=
  w.storeWord 4 bswap32 v

/-- SOURCE: protocol/kafka_codec.h:86 -/
def BinaryWriter.storeInt64 (w : BinaryWriter) (v : ℤ) : BinaryWriter :=
  w.storeWord 8 bswap64 v

/-- A word of `n` bytes is copied, swapped and converted to a signed one. -/
def BinaryReader.loadWord (n : ℕ) (bswap : ℕ → ℕ) : ReaderM ℤ := do
  let bs ← BinaryReader.readRaw n
  return Int.bmod (bswap (leNat bs)) (2 ^ (8 * n))

/-- SOURCE: protocol/kafka_codec.h:44 -/
def BinaryReader.loadInt16 : ReaderM ℤ :=
  BinaryReader.loadWord 2 bswap16

/-- SOURCE: protocol/kafka_codec.h:45 -/
def BinaryReader.loadInt32 : ReaderM ℤ :=
  BinaryReader.loadWord 4 bswap32

/-- SOURCE: protocol/kafka_codec.h:46 -/
def BinaryReader.loadInt64 : ReaderM ℤ :=
  BinaryReader.loadWord 8 bswap64

end StrikeMQ.Model
