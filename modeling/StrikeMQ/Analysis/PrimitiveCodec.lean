import StrikeMQ.Interface.TypedCodec
import StrikeMQ.Analysis.WireReading
import StrikeMQ.Analysis.WireWriting

/-!
# The primitive codec

The byte swaps of the source reverse the bytes of a word, so what the machine stores after a swap
is the big-endian layout of the word, and what it gets by a swap after a load is the value of that
layout. From there on a sequence of writes appends one layout behind the other, and the
corresponding reads take them one after the other.
-/

set_option autoImplicit false

namespace StrikeMQ.Analysis.PrimitiveCodec

open StrikeMQ.Lib StrikeMQ.Model StrikeMQ.Interface
open StrikeMQ.Analysis.WireReading StrikeMQ.Analysis.WireWriting

/-! ## Byte swaps -/

/-- INTERNAL: swapping two bytes turns a word's layout around. -/
theorem bswap16_eq (v : ℕ) (h : v < 256 ^ 2) : bswap16 v = leNat (beBytes 2 v) := by
  have h₀ : v >>> 8 = v / 256 % 256 := by
    rw [Nat.shiftRight_eq_div_pow]
    omega
  have h₁ : v <<< 8 % 2 ^ 16 = v % 256 * 2 ^ 8 := shiftLeft_top_byte v 8
  have hcut : v >>> 8 % 2 ^ 16 = v >>> 8 := by omega
  rw [bswap16, Nat.or_mod_two_pow, hcut, h₀, h₁, leNat_beBytes_succ, leNat_beBytes_one]

/-- INTERNAL: so does swapping four. -/
theorem bswap32_eq (v : ℕ) (h : v < 256 ^ 4) : bswap32 v = leNat (beBytes 4 v) := by
  have h₀ : v >>> 24 = v / 2 ^ 24 % 256 := by
    rw [Nat.shiftRight_eq_div_pow]
    omega
  have h₁ : v >>> 8 &&& 0xFF00 = v / 2 ^ 16 % 256 * 2 ^ 8 := shiftRight_and_byte v 8 8
  have h₂ : v <<< 8 % 2 ^ 32 &&& 0xFF0000 = v / 2 ^ 8 % 256 * 2 ^ 16 :=
    shiftLeft_and_byte v 8 16 32 (by norm_num) (by norm_num)
  have h₃ : v <<< 24 % 2 ^ 32 = v % 256 * 2 ^ 24 := shiftLeft_top_byte v 24
  rw [bswap32, h₀, h₁, h₂, h₃, leNat_beBytes_succ, leNat_beBytes_succ, leNat_beBytes_succ,
    leNat_beBytes_one]
  simp only [Nat.div_div_eq_div_mul]
  rfl

/-- INTERNAL: so does swapping eight. -/
theorem bswap64_eq (v : ℕ) (h : v < 256 ^ 8) : bswap64 v = leNat (beBytes 8 v) := by
  have h₀ : v >>> 56 = v / 2 ^ 56 % 256 := by
    rw [Nat.shiftRight_eq_div_pow]
    omega
  have h₁ : v >>> 40 &&& 0xFF00 = v / 2 ^ 48 % 256 * 2 ^ 8 := shiftRight_and_byte v 40 8
  have h₂ : v >>> 24 &&& 0xFF0000 = v / 2 ^ 40 % 256 * 2 ^ 16 := shiftRight_and_byte v 24 16
  have h₃ : v >>> 8 &&& 0xFF000000 = v / 2 ^ 32 % 256 * 2 ^ 24 := shiftRight_and_byte v 8 24
  have h₄ : v <<< 8 % 2 ^ 64 &&& 0xFF00000000 = v / 2 ^ 24 % 256 * 2 ^ 32 :=
    shiftLeft_and_byte v 8 32 64 (by norm_num) (by norm_num)
  have h₅ : v <<< 24 % 2 ^ 64 &&& 0xFF0000000000 = v / 2 ^ 16 % 256 * 2 ^ 40 :=
    shiftLeft_and_byte v 24 40 64 (by norm_num) (by norm_num)
  have h₆ : v <<< 40 % 2 ^ 64 &&& 0xFF000000000000 = v / 2 ^ 8 % 256 * 2 ^ 48 :=
    shiftLeft_and_byte v 40 48 64 (by norm_num) (by norm_num)
  have h₇ : v <<< 56 % 2 ^ 64 = v % 256 * 2 ^ 56 := shiftLeft_top_byte v 56
  rw [bswap64, h₀, h₁, h₂, h₃, h₄, h₅, h₆, h₇, leNat_beBytes_succ, leNat_beBytes_succ,
    leNat_beBytes_succ, leNat_beBytes_succ, leNat_beBytes_succ, leNat_beBytes_succ,
    leNat_beBytes_succ, leNat_beBytes_one]
  simp only [Nat.div_div_eq_div_mul]
  rfl

/-! ## Words stored and loaded -/

section Words

variable {n : ℕ} {bswap : ℕ → ℕ} (hswap : ∀ v, v < 256 ^ n → bswap v = leNat (beBytes n v))

include hswap

theorem storeWord_eq (w : BinaryWriter) (v : ℤ) :
    w.storeWord n bswap v = w.writeRaw (beInt n v) := by
  have hpow : 2 ^ (8 * n) = 256 ^ n := by rw [pow_mul]; norm_num
  have hpos : (0 : ℤ) < (256 ^ n : ℕ) := by positivity
  have hnonneg := Int.emod_nonneg v (ne_of_gt hpos)
  have hlt := Int.emod_lt_of_pos v hpos
  rw [BinaryWriter.storeWord, hpow, leBytes_swap hswap (by omega), beInt]

theorem run_loadWord (m : Memory) (r : BinaryReader) :
    (BinaryReader.loadWord n bswap).run m r =
      (do let bs ← BinaryReader.readRaw n; return intOfBe bs : ReaderM ℤ).run m r := by
  have hpow : 2 ^ (8 * n) = 256 ^ n := by rw [pow_mul]; norm_num
  rw [BinaryReader.loadWord, run_bind, run_bind]
  cases hraw : (BinaryReader.readRaw n).run m r with
  | none => rfl
  | some s =>
    have hlen : s.1.length = n := returns_readRaw n m r s.1 s.2 hraw
    show some (Int.bmod (bswap (leNat s.1)) (2 ^ (8 * n)), s.2) = some (intOfBe s.1, s.2)
    rw [swap_leNat hswap hlen, intOfBe, hlen, hpow]

theorem reads_loadWord {m : Memory} {v : ℤ} (h : Fits n v) (a : ℕ) :
    Reads m (BinaryReader.loadWord n bswap) a (beInt n v) v := by
  intro hbytes r hr
  rw [run_loadWord hswap]
  exact reads_word h a hbytes r hr

end Words

/-! ## Sequences -/

/-- What a write appends. -/
def layout : TypedWrite → Bytes
  | .int8 v => beInt 1 v
  | .int16 v => beInt 2 v
  | .int32 v => beInt 4 v
  | .int64 v => beInt 8 v
  | .string s => wireString s
  | .bytes s => wireBytes s

/-- INTERNAL: a write appends the layout of its value. -/
theorem data_write (w : BinaryWriter) (op : TypedWrite) :
    (op.write w).data = w.data ++ layout op := by
  cases op with
  | int8 v => rfl
  | int16 v => exact congrArg BinaryWriter.data (storeWord_eq bswap16_eq w v)
  | int32 v => exact congrArg BinaryWriter.data (storeWord_eq bswap32_eq w v)
  | int64 v => exact congrArg BinaryWriter.data (storeWord_eq bswap64_eq w v)
  | string s => exact data_writeString w s
  | bytes s =>
    have hlength : w.storeInt32 s.val.length = w.writeRaw (beInt 4 s.val.length) :=
      storeWord_eq bswap32_eq w s.val.length
    rw [TypedWrite.write, hlength]
    exact List.append_assoc w.data (beInt 4 s.val.length) s

/-- INTERNAL: the layout of a value is read back to it. -/
theorem reads_type (m : Memory) (op : TypedWrite) (a : ℕ) :
    Reads m op.type.read a (layout op) op.value := by
  cases op with
  | int8 v => exact (reads_readInt8 v a).bind_pure rfl
  | int16 v => exact (reads_loadWord bswap16_eq v.2 a).bind_pure rfl
  | int32 v => exact (reads_loadWord bswap32_eq v.2 a).bind_pure rfl
  | int64 v => exact (reads_loadWord bswap64_eq v.2 a).bind_pure rfl
  | string s => exact (reads_readStdString s a).bind_pure rfl
  | bytes s => exact reads_readBytes_copy s a

/-- INTERNAL: **the reads take the layouts one after the other**; by induction on the writes. -/
theorem reads_readAll (m : Memory) (ops : List TypedWrite) (a : ℕ) :
    Reads m (readAll (ops.map TypedWrite.type)) a (ops.flatMap layout)
      (ops.map TypedWrite.value) := by
  induction ops generalizing a with
  | nil => exact Reads.pure a []
  | cons op ops ih =>
    rw [List.flatMap_cons]
    exact (reads_type m op a).bind fun _ => (ih _).bind_pure rfl

/-- PROPERTY: **every sequence of typed writes that fits the buffer is read back**: a reader over
the written bytes returns the values in order, and nothing remains.
SOURCE: protocol/kafka_codec.h:37-110, utils/endian.h:9-35 -/
theorem typed_writes_read_back (ops : List TypedWrite) (capacity : ℕ)
    (hcapacity : capacity < addressSpace) (hroom : (writeAll capacity ops).position ≤ capacity) :
    ∃ r, (readAll (ops.map TypedWrite.type)).run (Memory.ofBytes (writeAll capacity ops).data)
        { length := (writeAll capacity ops).position } = some (ops.map TypedWrite.value, r) ∧
      r.remaining = 0 := by
  have hdata : (writeAll capacity ops).data = ops.flatMap layout :=
    data_foldl _ data_write ops
  have hlength : (writeAll capacity ops).position = (ops.flatMap layout).length :=
    congrArg List.length hdata
  have hholds : (Memory.ofBytes (ops.flatMap layout)).HoldsAt 0 (ops.flatMap layout) :=
    Memory.holdsAt_zero (by omega) (Memory.holds_ofBytes _)
  rw [hdata, hlength]
  refine ⟨_, reads_readAll _ ops 0 hholds { length := _ } rfl, ?_⟩
  simp [BinaryReader.remaining, toUInt64]

/-- One write of each type, with the least integer of each width. -/
def oneOfEach : List TypedWrite :=
  [.int8 ⟨-128, by decide⟩, .int16 ⟨-2 ^ 15, by decide⟩, .int32 ⟨-2 ^ 31, by decide⟩,
    .int64 ⟨-2 ^ 63, by decide⟩, .string ⟨ascii "s", by decide⟩, .bytes ⟨[1, 2, 3], by decide⟩]

theorem typed_writes_read_back_each :
    ∃ r, (readAll (oneOfEach.map TypedWrite.type)).run (Memory.ofBytes (writeAll 64 oneOfEach).data)
        { length := (writeAll 64 oneOfEach).position } =
          some ([.int (-128), .int (-2 ^ 15), .int (-2 ^ 31), .int (-2 ^ 63),
            .data (ascii "s"), .data [1, 2, 3]], r) ∧
      r.remaining = 0 :=
  typed_writes_read_back oneOfEach 64 (by decide) (by decide)

end StrikeMQ.Analysis.PrimitiveCodec
