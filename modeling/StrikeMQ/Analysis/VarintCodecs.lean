import StrikeMQ.Analysis.PeekReading
import StrikeMQ.Analysis.PostedRecords

/-!
# One writer and two readers of varints

The REST producer writes a varint of 64 bits; the REST interface's view into a log reads it back
with 64 bits, and `BinaryReader` with 32. A shift by the width of the word or more has no meaning
in the source, so the shifts of both loops are written down beside them: seven more for each byte,
up to the first one whose high bit is clear. Each loop has an outcome exactly if none of its shifts
reaches the width.
-/

set_option autoImplicit false

namespace StrikeMQ.Analysis.VarintCodecs

open StrikeMQ.Lib StrikeMQ.Model
open StrikeMQ.Model.HttpServer (writeVarint)
open StrikeMQ.Analysis.PostedRecords StrikeMQ.Analysis.PeekReading
open StrikeMQ.Analysis.WireReading (reads_varint varintBits_eq_ofGroups)
open StrikeMQ.Model.BinaryReader (varintBits)
open StrikeMQ.Model.MessagePeek (varintLoop)

/-- The shifts that `varintLoop` makes.
SOURCE: http/http_server.cpp:783-790 -/
def loopShifts (seg : Bytes) : ℕ → ℕ → ℕ → List ℕ
  | 0, _, _ => []
  | left + 1, shift, pos =>
    match seg[pos]? with
    | none => []
    | some b => shift :: if b &&& 0x80 = 0 then [] else loopShifts seg left (shift + 7) (pos + 1)

/-- The shifts that `varintBits` makes.
SOURCE: protocol/kafka_codec.h:63-69 -/
def bitsShifts : ℕ → Bytes → List ℕ
  | _, [] => []
  | shift, _ :: bs => shift :: bitsShifts (shift + 7) bs

/-- The shifts of the varint that `read_signed_varint` would read next.
SOURCE: protocol/kafka_codec.h:62-71 -/
def signedVarintShifts : ReaderM (List ℕ) := do
  let at_ ← BinaryReader.current
  let bs ← MemReader.scan (fun b => b &&& 0x80 = 0) at_
  return bitsShifts 0 bs

/-- INTERNAL: **the 32-bit loop has an outcome exactly if every shift is below 32.** -/
theorem varintBits_isSome_iff (shift : ℕ) (bs : Bytes) :
    (varintBits shift bs).isSome ↔ ∀ s ∈ bitsShifts shift bs, s < 32 := by
  induction bs generalizing shift with
  | nil => exact iff_of_true rfl (List.forall_mem_nil _)
  | cons b bs ih =>
    rw [varintBits, bitsShifts, List.forall_mem_cons, ← ih]
    by_cases hshift : shift < 32
    · rw [if_pos hshift]
      cases varintBits (shift + 7) bs <;> simp [hshift]
    · simp [hshift]

/-- INTERNAL: an outcome of the 64-bit loop was reached by shifts below 64. -/
theorem shifts_lt_of_varintLoop {seg : Bytes} {left shift result pos : ℕ} {out : ℕ × ℕ}
    (h : varintLoop seg left shift result pos = some out) :
    ∀ s ∈ loopShifts seg left shift pos, s < 64 := by
  induction left generalizing shift result pos with
  | zero => exact List.forall_mem_nil _
  | succ left ih =>
    rw [varintLoop] at h
    obtain ⟨b, hb, h⟩ := Option.bind_eq_some_iff.mp h
    split at h
    · next hshift =>
      simp only [loopShifts, hb, List.forall_mem_cons]
      refine ⟨hshift, ?_⟩
      by_cases hlast : b &&& 0x80 = 0
      · rw [if_pos hlast]
        exact List.forall_mem_nil _
      · rw [if_neg hlast] at h ⊢
        exact ih h
    · cases h

/-- INTERNAL: **the 64-bit loop, on bytes that are there, has an outcome exactly if every shift is
below 64.** -/
theorem varintLoop_isSome_iff {seg : Bytes} {left pos : ℕ} (hinside : pos + left ≤ seg.length)
    (shift result : ℕ) :
    (varintLoop seg left shift result pos).isSome ↔
      ∀ s ∈ loopShifts seg left shift pos, s < 64 := by
  constructor
  · intro h
    obtain ⟨out, hout⟩ := Option.isSome_iff_exists.mp h
    exact shifts_lt_of_varintLoop hout
  · induction left generalizing shift result pos with
    | zero => exact fun _ => rfl
    | succ left ih =>
      obtain ⟨b, hb⟩ : ∃ b, seg[pos]? = some b :=
        ⟨_, List.getElem?_eq_getElem (show pos < seg.length by omega)⟩
      simp only [loopShifts, varintLoop, hb, List.forall_mem_cons]
      rintro ⟨hshift, hrest⟩
      show (if shift < 64 then _ else none : Option (ℕ × ℕ)).isSome
      rw [if_pos hshift]
      by_cases hlast : b &&& 0x80 = 0
      · rw [if_pos hlast]
        rfl
      · rw [if_neg hlast] at hrest ⊢
        exact ih (by omega) _ _ hrest

/-- INTERNAL: the shifts of the varint that stands where the reader is. -/
theorem run_signedVarintShifts {m : Memory} {bs : Bytes} (hbs : EndsWith lastGroup bs)
    {r : BinaryReader} (hbytes : m.HoldsAt (r.data + r.pos) bs) :
    signedVarintShifts.run m r = some (bitsShifts 0 bs, r) := by
  have hscan : scanBytes m lastGroup (r.data + r.pos) addressSpace = some bs :=
    scanBytes_of_holdsAt hbs hbytes (by have := hbytes.inside; omega)
  show ((scanBytes m lastGroup (r.data + r.pos) addressSpace).map (·, r)).bind _ = _
  rw [hscan]
  rfl

/-- PROPERTY: **what the REST producer writes as a varint is read back by both readers.** The bytes
of any 64-bit integer, with anything before and behind them, are at most ten; the peek parser takes
exactly these, returns the integer and makes no shift of 64 or more. The bytes of a 32-bit integer
are at most five; `BinaryReader` takes exactly these, returns the integer and makes no shift of 32
or more.
SOURCE: http/http_server.cpp:782-794, 968-987, protocol/kafka_codec.h:62-71 -/
theorem varint_codecs_compatible (v : Word 8) (before after : Bytes) (stop : ℕ)
    (hstop : before.length + (writeVarint v).length ≤ stop)
    (hspace : before.length + (writeVarint v).length < addressSpace) :
    let seg := before ++ (writeVarint v ++ after)
    (writeVarint v).length ≤ 10 ∧
    ((MessagePeek.readVarint seg stop).run before.length).run =
      some (some (v.val, before.length + (writeVarint v).length)) ∧
    (∀ s ∈ loopShifts seg (stop - before.length) 0 before.length, s < 64) ∧
    (Fits 4 v → (writeVarint v).length ≤ 5 ∧
      ∀ r : BinaryReader, r.data + r.pos = before.length →
        BinaryReader.readSignedVarint.run (Memory.ofBytes seg) r =
          some (v.val, { r with pos := r.pos + (writeVarint v).length }) ∧
        ∃ shifts, signedVarintShifts.run (Memory.ofBytes seg) r = some (shifts, r) ∧
          ∀ s ∈ shifts, s < 32) := by
  intro seg
  have hlong := writeVarint_eq_varlong v.2
  have hlen : (writeVarint v).length ≤ 10 := hlong ▸ length_uvarint_le 10 _
  have hholds : (Memory.ofBytes seg).HoldsAt before.length (writeVarint v) :=
    Memory.holdsAt_ofBytes hspace
  have hends : EndsWith lastGroup (writeVarint v) := hlong ▸ endsWith_varlong v.2
  have htakes : Takes seg stop (MessagePeek.readVarint seg stop) before.length (varlong v) v :=
    takes_varlong v.2 before.length
  rw [← hlong] at htakes
  refine ⟨hlen, htakes hholds hstop, ?_, ?_⟩
  · exact shifts_lt_of_varintLoop (varintLoop_of_holdsAt hends hholds (by omega) (by omega) 0)
  · intro hfits
    have hshort := writeVarint_eq hfits
    have hfive : (writeVarint v).length ≤ 5 := hshort ▸ length_uvarint_le 5 _
    refine ⟨hfive, ?_⟩
    intro r hr
    constructor
    · have hreads := reads_varint (m := Memory.ofBytes seg) hfits before.length
      rw [← hshort] at hreads
      exact hreads hholds r hr
    · refine ⟨_, run_signedVarintShifts hends (hr ▸ hholds), ?_⟩
      rw [← varintBits_isSome_iff, varintBits_eq_ofGroups (by omega)]
      rfl

/-- The least integer of each width, with a byte before and a byte behind it. -/
theorem varint_codecs_compatible_least :
    ((MessagePeek.readVarint ([7] ++ (writeVarint (-2 ^ 63) ++ [7])) 12).run 1).run =
      some (some (-2 ^ 63, 11)) ∧
    BinaryReader.readSignedVarint.run (Memory.ofBytes ([7] ++ (writeVarint (-2 ^ 31) ++ [7])))
      ⟨0, 7, 1⟩ = some (-2 ^ 31, ⟨0, 7, 6⟩) :=
  ⟨(varint_codecs_compatible ⟨-2 ^ 63, by decide⟩ [7] [7] 12 (by decide +kernel)
      (by decide +kernel)).2.1,
    ((varint_codecs_compatible ⟨-2 ^ 31, by decide⟩ [7] [7] 7 (by decide +kernel)
      (by decide +kernel)).2.2.2 (by decide)).2 ⟨0, 7, 1⟩ rfl |>.1⟩

end StrikeMQ.Analysis.VarintCodecs
