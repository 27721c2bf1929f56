import StrikeMQ.Lib.WireFormat
import StrikeMQ.Model.KafkaEncoder

/-!
# What the writers lay out

Every write of `BinaryWriter` appends the layout of its value to what was written before, and a
frame is the bytes of its body behind their number. So the bytes of a response are read off from
the encoder, field by field.
-/

set_option autoImplicit false

namespace StrikeMQ.Analysis.WireWriting

open StrikeMQ.Lib StrikeMQ.Model StrikeMQ.Model.KafkaEncoder

section Writer

variable (w : BinaryWriter)

@[simp]
theorem data_writeInt16 (v : ℤ) : (w.writeInt16 v).data = w.data ++ beInt 2 v :=
  rfl

@[simp]
theorem data_writeInt32 (v : ℤ) : (w.writeInt32 v).data = w.data ++ beInt 4 v :=
  rfl

@[simp]
theorem data_writeInt64 (v : ℤ) : (w.writeInt64 v).data = w.data ++ beInt 8 v :=
  rfl

@[simp]
theorem data_writeString (s : Bytes) : (w.writeString s).data = w.data ++ wireString s :=
  List.append_assoc w.data (beInt 2 s.length) s

variable {α : Type} {entry : BinaryWriter → α → BinaryWriter} {layout : α → Bytes}

theorem data_foldl (h : ∀ w x, (entry w x).data = w.data ++ layout x) (xs : List α) :
    (xs.foldl entry w).data = w.data ++ xs.flatMap layout := by
  induction xs generalizing w with
  | nil => rw [List.foldl_nil, List.flatMap_nil, List.append_nil]
  | cons x xs ih => rw [List.foldl_cons, ih, h, List.flatMap_cons, List.append_assoc]

theorem data_writeArray (h : ∀ w x, (entry w x).data = w.data ++ layout x) (xs : List α) :
    (w.writeArray entry xs).data = w.data ++ wireArray layout xs := by
  rw [BinaryWriter.writeArray, data_foldl _ h, data_writeInt32, wireArray, List.append_assoc]

/-- INTERNAL: the length is written also when there is nothing behind it. -/
@[simp]
theorem data_writeBytes (bs : Bytes) : (w.writeBytes bs).data = w.data ++ wireBytes bs := by
  unfold BinaryWriter.writeBytes wireBytes
  split
  · exact List.append_assoc w.data (beInt 4 bs.length) bs
  · rename_i hnil
    rw [not_not.mp hnil, data_writeInt32, List.append_nil]

/-- INTERNAL: an array of topics, each with its array of partitions. -/
theorem data_writeByTopic (h : ∀ w x, (entry w x).data = w.data ++ layout x)
    (tp : α → TopicPartition) (parts : List α) :
    (writeByTopic tp entry w parts).data = w.data ++
      wireArray (fun topic => wireString topic ++
          wireArray layout (parts.filter fun p => (tp p).topic = topic))
        (topicsOf (parts.map tp)) := by
  refine data_writeArray w (fun w topic => ?_) _
  rw [data_writeArray _ h, data_writeString, List.append_assoc]

end Writer

/-- INTERNAL: the size in front of a frame is the number of bytes behind it. -/
theorem encodeFrame_eq {cap : ℕ} {body : BinaryWriter → BinaryWriter} {bs : Bytes}
    (h : ∀ w : BinaryWriter, (body w).data = w.data ++ bs) : encodeFrame cap body = wireBytes bs := by
  have hdata : (body ⟨beInt 4 0, cap⟩).data = beInt 4 0 ++ bs := h _
  have hpos : (body ⟨beInt 4 0, cap⟩).position = 4 + bs.length := by
    rw [BinaryWriter.position, hdata, List.length_append, length_beInt]
  show List.take 0 _ ++ beInt 4 (((body ⟨beInt 4 0, cap⟩).position : ℤ) - (0 : ℕ) - 4) ++
    List.drop (0 + 4) (body ⟨beInt 4 0, cap⟩).data = _
  have hsize : (((4 + bs.length : ℕ) : ℤ) - (0 : ℕ) - 4) = bs.length := by omega
  rw [List.take_zero, List.nil_append, hpos, hsize, hdata, wireBytes,
    List.drop_left' (length_beInt 4 0)]

end StrikeMQ.Analysis.WireWriting
