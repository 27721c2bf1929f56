import StrikeMQ.Analysis.JsonStrings
import StrikeMQ.Interface.JsonTree

/-!
# Trees written as JSON

The writer keeps one flag for each open bracket: whether a comma is due before the next value.
Writing a tree appends the comma that is due and the text of the tree, and leaves the flag of
the innermost bracket set, whatever stands inside the tree; the flags that the tree pushes are
gone when it has been written. The text of a tree, on the other hand, is read back as the value
of the tree by the rules for JSON texts. Both facts go by induction over the tree, its elements
and its members together.
-/

set_option autoImplicit false

namespace StrikeMQ.Analysis.JsonTrees

open StrikeMQ.Lib StrikeMQ.Model StrikeMQ.Interface StrikeMQ.Analysis.JsonStrings

/-! ## The text of a tree -/

mutual

/-- The text of a tree. -/
def text : JsonTree → Bytes
  | .null => ascii "null"
  | .integer n => decimal n.1
  | .string s => JsonWriter.stringText s.1
  | .array elements => 0x5b :: (Json.joined (elementTexts elements) ++ [0x5d])
  | .object members => 0x7b :: (Json.joined (memberTexts members) ++ [0x7d])

def elementTexts : List JsonTree → List Bytes
  | [] => []
  | t :: ts => text t :: elementTexts ts

def memberTexts : List (CString × JsonTree) → List Bytes
  | [] => []
  | (k, t) :: ms => (JsonWriter.stringText k.1 ++ 0x3a :: text t) :: memberTexts ms

end

/-! ## What the writer appends -/

/-- The comma that is due. -/
def due (flags : List Bool) : Bytes :=
  if flags.head? = some true then [0x2c] else []

/-- The flags once a value has been written. -/
def marked : List Bool → List Bool
  | [] => []
  | _ :: flags => true :: flags

/-- Texts with the commas that are due before each of them, if `flag` says so for the first. -/
def listed (flag : Bool) : List Bytes → Bytes
  | [] => []
  | t :: ts => due [flag] ++ t ++ listed true ts

theorem listed_true (ts : List Bytes) : listed true ts = ts.flatMap fun t => 0x2c :: t := by
  induction ts with
  | nil => rfl
  | cons t ts ih => rw [listed, ih, List.flatMap_cons]; rfl

/-- Behind an opening bracket no comma is due, so the commas stand between the texts. -/
theorem listed_false (ts : List Bytes) : listed false ts = Json.joined ts := by
  cases ts with
  | nil => rfl
  | cons t ts => rw [listed, listed_true]; rfl

theorem comma_eq (j : JsonWriter) : j.comma = j.put (due j.needComma) := by
  unfold JsonWriter.comma due
  split
  · rfl
  · rw [JsonWriter.put, List.append_nil]

theorem markValue_eq (j : JsonWriter) :
    j.markValue = ⟨j.buf, marked j.needComma⟩ := by
  obtain ⟨buf, flags⟩ := j
  cases flags <;> rfl

/-- A value without brackets. -/
theorem leaf_eq (j : JsonWriter) (bytes : Bytes) :
    (j.comma.put bytes).markValue =
      ⟨j.buf ++ (due j.needComma ++ bytes), marked j.needComma⟩ := by
  rw [comma_eq, markValue_eq, JsonWriter.put, JsonWriter.put, List.append_assoc]

theorem openWith_eq (j : JsonWriter) (bracket : UInt8) :
    j.openWith bracket =
      ⟨j.buf ++ (due j.needComma ++ [bracket]), false :: j.needComma⟩ := by
  rw [JsonWriter.openWith, comma_eq, JsonWriter.put, JsonWriter.put, List.append_assoc]

theorem closeWith_eq (buf : Bytes) (flag : Bool) (flags : List Bool) (bracket : UInt8) :
    JsonWriter.closeWith ⟨buf, flag :: flags⟩ bracket = ⟨buf ++ [bracket], marked flags⟩ := by
  rw [JsonWriter.closeWith, markValue_eq]
  rfl

/-- INTERNAL: a key sets the flag back, so that no comma comes before its value. -/
theorem key_eq (buf : Bytes) (flag : Bool) (flags : List Bool) (k : Bytes) :
    JsonWriter.key ⟨buf, flag :: flags⟩ k =
      ⟨buf ++ (due [flag] ++ JsonWriter.stringText k ++ [0x3a]), false :: flags⟩ := by
  rw [JsonWriter.key, comma_eq]
  simp [JsonWriter.put, JsonWriter.setNeedComma, due]

mutual

/-- INTERNAL: **a tree is appended behind the comma that is due, and a comma is due then.** -/
theorem write_eq (t : JsonTree) (j : JsonWriter) :
    t.write j = ⟨j.buf ++ (due j.needComma ++ text t), marked j.needComma⟩ := by
  cases t with
  | null => exact leaf_eq j _
  | integer n => exact leaf_eq j _
  | string s => exact leaf_eq j _
  | array elements =>
    obtain ⟨flag, helements⟩ := writeElements_eq elements
      (j.buf ++ (due j.needComma ++ [0x5b])) false j.needComma
    rw [JsonTree.write, JsonWriter.arrayBegin, openWith_eq, helements, JsonWriter.arrayEnd,
      closeWith_eq, listed_false, text]
    simp only [List.append_assoc, List.cons_append, List.nil_append]
  | object members =>
    obtain ⟨flag, hmembers⟩ := writeMembers_eq members
      (j.buf ++ (due j.needComma ++ [0x7b])) false j.needComma
    rw [JsonTree.write, JsonWriter.objectBegin, openWith_eq, hmembers, JsonWriter.objectEnd,
      closeWith_eq, listed_false, text]
    simp only [List.append_assoc, List.cons_append, List.nil_append]

/-- INTERNAL: the elements stand behind the commas that are due, within the same brackets. -/
theorem writeElements_eq (ts : List JsonTree) (buf : Bytes) (flag : Bool) (flags : List Bool) :
    ∃ last, JsonTree.writeElements ⟨buf, flag :: flags⟩ ts =
      ⟨buf ++ listed flag (elementTexts ts), last :: flags⟩ := by
  cases ts with
  | nil =>
    refine ⟨flag, ?_⟩
    rw [JsonTree.writeElements, elementTexts, listed, List.append_nil]
  | cons t ts =>
    obtain ⟨last, hothers⟩ := writeElements_eq ts (buf ++ (due [flag] ++ text t)) true flags
    refine ⟨last, ?_⟩
    rw [JsonTree.writeElements, write_eq t]
    refine hothers.trans ?_
    rw [elementTexts, listed, List.append_assoc]

/-- INTERNAL: the members stand behind the commas that are due, within the same brackets. -/
theorem writeMembers_eq (ms : List (CString × JsonTree)) (buf : Bytes) (flag : Bool)
    (flags : List Bool) :
    ∃ last, JsonTree.writeMembers ⟨buf, flag :: flags⟩ ms =
      ⟨buf ++ listed flag (memberTexts ms), last :: flags⟩ := by
  match ms with
  | [] =>
    refine ⟨flag, ?_⟩
    rw [JsonTree.writeMembers, memberTexts, listed, List.append_nil]
  | (k, t) :: ms =>
    obtain ⟨last, hothers⟩ := writeMembers_eq ms
      (buf ++ (due [flag] ++ (JsonWriter.stringText k.1 ++ 0x3a :: text t))) true flags
    refine ⟨last, ?_⟩
    have hmember : JsonTree.write ⟨buf ++ (due [flag] ++ JsonWriter.stringText k.1 ++ [0x3a]),
          false :: flags⟩ t =
        ⟨buf ++ (due [flag] ++ (JsonWriter.stringText k.1 ++ 0x3a :: text t)), true :: flags⟩ := by
      rw [write_eq t]
      simp [due, marked]
    rw [JsonTree.writeMembers, key_eq, hmember, hothers, memberTexts, listed]
    simp only [List.append_assoc]

end

/-! ## What a parser makes of the text -/

theorem hexDigits_four (n : ℕ) : hexDigits 4 n =
    [hexDigit (n / 16 / 16 / 16 % 16), hexDigit (n / 16 / 16 % 16), hexDigit (n / 16 % 16),
      hexDigit (n % 16)] := rfl

/-- A control character is spelled by its four digits. -/
theorem unit_hexDigits : ∀ n < 0x20,
    Json.unit (hexDigit (n / 16 / 16 / 16 % 16)) (hexDigit (n / 16 / 16 % 16))
      (hexDigit (n / 16 % 16)) (hexDigit (n % 16)) = some n := by
  decide

/-- INTERNAL: **every byte is escaped so that a parser takes it for itself.** -/
theorem spells_escape (c : UInt8) {body s : Bytes} (h : Json.Spells body s) :
    Json.Spells (JsonWriter.escape c ++ body) (c :: s) := by
  unfold JsonWriter.escape
  split_ifs with hquote hslash hfeed hreturn htab hcontrol
  · rw [hquote]
    exact h.short rfl (by decide)
  · rw [hslash]
    exact h.short rfl (by decide)
  · rw [hfeed]
    exact h.short rfl (by decide)
  · rw [hreturn]
    exact h.short rfl (by decide)
  · rw [htab]
    exact h.short rfl (by decide)
  · have hlt : c.toNat < 0x20 := UInt8.lt_iff_toNat_lt.mp hcontrol
    have hunit := h.unit (unit_hexDigits c.toNat hlt)
    rw [Json.unitBytes, if_pos (by omega), UInt8.ofNat_toNat] at hunit
    rw [hexDigits_four]
    exact hunit
  · exact h.plain hquote hslash hcontrol

theorem spells_escaped (s : Bytes) : Json.Spells (escaped s) s := by
  induction s with
  | nil => exact Json.spells_nil
  | cons c s ih =>
    rw [escaped_cons]
    exact spells_escape c ih

mutual

/-- INTERNAL: **the text of a tree is a JSON text of the value it stands for.** -/
theorem reads_text (t : JsonTree) : Json.Reads (text t) t.toJson := by
  cases t with
  | null => exact Json.reads_null
  | integer n => exact Json.reads_decimal n.1
  | string s =>
    rw [text, stringText_eq s.2]
    exact Json.reads_string (spells_escaped s.1)
  | array elements => exact Json.reads_array (reads_elements elements)
  | object members => exact Json.reads_object (reads_members members)

theorem reads_elements (ts : List JsonTree) :
    List.Forall₂ Json.Reads (elementTexts ts) (JsonTree.elementsToJson ts) := by
  cases ts with
  | nil => exact List.Forall₂.nil
  | cons t ts => exact List.Forall₂.cons (reads_text t) (reads_elements ts)

theorem reads_members (ms : List (CString × JsonTree)) :
    List.Forall₂ Json.ReadsMember (memberTexts ms) (JsonTree.membersToJson ms) := by
  match ms with
  | [] => exact List.Forall₂.nil
  | (k, t) :: ms =>
    refine List.Forall₂.cons ?_ (reads_members ms)
    have hmember := Json.readsMember (spells_escaped k.1) (reads_text t)
    rw [stringText_eq k.2]
    simpa using hmember

end

/-- PROPERTY: **the text that the writer makes of a tree is one JSON text of that tree.**
SOURCE: http/http_server.h:48-104, docs/ARCHITECTURE.md:237-240 -/
theorem written_tree_parses (t : JsonTree) :
    Json.parse (t.write {}).buf = some t.toJson := by
  rw [write_eq]
  exact (reads_text t).parse

end StrikeMQ.Analysis.JsonTrees
