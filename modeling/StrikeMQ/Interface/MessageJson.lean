import StrikeMQ.Lib.Nesting
import StrikeMQ.Model.Json

/-!
# Messages as JSON

The JSON texts of the form `{"messages":[{"key":K,"value":V},...]}`, with white space between
any two tokens and the strings escaped as `JsonWriter` escapes them; and what a message must be
like for the broker's reader to return it. The strings have no zero bytes, which the writer
takes for their end.
-/

set_option autoImplicit false

namespace StrikeMQ.Interface

open StrikeMQ.Lib StrikeMQ.Model

theorem isSpace_of_all {text : Bytes}
    (h : (text.all fun c => c = 0x20 ∨ c = 0x09 ∨ c = 0x0a ∨ c = 0x0d) = true) :
    ∀ c ∈ text, c = 0x20 ∨ c = 0x09 ∨ c = 0x0a ∨ c = 0x0d :=
  fun c hc => of_decide_eq_true (List.all_eq_true.mp h c hc)

/-- Insignificant white space: blanks, tabs, line feeds and carriage returns. -/
structure JsonSpace where
  text : Bytes := []
  isSpace : ∀ c ∈ text, c = 0x20 ∨ c = 0x09 ∨ c = 0x0a ∨ c = 0x0d := by exact isSpace_of_all rfl

/-- White space that has only blanks. -/
def JsonSpace.IsBlank (s : JsonSpace) : Prop :=
  ∀ c ∈ s.text, c = 0x20

instance (s : JsonSpace) : Decidable s.IsBlank :=
  List.decidableBAll (fun c => c = 0x20) s.text

/-- A message as an object of JSON, with the white space around its tokens. -/
structure MessageText where
  key : Bytes
  value : Bytes
  key_text : 0 ∉ key := by decide
  value_text : 0 ∉ value := by decide
  beforeObject : JsonSpace := {}
  beforeKeyName : JsonSpace := {}
  afterKeyName : JsonSpace := {}
  beforeKey : JsonSpace := {}
  afterKey : JsonSpace := {}
  beforeValueName : JsonSpace := {}
  afterValueName : JsonSpace := {}
  beforeValue : JsonSpace := {}
  afterValue : JsonSpace := {}
  afterObject : JsonSpace := {}

namespace MessageText

/-- What stands behind the opening brace. -/
def body (m : MessageText) : Bytes :=
  m.beforeKeyName.text ++ ascii "\"key\"" ++ m.afterKeyName.text ++ ascii ":" ++
  m.beforeKey.text ++ JsonWriter.stringText m.key ++ m.afterKey.text ++ ascii "," ++
  m.beforeValueName.text ++ ascii "\"value\"" ++ m.afterValueName.text ++ ascii ":" ++
  m.beforeValue.text ++ JsonWriter.stringText m.value ++ m.afterValue.text ++ ascii "\x7d" ++
  m.afterObject.text

def text (m : MessageText) : Bytes :=
  m.beforeObject.text ++ ascii "\x7b" ++ m.body

end MessageText

/-- A list of messages as a JSON document. -/
structure MessagesText where
  messages : List MessageText
  beforeDocument : JsonSpace := {}
  beforeName : JsonSpace := {}
  afterName : JsonSpace := {}
  beforeArray : JsonSpace := {}
  inArray : JsonSpace := {}
  afterArray : JsonSpace := {}
  afterDocument : JsonSpace := {}

namespace MessagesText

/-- The elements of the array, with commas between them. -/
def elements : List MessageText → Bytes
  | [] => []
  | m :: ms => m.text ++ ms.flatMap fun m => ascii "," ++ m.text

def text (t : MessagesText) : Bytes :=
  t.beforeDocument.text ++ ascii "\x7b" ++ t.beforeName.text ++ ascii "\"messages\"" ++
  t.afterName.text ++ ascii ":" ++ t.beforeArray.text ++ ascii "[" ++ t.inArray.text ++
  elements t.messages ++ ascii "]" ++ t.afterArray.text ++ ascii "\x7d" ++ t.afterDocument.text

end MessagesText

/-- By how much a byte changes the number of open braces. -/
def brace (c : UInt8) : ℤ :=
  if c = 0x7b then 1 else if c = 0x7d then -1 else 0

/-- A control character for which the writer has no short escape. -/
def IsControl (c : UInt8) : Prop :=
  c < 0x20 ∧ c ≠ 0x09 ∧ c ≠ 0x0a ∧ c ≠ 0x0d

instance (c : UInt8) : Decidable (IsControl c) :=
  inferInstanceAs (Decidable (_ ∧ _))

namespace MessageText

/-- The quoted word `value` stands at the end of the key's string. -/
def EndsWithName (m : MessageText) : Prop :=
  m.key = ascii "value" ∨ ascii "\"value" <:+ m.key

/-- The reader returns the key and the value of the message: around the colon in front of a
string that is not empty there are only blanks, the string has no control characters but tabs
and line ends, the key is not taken for the name of the value, no closing brace in the strings
but their very last byte closes the object, and at most one brace is left open. -/
structure Readable (m : MessageText) : Prop where
  key : m.key = [] ∨
    m.afterKeyName.IsBlank ∧ m.beforeKey.IsBlank ∧ ∀ c ∈ m.key, ¬IsControl c
  value : m.value = [] ∨ ¬m.EndsWithName ∧
    m.afterValueName.IsBlank ∧ m.beforeValue.IsBlank ∧ ∀ c ∈ m.value, ¬IsControl c
  closes : ∀ p, p <+: m.key ++ m.value → p ≠ m.key ++ m.value → 0 ≤ net brace p
  opens : net brace (m.key ++ m.value) ≤ 1

end MessageText

end StrikeMQ.Interface
