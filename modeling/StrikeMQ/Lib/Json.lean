import StrikeMQ.Lib.Decimal
import StrikeMQ.Lib.Search

/-!
# JSON texts

A JSON value and the text it stands in, read as the format is defined: blanks between the
tokens, the eight short escapes and `\uXXXX` in strings, no bare control character in a string,
no zero in front of a number, no comma behind the last element. A string is read byte by byte;
a `\uXXXX` escape stands for the UTF-8 bytes of its unit.

`Reads text j` says that the parser makes `j` of `text` and stops behind it, whatever ends the
value there. There is one rule for each kind of value.
-/

set_option autoImplicit false

namespace StrikeMQ.Lib

/-- A number is `mantissa * 10 ^ exponent`. -/
inductive Json
  | null
  | bool (b : Bool)
  | number (mantissa exponent : ℤ)
  | string (s : Bytes)
  | array (elements : List Json)
  | object (members : List (Bytes × Json))

namespace Json

/-! ## The parser -/

def isSpace (c : UInt8) : Bool :=
  c = 0x20 || c = 0x09 || c = 0x0a || c = 0x0d

def skipSpace (bs : Bytes) : Bytes :=
  bs.dropWhile isSpace

def isDigit (c : UInt8) : Bool :=
  0x30 ≤ c && c ≤ 0x39

def hexValue (c : UInt8) : Option ℕ :=
  if 0x30 ≤ c ∧ c ≤ 0x39 then some (c.toNat - 0x30)
  else if 0x41 ≤ c ∧ c ≤ 0x46 then some (c.toNat - 0x41 + 10)
  else if 0x61 ≤ c ∧ c ≤ 0x66 then some (c.toNat - 0x61 + 10)
  else none

/-- The character of a short escape. -/
def shortEscape (c : UInt8) : Option UInt8 :=
  if c = 0x22 ∨ c = 0x5c ∨ c = 0x2f then some c
  else if c = 0x62 then some 0x08
  else if c = 0x66 then some 0x0c
  else if c = 0x6e then some 0x0a
  else if c = 0x72 then some 0x0d
  else if c = 0x74 then some 0x09
  else none

/-- The UTF-8 bytes of a 16-bit unit. -/
def unitBytes (n : ℕ) : Bytes :=
  if n < 0x80 then [UInt8.ofNat n]
  else if n < 0x800 then [UInt8.ofNat (0xc0 + n / 64), UInt8.ofNat (0x80 + n % 64)]
  else [UInt8.ofNat (0xe0 + n / 4096), UInt8.ofNat (0x80 + n / 64 % 64),
    UInt8.ofNat (0x80 + n % 64)]

/-- The number of four hexadecimal digits. -/
def unit (a b c d : UInt8) : Option ℕ := do
  let a ← hexValue a
  let b ← hexValue b
  let c ← hexValue c
  let d ← hexValue d
  return ((a * 16 + b) * 16 + c) * 16 + d

/-- A string behind its opening quote, with what follows its closing one. -/
def stringBody : Bytes → Option (Bytes × Bytes)
  | [] => none
  | c :: rest =>
    if c = 0x22 then some ([], rest)
    else if c = 0x5c then
      match rest with
      | [] => none
      | e :: rest =>
        if e = 0x75 then
          match rest with
          | x :: y :: z :: w :: rest => do
            let n ← unit x y z w
            let (s, rest) ← stringBody rest
            return (unitBytes n ++ s, rest)
          | _ => none
        else do
          let c ← shortEscape e
          let (s, rest) ← stringBody rest
          return (c :: s, rest)
    else if c < 0x20 then none
    else do
      let (s, rest) ← stringBody rest
      return (c :: s, rest)

/-- An integer without a zero in front. -/
def wholePart (bs : Bytes) : Option (Bytes × Bytes) :=
  let digits := bs.takeWhile isDigit
  if digits = [] ∨ digits.head? = some 0x30 ∧ digits ≠ [0x30] then none
  else some (digits, bs.dropWhile isDigit)

/-- The digits behind a decimal point, if there is one. -/
def fractionPart : Bytes → Option (Bytes × Bytes)
  | [] => some ([], [])
  | c :: bs =>
    if c = 0x2e then
      let digits := bs.takeWhile isDigit
      if digits = [] then none else some (digits, bs.dropWhile isDigit)
    else some ([], c :: bs)

/-- A number has a dash in front or none; an exponent may also have a plus. -/
def sign (plus : Bool) : Bytes → ℤ × Bytes
  | [] => (1, [])
  | c :: bs => if c = 0x2d then (-1, bs) else if plus ∧ c = 0x2b then (1, bs) else (1, c :: bs)

/-- The exponent of ten, if there is one. -/
def exponentPart : Bytes → Option (ℤ × Bytes)
  | [] => some (0, [])
  | c :: bs =>
    if c = 0x65 ∨ c = 0x45 then
      let (s, bs) := sign true bs
      let digits := bs.takeWhile isDigit
      if digits = [] then none else some (s * digitsValue digits, bs.dropWhile isDigit)
    else some (0, c :: bs)

def numberText (bs : Bytes) : Option (Json × Bytes) := do
  let (s, bs) := sign false bs
  let (whole, bs) ← wholePart bs
  let (fraction, bs) ← fractionPart bs
  let (exponent, bs) ← exponentPart bs
  return (.number (s * digitsValue (whole ++ fraction)) (exponent - fraction.length), bs)

def literal (word : Bytes) (j : Json) (bs : Bytes) : Option (Json × Bytes) :=
  if word <+: bs then some (j, bs.drop word.length) else none

/-- One item or more, with commas between them, up to the closing bracket. -/
def items {α : Type} (item : Bytes → Option (α × Bytes)) (close : UInt8) :
    ℕ → Bytes → Option (List α × Bytes)
  | 0, _ => none
  | fuel + 1, bs => do
    let (a, rest) ← item bs
    match skipSpace rest with
    | [] => none
    | c :: rest =>
      if c = close then some ([a], rest)
      else if c = 0x2c then do
        let (as, rest) ← items item close fuel rest
        return (a :: as, rest)
      else none

/-- What stands behind an opening bracket. -/
def bracketed {α : Type} (item : Bytes → Option (α × Bytes)) (close : UInt8) (bs : Bytes) :
    Option (List α × Bytes) :=
  match skipSpace bs with
  | [] => none
  | c :: rest =>
    if c = close then some ([], rest) else items item close (c :: rest).length (c :: rest)

/-- A name, a colon and a value. -/
def member (value : Bytes → Option (Json × Bytes)) (bs : Bytes) :
    Option ((Bytes × Json) × Bytes) :=
  match skipSpace bs with
  | [] => none
  | c :: rest =>
    if c = 0x22 then do
      let (name, rest) ← stringBody rest
      match skipSpace rest with
      | [] => none
      | d :: rest =>
        if d = 0x3a then do
          let (j, rest) ← value rest
          return ((name, j), rest)
        else none
    else none

/-- A value in front of a text, with what follows it. `fuel` bounds the depth. -/
def value : ℕ → Bytes → Option (Json × Bytes)
  | 0, _ => none
  | fuel + 1, bs =>
    match skipSpace bs with
    | [] => none
    | c :: rest =>
      if c = 0x22 then (stringBody rest).map fun r => (.string r.1, r.2)
      else if c = 0x5b then (bracketed (value fuel) 0x5d rest).map fun r => (.array r.1, r.2)
      else if c = 0x7b then
        (bracketed (member (value fuel)) 0x7d rest).map fun r => (.object r.1, r.2)
      else if c = 0x6e then literal (ascii "null") .null (c :: rest)
      else if c = 0x74 then literal (ascii "true") (.bool true) (c :: rest)
      else if c = 0x66 then literal (ascii "false") (.bool false) (c :: rest)
      else numberText (c :: rest)

/-- The value of a whole text. -/
def parse (text : Bytes) : Option Json :=
  match value (text.length + 1) text with
  | some (j, rest) => if skipSpace rest = [] then some j else none
  | none => none

/-! ## Where a value ends -/

/-- A value is followed by nothing, by a comma or by a closing bracket. -/
def Ends (rest : Bytes) : Prop :=
  ∀ c ∈ rest.head?, c = 0x2c ∨ c = 0x5d ∨ c = 0x7d

theorem ends_nil : Ends [] := by
  intro c hc
  cases hc

theorem ends_cons {c : UInt8} (h : c = 0x2c ∨ c = 0x5d ∨ c = 0x7d) (rest : Bytes) :
    Ends (c :: rest) := by
  intro d hd
  obtain rfl := Option.some.inj hd
  exact h

theorem Ends.not_digit {rest : Bytes} (h : Ends rest) : ∀ c ∈ rest.head?, ¬isDigit c := by
  intro c hc
  rcases h c hc with rfl | rfl | rfl <;> decide

theorem skipSpace_cons {c : UInt8} (h : isSpace c = false) (rest : Bytes) :
    skipSpace (c :: rest) = c :: rest := by
  rw [skipSpace, List.dropWhile_cons_of_neg (by simp [h])]

theorem Ends.fractionPart {rest : Bytes} (h : Ends rest) :
    Json.fractionPart rest = some ([], rest) := by
  cases rest with
  | nil => rfl
  | cons c rest => rcases h c rfl with rfl | rfl | rfl <;> rfl

theorem Ends.exponentPart {rest : Bytes} (h : Ends rest) :
    Json.exponentPart rest = some (0, rest) := by
  cases rest with
  | nil => rfl
  | cons c rest => rcases h c rfl with rfl | rfl | rfl <;> rfl

/-! ## Texts that are read as one thing -/

/-- The first byte of a value or of a member: no blank, and no bracket that closes. -/
def Starts (text : Bytes) : Prop :=
  ∃ c rest, text = c :: rest ∧ isSpace c = false ∧ c ≠ 0x5d ∧ c ≠ 0x7d

/-- `item` makes `a` of `text` and stops behind it. -/
structure ReadsBy {α : Type} (item : Bytes → Option (α × Bytes)) (text : Bytes) (a : α) :
    Prop where
  starts : Starts text
  reads : ∀ rest, Ends rest → item (text ++ rest) = some (a, rest)

/-- `text` is a JSON text of `j`. -/
def Reads (text : Bytes) (j : Json) : Prop :=
  ∀ fuel, text.length < fuel → ReadsBy (value fuel) text j

/-- `body` is the text of the string `s`, without its quotes. -/
def Spells (body s : Bytes) : Prop :=
  ∀ rest, stringBody (body ++ 0x22 :: rest) = some (s, rest)

/-- **A text of a value is parsed as it.** -/
theorem Reads.parse {text : Bytes} {j : Json} (h : Reads text j) :
    Json.parse text = some j := by
  have hreads := (h (text.length + 1) (by omega)).reads [] ends_nil
  rw [List.append_nil] at hreads
  rw [Json.parse, hreads]
  exact if_pos rfl

theorem starts_cons {c : UInt8} (hspace : isSpace c = false) (hbracket : c ≠ 0x5d)
    (hbrace : c ≠ 0x7d) (rest : Bytes) : Starts (c :: rest) :=
  ⟨c, rest, rfl, hspace, hbracket, hbrace⟩

/-- To be read as a value a text has to be read so with one unit of fuel more than its length. -/
theorem reads_of_succ {text : Bytes} {j : Json} (hstarts : Starts text)
    (h : ∀ fuel rest, text.length ≤ fuel → Ends rest →
      value (fuel + 1) (text ++ rest) = some (j, rest)) :
    Reads text j := by
  intro fuel hfuel
  refine ⟨hstarts, fun rest hends => ?_⟩
  obtain ⟨n, rfl⟩ : ∃ n, fuel = n + 1 := ⟨fuel - 1, by omega⟩
  exact h n rest (by omega) hends

/-! ## Literals, numbers and strings -/

theorem reads_null : Reads (ascii "null") .null := by
  refine reads_of_succ (starts_cons rfl (by decide) (by decide) _) fun fuel rest _ _ => ?_
  have hliteral : literal (ascii "null") .null (ascii "null" ++ rest) = some (.null, rest) := by
    rw [literal, if_pos (List.prefix_append _ _), List.drop_left]
  exact hliteral

theorem isDigit_of_mem_digitBytes {n : ℕ} {c : UInt8} (hc : c ∈ digitBytes n) :
    isDigit c = true := by
  have hrange := digit_range hc
  rw [isDigit, Bool.and_eq_true, decide_eq_true_eq, decide_eq_true_eq, UInt8.le_iff_toNat_le,
    UInt8.le_iff_toNat_le]
  exact hrange

theorem wholePart_digitBytes (n : ℕ) {rest : Bytes} (h : Ends rest) :
    wholePart (digitBytes n ++ rest) = some (digitBytes n, rest) := by
  have hdigits : ∀ c ∈ digitBytes n, isDigit c = true := fun c hc => isDigit_of_mem_digitBytes hc
  have hzero : ¬((digitBytes n).head? = some 0x30 ∧ digitBytes n ≠ [0x30]) := by
    rintro ⟨hhead, hne⟩
    by_cases hn : n = 0
    · rw [hn] at hne
      exact hne (digitBytes_of_lt (by norm_num))
    · exact head_digitBytes_ne hn hhead
  rw [wholePart, takeWhile_append_of_head hdigits h.not_digit,
    dropWhile_append_of_head hdigits h.not_digit]
  exact if_neg (not_or.mpr ⟨digitBytes_ne_nil n, hzero⟩)

theorem sign_digitBytes (n : ℕ) (rest : Bytes) :
    sign false (digitBytes n ++ rest) = (1, digitBytes n ++ rest) := by
  obtain ⟨c, ds, hcons⟩ := List.exists_cons_of_ne_nil (digitBytes_ne_nil n)
  have hdash : c ≠ 0x2d := by
    rintro rfl
    exact dash_notMem_digitBytes n (hcons ▸ List.mem_cons_self)
  rw [hcons, List.cons_append, sign, if_neg hdash, if_neg (by simp)]

theorem numberText_decimal (n : ℤ) {rest : Bytes} (h : Ends rest) :
    numberText (decimal n ++ rest) = some (.number n 0, rest) := by
  have hparts : ∀ s : ℤ, (do
      let (whole, bs) ← wholePart (digitBytes n.natAbs ++ rest)
      let (fraction, bs) ← fractionPart bs
      let (exponent, bs) ← exponentPart bs
      return (Json.number (s * digitsValue (whole ++ fraction)) (exponent - fraction.length), bs))
      = some (.number (s * n.natAbs) 0, rest) := by
    intro s
    simp only [wholePart_digitBytes n.natAbs h, h.fractionPart, h.exponentPart,
      Option.bind_eq_bind, Option.bind_some, List.append_nil, digitsValue_digitBytes,
      List.length_nil]
    rfl
  by_cases hneg : n < 0
  · rw [decimal_of_neg hneg]
    refine (hparts (-1)).trans ?_
    rw [Int.ofNat_natAbs_of_nonpos (by omega)]
    simp
  · rw [decimal_of_nonneg (by omega), numberText, sign_digitBytes]
    refine (hparts 1).trans ?_
    rw [Int.natAbs_of_nonneg (by omega), one_mul]

/-- A numeral starts with a dash or with a digit. -/
theorem decimal_cons (n : ℤ) :
    ∃ c rest, decimal n = c :: rest ∧ (c = 0x2d ∨ 48 ≤ c.toNat ∧ c.toNat ≤ 57) := by
  by_cases hneg : n < 0
  · exact ⟨0x2d, _, decimal_of_neg hneg, Or.inl rfl⟩
  · obtain ⟨c, ds, hcons⟩ := List.exists_cons_of_ne_nil (digitBytes_ne_nil n.natAbs)
    refine ⟨c, ds, (decimal_of_nonneg (by omega)).trans hcons, Or.inr ?_⟩
    exact digit_range (n := n.natAbs) (hcons ▸ List.mem_cons_self)

theorem reads_decimal (n : ℤ) : Reads (decimal n) (.number n 0) := by
  obtain ⟨c, ds, hcons, hc⟩ := decimal_cons n
  have hfirst : isSpace c = false ∧ c ≠ 0x22 ∧ c ≠ 0x5b ∧ c ≠ 0x7b ∧ c ≠ 0x6e ∧ c ≠ 0x74 ∧
      c ≠ 0x66 ∧ c ≠ 0x5d ∧ c ≠ 0x7d := by
    rcases hc with rfl | ⟨hlow, hhigh⟩
    · decide
    · refine ⟨?_, ?_, ?_, ?_, ?_, ?_, ?_, ?_, ?_⟩
      · by_contra hspace
        rw [Bool.not_eq_false, isSpace] at hspace
        simp only [Bool.or_eq_true, decide_eq_true_eq] at hspace
        rcases hspace with ((rfl | rfl) | rfl) | rfl <;> exact absurd hlow (by decide)
      all_goals
        rintro rfl
        first
          | exact absurd hlow (by decide)
          | exact absurd hhigh (by decide)
  obtain ⟨hspace, hquote, hbracket, hbrace, hn, ht, hf, hclose, hclose'⟩ := hfirst
  refine reads_of_succ ⟨c, ds, hcons, hspace, hclose, hclose'⟩ fun fuel rest _ hends => ?_
  have htext := numberText_decimal n hends
  rw [hcons, List.cons_append] at htext ⊢
  rw [value, skipSpace_cons hspace]
  dsimp only
  rw [if_neg hquote, if_neg hbracket, if_neg hbrace, if_neg hn, if_neg ht, if_neg hf, htext]

theorem reads_string {body s : Bytes} (h : Spells body s) :
    Reads (0x22 :: (body ++ [0x22])) (.string s) := by
  refine reads_of_succ (starts_cons rfl (by decide) (by decide) _) fun fuel rest _ _ => ?_
  rw [List.cons_append, List.append_assoc, List.singleton_append, value, skipSpace_cons rfl]
  dsimp only
  rw [if_pos rfl, h rest]
  rfl

/-! ## Strings, byte by byte -/

theorem spells_nil : Spells [] [] := by
  intro rest
  rw [List.nil_append, stringBody.eq_def]
  exact if_pos rfl

theorem Spells.plain {body s : Bytes} {c : UInt8} (h : Spells body s) (hquote : c ≠ 0x22)
    (hslash : c ≠ 0x5c) (hcontrol : ¬c < 0x20) : Spells (c :: body) (c :: s) := by
  intro rest
  rw [List.cons_append, stringBody.eq_def]
  dsimp only
  rw [if_neg hquote, if_neg hslash, if_neg hcontrol, h rest]
  rfl

theorem Spells.short {body s : Bytes} {c e : UInt8} (h : Spells body s)
    (hescape : shortEscape e = some c) (hunit : e ≠ 0x75) :
    Spells (0x5c :: e :: body) (c :: s) := by
  intro rest
  rw [List.cons_append, List.cons_append, stringBody.eq_def]
  dsimp only
  rw [if_neg (by decide), if_pos rfl, if_neg hunit, hescape, h rest]
  rfl

theorem Spells.unit {body s : Bytes} {x y z w : UInt8} {n : ℕ} (h : Spells body s)
    (hunit : Json.unit x y z w = some n) :
    Spells (0x5c :: 0x75 :: x :: y :: z :: w :: body) (unitBytes n ++ s) := by
  intro rest
  simp only [List.cons_append]
  rw [stringBody.eq_def]
  dsimp only
  rw [if_neg (by decide), if_pos rfl, if_pos rfl, hunit, h rest]
  rfl

/-! ## Arrays and objects -/

/-- Texts with commas between them. -/
def joined : List Bytes → Bytes
  | [] => []
  | t :: ts => t ++ ts.flatMap fun t => 0x2c :: t

theorem length_le_joined (t : Bytes) (ts : List Bytes) :
    ts.length ≤ (joined (t :: ts)).length := by
  induction ts generalizing t with
  | nil => exact Nat.zero_le _
  | cons u ts ih =>
    have hle := ih u
    rw [joined, List.length_append] at hle ⊢
    rw [List.flatMap_cons, List.length_append, List.length_cons, List.length_cons]
    omega

theorem length_le_joined_of_mem {t : Bytes} {ts : List Bytes} (h : t ∈ ts) :
    t.length ≤ (joined ts).length := by
  cases ts with
  | nil => cases h
  | cons u ts =>
    rw [joined, List.length_append]
    rcases List.mem_cons.mp h with rfl | hmem
    · omega
    · obtain ⟨before, after, rfl⟩ := List.append_of_mem hmem
      rw [List.flatMap_append, List.flatMap_cons, List.length_append, List.length_append,
        List.length_cons]
      omega

section Items

variable {α : Type} {item : Bytes → Option (α × Bytes)} {close : UInt8}

/-- One item after another is read, up to the bracket. -/
theorem items_joined (hclose : close = 0x5d ∨ close = 0x7d) {t : Bytes} {a : α}
    {ts : List Bytes} {as : List α} (hfirst : ReadsBy item t a)
    (hothers : List.Forall₂ (ReadsBy item) ts as) (rest : Bytes) {fuel : ℕ}
    (hfuel : ts.length < fuel) :
    items item close fuel (joined (t :: ts) ++ close :: rest) = some (a :: as, rest) := by
  induction hothers generalizing t a fuel with
  | nil =>
    obtain ⟨n, rfl⟩ : ∃ n, fuel = n + 1 := ⟨fuel - 1, (Nat.sub_add_cancel hfuel).symm⟩
    have hread := hfirst.reads (close :: rest) (ends_cons (Or.inr hclose) rest)
    have hspace : isSpace close = false := by rcases hclose with rfl | rfl <;> rfl
    simp only [joined, List.flatMap_nil, List.append_nil, items, hread, Option.bind_eq_bind,
      Option.bind_some, skipSpace_cons hspace, if_true]
  | @cons u b ts as hnext _ ih =>
    obtain ⟨n, rfl⟩ : ∃ n, fuel = n + 1 := ⟨fuel - 1, by omega⟩
    have hsplit : joined (t :: u :: ts) ++ close :: rest =
        t ++ 0x2c :: (joined (u :: ts) ++ close :: rest) := by
      simp [joined]
    have hread := hfirst.reads _ (ends_cons (Or.inl rfl) (joined (u :: ts) ++ close :: rest))
    have hcomma : (0x2c : UInt8) ≠ close := by rcases hclose with rfl | rfl <;> decide
    have hlater := ih hnext (Nat.lt_of_succ_lt_succ hfuel)
    rw [hsplit, items, hread]
    simp only [Option.bind_eq_bind, Option.bind_some, skipSpace_cons (c := 0x2c) rfl,
      if_neg hcomma, if_true, hlater]
    rfl

/-- **Items in brackets are read.** -/
theorem bracketed_joined (hclose : close = 0x5d ∨ close = 0x7d) {ts : List Bytes}
    {as : List α} (h : List.Forall₂ (ReadsBy item) ts as) (rest : Bytes) :
    bracketed item close (joined ts ++ close :: rest) = some (as, rest) := by
  cases h with
  | nil =>
    have hspace : isSpace close = false := by rcases hclose with rfl | rfl <;> rfl
    rw [joined, List.nil_append, bracketed, skipSpace_cons hspace]
    exact if_pos rfl
  | @cons t a ts as hfirst hothers =>
    obtain ⟨c, text, rfl, hspace, hbracket, hbrace⟩ := hfirst.starts
    have hne : c ≠ close := by rcases hclose with rfl | rfl <;> assumption
    have hlength : ts.length < (joined ((c :: text) :: ts) ++ close :: rest).length := by
      have hle := length_le_joined (c :: text) ts
      rw [List.length_append, List.length_cons]
      omega
    have hitems := items_joined hclose hfirst hothers rest hlength
    simp only [joined, List.cons_append] at hitems ⊢
    rw [bracketed, skipSpace_cons hspace]
    dsimp only
    rw [if_neg hne, hitems]

end Items

/-- `text` is a JSON text of the member `m`. -/
def ReadsMember (text : Bytes) (m : Bytes × Json) : Prop :=
  ∀ fuel, text.length < fuel → ReadsBy (member (value fuel)) text m

theorem readsMember {body name text : Bytes} {j : Json} (hname : Spells body name)
    (hvalue : Reads text j) : ReadsMember (0x22 :: (body ++ 0x22 :: 0x3a :: text)) (name, j) := by
  intro fuel hfuel
  refine ⟨starts_cons rfl (by decide) (by decide) _, fun rest hends => ?_⟩
  have hlength : text.length < fuel := by
    simp only [List.length_cons, List.length_append] at hfuel
    omega
  simp only [List.cons_append, List.append_assoc]
  rw [member, skipSpace_cons rfl]
  dsimp only
  rw [if_pos rfl, hname]
  simp only [Option.bind_eq_bind, Option.bind_some, skipSpace_cons (c := 0x3a) rfl, if_true,
    (hvalue fuel hlength).reads rest hends]
  rfl

/-- The items of a list are no longer than the list, so the fuel for it is enough for them. -/
theorem forall₂_readsBy {α : Type} {item : ℕ → Bytes → Option (α × Bytes)} {ts : List Bytes}
    {as : List α}
    (h : List.Forall₂ (fun t a => ∀ fuel, t.length < fuel → ReadsBy (item fuel) t a) ts as)
    (fuel : ℕ) (hfuel : (joined ts).length < fuel) :
    List.Forall₂ (ReadsBy (item fuel)) ts as := by
  obtain ⟨hlength, hall⟩ := List.forall₂_iff_zip.mp h
  refine List.forall₂_iff_zip.mpr ⟨hlength, fun {t a} hmem => ?_⟩
  exact hall hmem fuel (lt_of_le_of_lt (length_le_joined_of_mem (List.of_mem_zip hmem).1) hfuel)

theorem reads_array {ts : List Bytes} {js : List Json} (h : List.Forall₂ Reads ts js) :
    Reads (0x5b :: (joined ts ++ [0x5d])) (.array js) := by
  refine reads_of_succ (starts_cons rfl (by decide) (by decide) _) fun fuel rest hfuel _ => ?_
  have hlength : (joined ts).length < fuel := by
    rw [List.length_cons, List.length_append] at hfuel
    omega
  have hitems := bracketed_joined (Or.inl rfl) (forall₂_readsBy h fuel hlength) rest
  rw [List.cons_append, List.append_assoc, List.singleton_append, value, skipSpace_cons rfl]
  dsimp only
  rw [if_neg (by decide), if_pos rfl, hitems]
  rfl

theorem reads_object {ts : List Bytes} {ms : List (Bytes × Json)}
    (h : List.Forall₂ ReadsMember ts ms) :
    Reads (0x7b :: (joined ts ++ [0x7d])) (.object ms) := by
  refine reads_of_succ (starts_cons rfl (by decide) (by decide) _) fun fuel rest hfuel _ => ?_
  have hlength : (joined ts).length < fuel := by
    rw [List.length_cons, List.length_append] at hfuel
    omega
  have hitems := bracketed_joined (Or.inr rfl) (forall₂_readsBy h fuel hlength) rest
  rw [List.cons_append, List.append_assoc, List.singleton_append, value, skipSpace_cons rfl]
  dsimp only
  rw [if_neg (by decide), if_neg (by decide), if_pos rfl, hitems]
  rfl

end Json

end StrikeMQ.Lib
