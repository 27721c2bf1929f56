import StrikeMQ.Lib.Bytes

/-!
# Length-prefixed data: layouts and parsers

A message of a binary protocol is a sequence of big-endian words, strings behind a 16-bit
length, byte strings behind a 32-bit length and arrays behind a 32-bit count. The first part
says which bytes such data is laid out as. The second part goes the other way: a `Parser` takes
a value off the front of a byte string, `Parses` says that it takes exactly the given bytes,
whatever follows them, and `Consumes` that whatever it returns, it took a given number of
bytes; `Yields` says what holds of everything a parser can return. All three are closed under
sequencing, so what a parser of a whole message does is read off from its parts.
-/

set_option autoImplicit false

namespace StrikeMQ.Lib

/-! ## Layouts -/

/-- The value fits in a signed word of `w` bytes. -/
def Fits (w : ℕ) (v : ℤ) : Prop :=
  -((256 ^ w : ℕ) : ℤ) ≤ v * 2 ∧ v * 2 < ((256 ^ w : ℕ) : ℤ)

instance (w : ℕ) (v : ℤ) : Decidable (Fits w v) :=
  inferInstanceAs (Decidable (_ ∧ _))

/-- A signed word of `w` bytes. -/
abbrev Word (w : ℕ) := { v : ℤ // Fits w v }

/-- A string short enough for a 16-bit length. -/
abbrev ShortString := { s : Bytes // s.length < 2 ^ 15 }

/-- Bytes, and elements, few enough for a 32-bit length. -/
abbrev LongBytes := { s : Bytes // s.length < 2 ^ 31 }

abbrev WireList (α : Type) := { xs : List α // xs.length < 2 ^ 31 }

def wireString (s : Bytes) : Bytes :=
  beInt 2 s.length ++ s

/-- The length -1 stands for the missing string. -/
def wireNullableString : Option Bytes → Bytes
  | none => beInt 2 (-1)
  | some s => wireString s

def wireBytes (s : Bytes) : Bytes :=
  beInt 4 s.length ++ s

def wireArray {α : Type} (layout : α → Bytes) (xs : List α) : Bytes :=
  beInt 4 xs.length ++ xs.flatMap layout

theorem intOfBe_beInt_of_fits {w : ℕ} {v : ℤ} (h : Fits w v) : intOfBe (beInt w v) = v := by
  rw [intOfBe_beInt]
  exact Int.bmod_eq_of_le_mul_two h.1 h.2

theorem fits_two_of_lt {n : ℕ} (h : n < 2 ^ 15) : Fits 2 n := by
  constructor <;> norm_num <;> omega

theorem fits_four_of_lt {n : ℕ} (h : n < 2 ^ 31) : Fits 4 n := by
  constructor <;> norm_num <;> omega

theorem fits_four_of_bounds {v : ℤ} (hlo : -2 ^ 31 ≤ v) (hhi : v < 2 ^ 31) : Fits 4 v := by
  constructor <;> norm_num <;> omega

theorem fits_eight_of_bounds {v : ℤ} (hlo : -2 ^ 63 ≤ v) (hhi : v < 2 ^ 63) : Fits 8 v := by
  constructor <;> norm_num <;> omega

theorem fits_bmod (w : ℕ) (v : ℤ) : Fits w (Int.bmod v (256 ^ w)) := by
  have hpos : 0 < 256 ^ w := Nat.pow_pos (by norm_num)
  have hlo := Int.le_bmod (x := v) hpos
  have hhi := Int.bmod_lt (x := v) hpos
  constructor <;> omega

/-- What is read from `w` bytes fits them. -/
theorem fits_intOfBe (bs : Bytes) : Fits bs.length (intOfBe bs) :=
  fits_bmod bs.length (beNat bs)

/-- The word that an integer is cut to. -/
def wordOf (w : ℕ) (v : ℤ) : Word w :=
  ⟨Int.bmod v (256 ^ w), fits_bmod w v⟩

theorem wordOf_of_fits {w : ℕ} {v : ℤ} (h : Fits w v) : (wordOf w v).val = v :=
  Int.bmod_eq_of_le_mul_two h.1 h.2

@[simp] theorem wordOf_zero (w : ℕ) : (wordOf w 0).val = 0 :=
  Int.zero_bmod

theorem bmod_eq_self_iff {w : ℕ} {v : ℤ} : Int.bmod v (256 ^ w) = v ↔ Fits w v := by
  constructor
  · intro h
    rw [← h]
    exact fits_bmod w v
  · intro h
    exact Int.bmod_eq_of_le_mul_two h.1 h.2

theorem toInt32_eq_self_iff {v : ℤ} : toInt32 v = v ↔ Fits 4 v :=
  bmod_eq_self_iff (w := 4)

theorem toInt64_eq_self_iff {v : ℤ} : toInt64 v = v ↔ Fits 8 v :=
  bmod_eq_self_iff (w := 8)

/-- A word fits a larger word. -/
theorem Fits.mono {w w' : ℕ} {v : ℤ} (h : Fits w v) (hle : w ≤ w') : Fits w' v := by
  have hpow : 256 ^ w ≤ 256 ^ w' := Nat.pow_le_pow_right (by norm_num) hle
  obtain ⟨hlo, hhi⟩ := h
  constructor <;> omega

/-- An array of elements that take a byte each has at most as many elements as bytes. -/
theorem length_le_length_flatMap {α : Type} {layout : α → Bytes} {xs : List α}
    (h : ∀ x ∈ xs, layout x ≠ []) : xs.length ≤ (xs.flatMap layout).length := by
  induction xs with
  | nil => exact Nat.zero_le _
  | cons x xs ih =>
    have hx := List.length_pos_iff.mpr (h x List.mem_cons_self)
    have hxs := ih fun y hy => h y (List.mem_cons_of_mem _ hy)
    rw [List.flatMap_cons, List.length_append, List.length_cons]
    omega

/-- What is at most the bytes of each element is, in sum, at most the bytes of all. -/
theorem sum_le_length_flatMap {α : Type} {layout : α → Bytes} {f : α → ℕ}
    (h : ∀ x, f x ≤ (layout x).length) (xs : List α) :
    (xs.map f).sum ≤ (xs.flatMap layout).length := by
  rw [List.length_flatMap]
  exact List.sum_le_sum fun x _ => h x

theorem length_le_of_mem {α : Type} (layout : α → Bytes) {x : α} {xs : List α} (h : x ∈ xs) :
    (layout x).length ≤ (xs.flatMap layout).length := by
  rw [List.flatMap_def]
  exact (List.sublist_flatten_of_mem (List.mem_map_of_mem h)).length_le

/-! ## Parsers -/

/-- A parser takes a value off the front of a byte string. -/
abbrev Parser (α : Type) := StateT Bytes Option α

namespace Parser

variable {α β : Type}

def take (n : ℕ) : Parser Bytes :=
  fun bs => if n ≤ bs.length then some (bs.take n, bs.drop n) else none

def word (w : ℕ) : Parser ℤ := do
  let bs ← take w
  return intOfBe bs

def string : Parser Bytes := do
  let n ← word 2
  if n < 0 then failure else take n.toNat

def bytes : Parser Bytes := do
  let n ← word 4
  if n < 0 then failure else take n.toNat

def times (p : Parser α) : ℕ → Parser (List α)
  | 0 => pure []
  | n + 1 => do
    let a ← p
    let rest ← times p n
    return a :: rest

def array (p : Parser α) : Parser (List α) := do
  let n ← word 4
  if n < 0 then failure else times p n.toNat

/-- The length -1 stands for the missing string. -/
def nullableString : Parser (Option Bytes) := do
  let n ← word 2
  if n = -1 then return none
  else if n < 0 then failure
  else
    let s ← take n.toNat
    return some s

/-- The length -1 stands for the missing bytes. -/
def nullableBytes : Parser (Option Bytes) := do
  let n ← word 4
  if n = -1 then return none
  else if n < 0 then failure
  else
    let s ← take n.toNat
    return some s

/-- The count -1 stands for the missing array. -/
def nullableArray (p : Parser α) : Parser (Option (List α)) := do
  let n ← word 4
  if n = -1 then return none
  else if n < 0 then failure
  else
    let xs ← times p n.toNat
    return some xs

/-- A field that came with a version, and has a value of its own before. -/
def since (first version : ℕ) (p : Parser α) (before : α) : Parser α :=
  if first ≤ version then p else pure before

/-- A field that went with a version, and has a value of its own from then on. -/
def before (end_ version : ℕ) (p : Parser α) (after : α) : Parser α :=
  if version < end_ then p else pure after

/-- What a message holds behind its 32-bit length, if the parser takes all of it. -/
def message (p : Parser α) (bs : Bytes) : Option α :=
  match word 4 bs with
  | none => none
  | some (size, body) =>
    if size = body.length then
      match p body with
      | some (v, []) => some v
      | _ => none
    else none

/-- The parser takes exactly `bs` off a string that starts with it, and returns `v`. -/
def Parses (p : Parser α) (bs : Bytes) (v : α) : Prop :=
  ∀ rest, p (bs ++ rest) = some (v, rest)

/-- Where the parser succeeds, it takes `n` bytes. -/
def Consumes (p : Parser α) (n : ℕ) : Prop :=
  ∀ bs v rest, p bs = some (v, rest) → bs.length = n + rest.length

theorem bind_apply (p : Parser α) (f : α → Parser β) (bs : Bytes) :
    (p >>= f) bs = (p bs).bind fun r => f r.1 r.2 := by
  show StateT.bind p f bs = _
  unfold StateT.bind
  cases p bs with
  | none => rfl
  | some r => rfl

theorem Parses.pure (v : α) : Parses (pure v) [] v :=
  fun _ => rfl

/-- After a prefix that parses, the rest of the program runs on the rest of the string. -/
theorem Parses.run_bind {p : Parser α} {bs : Bytes} {v : α} (h : Parses p bs v)
    (f : α → Parser β) (rest : Bytes) : (p >>= f) (bs ++ rest) = f v rest := by
  rw [bind_apply, h rest]
  rfl

theorem Parses.bind {p : Parser α} {bs cs : Bytes} {v : α} {f : α → Parser β} {w : β}
    (h : Parses p bs v) (hf : Parses (f v) cs w) : Parses (p >>= f) (bs ++ cs) w := by
  intro rest
  rw [List.append_assoc, h.run_bind f]
  exact hf rest

/-- The last step of a parser returns. -/
theorem Parses.bind_pure {p : Parser α} {bs : Bytes} {v : α} (h : Parses p bs v) (f : α → β) :
    Parses (p >>= fun y => Pure.pure (f y)) bs (f v) := by
  rw [← List.append_nil bs]
  exact h.bind (Parses.pure (f v))

theorem parses_take (bs : Bytes) : Parses (take bs.length) bs bs := by
  intro rest
  simp [take]

theorem parses_word {w : ℕ} {v : ℤ} (h : Fits w v) : Parses (word w) (beInt w v) v := by
  have htake : Parses (take w) (beInt w v) (beInt w v) := by
    simpa using parses_take (beInt w v)
  have hword := htake.bind_pure intOfBe
  rwa [intOfBe_beInt_of_fits h] at hword

theorem parses_string {s : Bytes} (h : s.length < 2 ^ 15) : Parses string (wireString s) s := by
  refine (parses_word (fits_two_of_lt h)).bind ?_
  rw [if_neg (by omega), Int.toNat_natCast]
  exact parses_take s

theorem parses_bytes {s : Bytes} (h : s.length < 2 ^ 31) : Parses bytes (wireBytes s) s := by
  refine (parses_word (fits_four_of_lt h)).bind ?_
  rw [if_neg (by omega), Int.toNat_natCast]
  exact parses_take s

theorem parses_times {p : Parser α} {layout : β → Bytes} {value : β → α} {xs : List β}
    (h : ∀ x ∈ xs, Parses p (layout x) (value x)) :
    Parses (times p xs.length) (xs.flatMap layout) (xs.map value) := by
  induction xs with
  | nil => exact Parses.pure []
  | cons x xs ih =>
    have hrest := ih fun y hy => h y (List.mem_cons_of_mem _ hy)
    exact (h x List.mem_cons_self).bind (hrest.bind_pure fun vs => value x :: vs)

theorem parses_array {p : Parser α} {layout : β → Bytes} {value : β → α} {xs : List β}
    (hlen : xs.length < 2 ^ 31) (h : ∀ x ∈ xs, Parses p (layout x) (value x)) :
    Parses (array p) (wireArray layout xs) (xs.map value) := by
  refine (parses_word (fits_four_of_lt hlen)).bind ?_
  rw [if_neg (by omega), Int.toNat_natCast]
  exact parses_times h

theorem parses_nullableString {s : Bytes} (h : s.length < 2 ^ 15) :
    Parses nullableString (wireString s) (some s) := by
  refine (parses_word (fits_two_of_lt h)).bind ?_
  rw [if_neg (by omega), if_neg (by omega), Int.toNat_natCast]
  exact (parses_take s).bind_pure some

theorem parses_nullableBytes {s : Bytes} (h : s.length < 2 ^ 31) :
    Parses nullableBytes (wireBytes s) (some s) := by
  refine (parses_word (fits_four_of_lt h)).bind ?_
  rw [if_neg (by omega), if_neg (by omega), Int.toNat_natCast]
  exact (parses_take s).bind_pure some

theorem parses_nullableArray_none (p : Parser α) : Parses (nullableArray p) (beInt 4 (-1)) none := by
  rw [← List.append_nil (beInt 4 (-1))]
  refine (parses_word (by decide)).bind ?_
  rw [if_pos rfl]
  exact Parses.pure none

theorem Parses.since {p : Parser α} {bs : Bytes} {v : α} (h : Parses p bs v) (first version : ℕ)
    (early : α) :
    Parses (since first version p early) (if first ≤ version then bs else [])
      (if first ≤ version then v else early) := by
  unfold Parser.since
  split
  · exact h
  · exact Parses.pure early

theorem Parses.before {p : Parser α} {bs : Bytes} {v : α} (h : Parses p bs v) (end_ version : ℕ)
    (late : α) :
    Parses (before end_ version p late) (if version < end_ then bs else [])
      (if version < end_ then v else late) := by
  unfold Parser.before
  split
  · exact h
  · exact Parses.pure late

/-- **A message that the parser takes whole.** -/
theorem message_wireBytes {p : Parser α} {body : Bytes} {v : α} (h : Parses p body v)
    (hlen : body.length < 2 ^ 31) : message p (wireBytes body) = some v := by
  have hsize := parses_word (fits_four_of_lt hlen) body
  have hbody := h []
  rw [List.append_nil] at hbody
  simp only [message, wireBytes, hsize, hbody, if_true]

theorem consumes_pure (v : α) : Consumes (pure v : Parser α) 0 := by
  intro bs v' rest h
  obtain ⟨-, rfl⟩ := Prod.mk.inj (Option.some.inj h)
  omega

theorem Consumes.bind {p : Parser α} {n k : ℕ} {f : α → Parser β} (h : Consumes p n)
    (hf : ∀ v, Consumes (f v) k) : Consumes (p >>= f) (n + k) := by
  intro bs w rest hrun
  rw [bind_apply] at hrun
  obtain ⟨⟨v, mid⟩, hp, hfv⟩ := Option.bind_eq_some_iff.mp hrun
  have h₁ := h bs v mid hp
  have h₂ := hf v mid w rest hfv
  omega

theorem consumes_take (n : ℕ) : Consumes (take n) n := by
  intro bs v rest h
  unfold take at h
  split at h
  · next hle =>
    obtain ⟨-, rfl⟩ := Prod.mk.inj (Option.some.inj h)
    rw [List.length_drop]
    omega
  · exact absurd h (by simp)

theorem consumes_word (w : ℕ) : Consumes (word w) w :=
  (consumes_take w).bind fun _ => consumes_pure _

theorem Consumes.since {p : Parser α} {n : ℕ} (h : Consumes p n) (first version : ℕ) (v : α) :
    Consumes (since first version p v) (if first ≤ version then n else 0) := by
  unfold Parser.since
  split
  · exact h
  · exact consumes_pure v

theorem Consumes.times {p : Parser α} {n : ℕ} (h : Consumes p n) (k : ℕ) :
    Consumes (times p k) (k * n) := by
  induction k with
  | zero =>
    rw [Nat.zero_mul]
    exact consumes_pure []
  | succ k ih =>
    rw [Nat.succ_mul, Nat.add_comm (k * n)]
    exact h.bind fun _ => ih.bind fun _ => consumes_pure _

/-- Whatever the parser returns has the property. -/
def Yields (p : Parser α) (P : α → Prop) : Prop :=
  ∀ bs v rest, p bs = some (v, rest) → P v

theorem yields_true (p : Parser α) : Yields p fun _ => True :=
  fun _ _ _ _ => trivial

theorem yields_pure {v : α} {P : α → Prop} (h : P v) : Yields (pure v : Parser α) P := by
  intro bs v' rest hrun
  obtain ⟨rfl, -⟩ := Prod.mk.inj (Option.some.inj hrun)
  exact h

theorem Yields.bind {p : Parser α} {P : α → Prop} {f : α → Parser β} {Q : β → Prop}
    (h : Yields p P) (hf : ∀ v, P v → Yields (f v) Q) : Yields (p >>= f) Q := by
  intro bs w rest hrun
  rw [bind_apply] at hrun
  obtain ⟨⟨v, mid⟩, hp, hfv⟩ := Option.bind_eq_some_iff.mp hrun
  exact hf v (h bs v mid hp) mid w rest hfv

/-- The value of a field that does not matter. -/
theorem Yields.skip {p : Parser α} {f : α → Parser β} {Q : β → Prop}
    (hf : ∀ v, Yields (f v) Q) : Yields (p >>= f) Q :=
  (yields_true p).bind fun v _ => hf v

theorem yields_take (n : ℕ) : Yields (take n) fun bs => bs.length = n := by
  intro bs v rest h
  unfold take at h
  split at h
  · next hle =>
    obtain ⟨rfl, -⟩ := Prod.mk.inj (Option.some.inj h)
    rw [List.length_take, min_eq_left hle]
  · exact absurd h (by simp)

theorem yields_word (w : ℕ) : Yields (word w) (Fits w) := by
  refine (yields_take w).bind fun bs hlen => yields_pure ?_
  rw [← hlen]
  exact fits_intOfBe bs

/-- No string of a message is longer than its 16-bit length can say. -/
theorem yields_string : Yields string fun s => s.length < 2 ^ 15 := by
  refine (yields_word 2).bind fun n hn => ?_
  split
  · intro bs v rest h
    exact absurd h (by simp [failure, StateT.failure])
  · intro bs v rest h
    have hlen := yields_take n.toNat bs v rest h
    have hfits := hn.2
    norm_num at hfits
    omega

theorem Yields.times {p : Parser α} {P : α → Prop} (h : Yields p P) (k : ℕ) :
    Yields (times p k) fun vs => ∀ v ∈ vs, P v := by
  induction k with
  | zero => exact yields_pure (by simp)
  | succ k ih =>
    refine h.bind fun v hv => ih.bind fun vs hvs => yields_pure ?_
    exact List.forall_mem_cons.mpr ⟨hv, hvs⟩

theorem Yields.array {p : Parser α} {P : α → Prop} (h : Yields p P) :
    Yields (array p) fun vs => ∀ v ∈ vs, P v := by
  refine Yields.skip fun n => ?_
  split
  · intro bs v rest hrun
    exact absurd hrun (by simp [failure, StateT.failure])
  · exact h.times n.toNat

/-- What a parsed message holds was returned by the parser. -/
theorem Yields.message {p : Parser α} {P : α → Prop} (h : Yields p P) {bs : Bytes} {v : α}
    (hv : message p bs = some v) : P v := by
  unfold Parser.message at hv
  split at hv
  · exact absurd hv (by simp)
  · split at hv
    · split at hv
      · next hrun => exact Option.some.inj hv ▸ h _ _ _ hrun
      · exact absurd hv (by simp)
    · exact absurd hv (by simp)

/-- A message behind its 32-bit length, returned together with the length. -/
def sized : Parser Bytes := do
  let front ← take 4
  if intOfBe front < 0 then failure
  else
    let body ← take (intOfBe front).toNat
    return front ++ body

theorem parses_sized {body : Bytes} (h : body.length < 2 ^ 31) :
    Parses sized (wireBytes body) (wireBytes body) := by
  have hfront : Parses (take 4) (beInt 4 body.length) (beInt 4 body.length) := by
    simpa using parses_take (beInt 4 (body.length : ℤ))
  refine hfront.bind ?_
  rw [intOfBe_beInt_of_fits (fits_four_of_lt h), if_neg (by omega), Int.toNat_natCast]
  exact (parses_take body).bind_pure fun bs => beInt 4 body.length ++ bs

/-- A stream of messages, each taken off by the length in front of it. -/
def splitSized : ℕ → Bytes → Option (List Bytes)
  | _, [] => some []
  | 0, _ :: _ => none
  | fuel + 1, stream =>
    match sized stream with
    | none => none
    | some (message, rest) => (splitSized fuel rest).map (message :: ·)

/-- **A stream of messages splits into the messages.** -/
theorem splitSized_flatten {messages : List Bytes}
    (h : ∀ message ∈ messages, ∃ body : Bytes, message = wireBytes body ∧ body.length < 2 ^ 31)
    {fuel : ℕ} (hfuel : messages.length ≤ fuel) :
    splitSized fuel messages.flatten = some messages := by
  induction messages generalizing fuel with
  | nil => cases fuel <;> rfl
  | cons message messages ih =>
    rw [List.length_cons] at hfuel
    obtain ⟨fuel, rfl⟩ := Nat.exists_eq_add_of_le' (show 1 ≤ fuel by omega)
    obtain ⟨body, rfl, hbody⟩ := h message List.mem_cons_self
    have hrest := ih (fun m hm => h m (List.mem_cons_of_mem _ hm)) (show _ ≤ fuel by omega)
    have hne : ∃ b bs, (wireBytes body :: messages).flatten = b :: bs := by
      apply List.exists_cons_of_ne_nil
      rw [← List.length_pos_iff, List.flatten_cons, wireBytes, List.length_append,
        List.length_append, length_beInt]
      omega
    obtain ⟨b, bs, hcons⟩ := hne
    have hsized := parses_sized hbody messages.flatten
    rw [← List.flatten_cons, hcons] at hsized
    simp only [hcons, splitSized, hsized, hrest, Option.map_some]

end Parser

end StrikeMQ.Lib
