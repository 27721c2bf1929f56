import StrikeMQ.Lib.Bytes

/-!
# Programs that read a memory with holes

A memory maps addresses to bytes, relative to some place in it, and maps nothing at the
addresses where nothing may be read. A `MemReader` is a program with a state of its own
that reads such a memory. It has no outcome once it reads where nothing is mapped or does
something else that has no meaning. It carries a fact, so every program built from the
operations below has it: an outcome does not change when more memory gets mapped. So a
program that has an outcome on a buffer alone depends on nothing but the buffer.
-/

set_option autoImplicit false

namespace StrikeMQ.Lib

/-- The number of addresses; address arithmetic wraps here. -/
def addressSpace : ℕ := 2 ^ 64

abbrev Memory := ℕ → Option UInt8

namespace Memory

/-- Everything mapped in `m` is mapped in `m'`, to the same byte. -/
def Extends (m m' : Memory) : Prop :=
  ∀ a b, m a = some b → m' a = some b

/-- A buffer at address 0 and nothing else. -/
def ofBytes (bs : Bytes) : Memory :=
  fun a => bs[a]?

/-- A buffer at address 0, with whatever around it. -/
def Holds (m : Memory) (bs : Bytes) : Prop :=
  ∀ a, a < bs.length → m a = bs[a]?

/-- The bytes `bs` stand from address `a` on, before the addresses wrap. -/
structure HoldsAt (m : Memory) (a : ℕ) (bs : Bytes) : Prop where
  inside : a + bs.length < addressSpace
  bytes : ∀ i, i < bs.length → m (a + i) = bs[i]?

/-- A buffer at address 0 with zeros around it. -/
def padded (bs : Bytes) : Memory :=
  fun a => some (bs.getD a 0)

theorem extends_of_holds {m : Memory} {bs : Bytes} (h : m.Holds bs) : (ofBytes bs).Extends m := by
  intro a b hab
  have hlt : a < bs.length := by
    by_contra hge
    rw [ofBytes, List.getElem?_eq_none (by omega)] at hab
    exact absurd hab (by simp)
  rw [h a hlt]
  exact hab

theorem HoldsAt.left {m : Memory} {a : ℕ} {bs cs : Bytes} (h : m.HoldsAt a (bs ++ cs)) :
    m.HoldsAt a bs where
  inside := by
    have hlt := h.inside
    rw [List.length_append] at hlt
    omega
  bytes i hi := by
    rw [h.bytes i (by rw [List.length_append]; omega), List.getElem?_append_left hi]

theorem HoldsAt.right {m : Memory} {a : ℕ} {bs cs : Bytes} (h : m.HoldsAt a (bs ++ cs)) :
    m.HoldsAt (a + bs.length) cs where
  inside := by
    have hlt := h.inside
    rw [List.length_append] at hlt
    omega
  bytes i hi := by
    rw [Nat.add_assoc, h.bytes _ (by rw [List.length_append]; omega),
      List.getElem?_append_right (by omega), Nat.add_sub_cancel_left]

theorem HoldsAt.append {m : Memory} {a : ℕ} {bs cs : Bytes} (hbs : m.HoldsAt a bs)
    (hcs : m.HoldsAt (a + bs.length) cs) : m.HoldsAt a (bs ++ cs) where
  inside := by
    have hlt := hcs.inside
    rw [List.length_append]
    omega
  bytes i hi := by
    by_cases hlt : i < bs.length
    · rw [List.getElem?_append_left hlt]
      exact hbs.bytes i hlt
    · rw [List.length_append] at hi
      have hbyte := hcs.bytes (i - bs.length) (by omega)
      rw [List.getElem?_append_right (by omega)]
      rwa [show a + bs.length + (i - bs.length) = a + i by omega] at hbyte

theorem holdsAt_zero {m : Memory} {bs : Bytes} (hlen : bs.length < addressSpace)
    (h : m.Holds bs) : m.HoldsAt 0 bs where
  inside := by omega
  bytes i hi := by
    rw [Nat.zero_add]
    exact h i hi

theorem Holds.at_zero {m : Memory} {bs : Bytes} (h : m.Holds bs) (hlen : bs.length < 2 ^ 31) :
    m.HoldsAt 0 bs :=
  holdsAt_zero (by unfold addressSpace; omega) h

theorem holds_ofBytes (bs : Bytes) : (ofBytes bs).Holds bs :=
  fun _ _ => rfl

/-- What stands behind `pre` in a buffer. -/
theorem holdsAt_ofBytes {pre bs post : Bytes}
    (hlen : pre.length + bs.length < addressSpace) :
    (ofBytes (pre ++ (bs ++ post))).HoldsAt pre.length bs where
  inside := hlen
  bytes i hi := by
    rw [ofBytes, List.getElem?_append_right (by omega), Nat.add_sub_cancel_left,
      List.getElem?_append_left hi]

/-- Bytes that stand in a buffer are a slice of it. -/
theorem HoldsAt.slice_eq {seg bs : Bytes} {p : ℕ} (h : (ofBytes seg).HoldsAt p bs) :
    slice seg p bs.length = bs := by
  apply List.ext_getElem?
  intro i
  rw [slice]
  by_cases hi : i < bs.length
  · rw [List.getElem?_take_of_lt hi, List.getElem?_drop]
    exact h.bytes i hi
  · rw [List.getElem?_eq_none (by rw [List.length_take]; omega), List.getElem?_eq_none (by omega)]

theorem HoldsAt.length_le {seg bs : Bytes} {p : ℕ} (h : (ofBytes seg).HoldsAt p bs)
    (hne : bs ≠ []) : p + bs.length ≤ seg.length := by
  have hlen := congrArg List.length h.slice_eq
  have hpos := List.length_pos_iff.mpr hne
  rw [length_slice] at hlen
  omega

theorem holds_padded (bs : Bytes) : (padded bs).Holds bs := by
  intro a ha
  rw [padded, List.getD_eq_getElem?_getD, List.getElem?_eq_getElem ha, Option.getD_some]

end Memory

/-- The bytes from address `a` on, as many as asked for. -/
def loadBytes (m : Memory) : ℕ → ℕ → Option Bytes
  | _, 0 => some []
  | a, n + 1 =>
    match m (a % addressSpace) with
    | none => none
    | some b => (loadBytes m (a + 1) n).map (b :: ·)

/-- The bytes from address `a` on, up to and with the first one that `stop` accepts. -/
def scanBytes (m : Memory) (stop : UInt8 → Bool) : ℕ → ℕ → Option Bytes
  | _, 0 => none
  | a, fuel + 1 =>
    match m (a % addressSpace) with
    | none => none
    | some b => if stop b then some [b] else (scanBytes m stop (a + 1) fuel).map (b :: ·)

theorem loadBytes_mono {m m' : Memory} (h : m.Extends m') {a n : ℕ} {bs : Bytes}
    (hbs : loadBytes m a n = some bs) : loadBytes m' a n = some bs := by
  induction n generalizing a bs with
  | zero => exact hbs
  | succ n ih =>
    rw [loadBytes] at hbs ⊢
    cases hb : m (a % addressSpace) with
    | none => simp [hb] at hbs
    | some b =>
      simp only [hb, Option.map_eq_some_iff] at hbs
      obtain ⟨rest, hrest, rfl⟩ := hbs
      simp only [h _ _ hb, ih hrest, Option.map_some]

theorem length_loadBytes {m : Memory} {a n : ℕ} {bs : Bytes} (h : loadBytes m a n = some bs) :
    bs.length = n := by
  induction n generalizing a bs with
  | zero => rw [← Option.some.inj h, List.length_nil]
  | succ n ih =>
    rw [loadBytes] at h
    split at h
    · exact absurd h (by simp)
    · obtain ⟨rest, hrest, rfl⟩ := Option.map_eq_some_iff.mp h
      rw [List.length_cons, ih hrest]

theorem scanBytes_mono {m m' : Memory} (h : m.Extends m') {stop : UInt8 → Bool} {a fuel : ℕ}
    {bs : Bytes} (hbs : scanBytes m stop a fuel = some bs) :
    scanBytes m' stop a fuel = some bs := by
  induction fuel generalizing a bs with
  | zero => exact absurd hbs (by simp [scanBytes])
  | succ fuel ih =>
    rw [scanBytes] at hbs ⊢
    cases hb : m (a % addressSpace) with
    | none => simp [hb] at hbs
    | some b =>
      simp only [hb] at hbs
      simp only [h _ _ hb]
      by_cases hstop : stop b = true
      · rw [if_pos hstop] at hbs ⊢
        exact hbs
      · rw [if_neg hstop, Option.map_eq_some_iff] at hbs
        obtain ⟨rest, hrest, rfl⟩ := hbs
        rw [if_neg hstop, ih hrest, Option.map_some]

/-- The first byte of what stands at an address. -/
theorem Memory.HoldsAt.head {m : Memory} {a : ℕ} {b : UInt8} {bs : Bytes}
    (h : m.HoldsAt a (b :: bs)) : m (a % addressSpace) = some b := by
  have hlt := h.inside
  rw [Nat.mod_eq_of_lt (by omega)]
  exact h.bytes 0 (by simp)

theorem Memory.HoldsAt.tail {m : Memory} {a : ℕ} {b : UInt8} {bs : Bytes}
    (h : m.HoldsAt a (b :: bs)) : m.HoldsAt (a + 1) bs := by
  have hsplit : m.HoldsAt a ([b] ++ bs) := h
  exact hsplit.right

theorem loadBytes_of_holdsAt {m : Memory} {a : ℕ} {bs : Bytes} (h : m.HoldsAt a bs) :
    loadBytes m a bs.length = some bs := by
  induction bs generalizing a with
  | nil => rfl
  | cons b bs ih =>
    simp only [List.length_cons, loadBytes, h.head, ih h.tail, Option.map_some]

/-- The last byte is the only one that `stop` accepts. -/
inductive EndsWith (stop : UInt8 → Bool) : Bytes → Prop
  | last {b : UInt8} (h : stop b = true) : EndsWith stop [b]
  | cons {b : UInt8} {bs : Bytes} (h : stop b = false) (hbs : EndsWith stop bs) :
      EndsWith stop (b :: bs)

theorem endsWith_ne_nil {stop : UInt8 → Bool} {bs : Bytes} (h : EndsWith stop bs) : bs ≠ [] := by
  rintro rfl
  cases h

theorem scanBytes_of_holdsAt {m : Memory} {stop : UInt8 → Bool} {bs : Bytes}
    (hbs : EndsWith stop bs) {a fuel : ℕ} (h : m.HoldsAt a bs) (hfuel : bs.length ≤ fuel) :
    scanBytes m stop a fuel = some bs := by
  induction hbs generalizing a fuel with
  | last hstop =>
    obtain ⟨fuel, rfl⟩ := Nat.exists_eq_add_of_le' (show 1 ≤ fuel from hfuel)
    simp only [scanBytes, h.head, hstop, if_true]
  | cons hstop _ ih =>
    rw [List.length_cons] at hfuel
    obtain ⟨fuel, rfl⟩ := Nat.exists_eq_add_of_le' (show 1 ≤ fuel by omega)
    simp only [scanBytes, h.head, hstop, Bool.false_eq_true, if_false,
      ih h.tail (show _ ≤ fuel by omega), Option.map_some]

theorem Memory.HoldsAt.mono {m m' : Memory} (hm : m.Extends m') {a : ℕ} {bs : Bytes}
    (h : m.HoldsAt a bs) : m'.HoldsAt a bs where
  inside := h.inside
  bytes i hi := by
    have hbyte := h.bytes i hi
    rw [List.getElem?_eq_getElem hi] at hbyte ⊢
    exact hm _ _ hbyte

/-- A byte of a buffer, and what stands behind it. -/
theorem Memory.HoldsAt.cons {m : Memory} {a : ℕ} {b : UInt8} {bs : Bytes} (hb : m a = some b)
    (h : m.HoldsAt (a + 1) bs) : m.HoldsAt a (b :: bs) where
  inside := by
    have hlt := h.inside
    rw [List.length_cons]
    omega
  bytes i hi := by
    cases i with
    | zero => exact hb
    | succ i =>
      have hbyte := h.bytes i (by rw [List.length_cons] at hi; omega)
      rwa [List.getElem?_cons_succ, show a + (i + 1) = a + 1 + i by omega]

theorem lt_of_ofBytes {data : Bytes} {a : ℕ} {b : UInt8}
    (h : Memory.ofBytes data a = some b) : a < data.length := by
  obtain ⟨hlt, -⟩ := List.getElem?_eq_some_iff.mp h
  exact hlt

/-- What is loaded from a buffer stands in it. -/
theorem holdsAt_of_loadBytes {data : Bytes} (hdata : data.length < addressSpace) {a n : ℕ}
    {bs : Bytes} (ha : a < addressSpace) (h : loadBytes (Memory.ofBytes data) a n = some bs) :
    (Memory.ofBytes data).HoldsAt a bs := by
  induction n generalizing a bs with
  | zero =>
    obtain rfl := Option.some.inj h
    exact ⟨by simpa using ha, fun i hi => absurd hi (Nat.not_lt_zero i)⟩
  | succ n ih =>
    rw [loadBytes, Nat.mod_eq_of_lt ha] at h
    cases hb : Memory.ofBytes data a with
    | none =>
      rw [hb] at h
      cases h
    | some b =>
      rw [hb] at h
      obtain ⟨rest, hrest, rfl⟩ := Option.map_eq_some_iff.mp h
      have hlt := lt_of_ofBytes hb
      exact Memory.HoldsAt.cons hb (ih (by omega) hrest)

/-- What is found in a buffer stands in it, and ends where the search does. -/
theorem holdsAt_of_scanBytes {data : Bytes} (hdata : data.length < addressSpace)
    {stop : UInt8 → Bool} {a fuel : ℕ} {bs : Bytes} (ha : a < addressSpace)
    (h : scanBytes (Memory.ofBytes data) stop a fuel = some bs) :
    (Memory.ofBytes data).HoldsAt a bs ∧ EndsWith stop bs := by
  induction fuel generalizing a bs with
  | zero => cases h
  | succ fuel ih =>
    rw [scanBytes, Nat.mod_eq_of_lt ha] at h
    cases hb : Memory.ofBytes data a with
    | none =>
      rw [hb] at h
      cases h
    | some b =>
      have hlt := lt_of_ofBytes hb
      simp only [hb] at h
      by_cases hstop : stop b = true
      · rw [if_pos hstop] at h
        obtain rfl := Option.some.inj h
        have hnil : (Memory.ofBytes data).HoldsAt (a + 1) [] :=
          ⟨by simpa using lt_of_le_of_lt hlt hdata, fun i hi => absurd hi (Nat.not_lt_zero i)⟩
        exact ⟨Memory.HoldsAt.cons hb hnil, EndsWith.last hstop⟩
      · rw [if_neg hstop] at h
        obtain ⟨rest, hrest, rfl⟩ := Option.map_eq_some_iff.mp h
        obtain ⟨hholds, hends⟩ := ih (by omega) hrest
        exact ⟨Memory.HoldsAt.cons hb hholds, EndsWith.cons (Bool.not_eq_true _ ▸ hstop) hends⟩

/-- A program that reads a memory. -/
structure MemReader (σ α : Type) where
  run : Memory → σ → Option (α × σ)
  mono : ∀ {m m' : Memory}, m.Extends m' → ∀ {s r}, run m s = some r → run m' s = some r

namespace MemReader

variable {σ α β : Type}

instance : Monad (MemReader σ) where
  pure a :=
    { run := fun _ s => some (a, s)
      mono := fun _ _ _ h => h }
  bind x f :=
    { run := fun m s => (x.run m s).bind fun r => (f r.1).run m r.2
      mono := by
        intro m m' hm s r h
        obtain ⟨r₁, h₁, h₂⟩ := Option.bind_eq_some_iff.mp h
        exact Option.bind_eq_some_iff.mpr ⟨r₁, x.mono hm h₁, (f r₁.1).mono hm h₂⟩ }

/-- The program's own state. -/
def get : MemReader σ σ where
  run _ s := some (s, s)
  mono _ _ _ h := h

def set (s : σ) : MemReader σ Unit where
  run _ _ := some ((), s)
  mono _ _ _ h := h

/-- The value of a step that may have none. -/
def ofOption (v : Option α) : MemReader σ α where
  run _ s := v.map (·, s)
  mono _ _ _ h := h

/-- The `n` bytes from address `a` on. -/
def load (a n : ℕ) : MemReader σ Bytes where
  run m s := (loadBytes m a n).map (·, s)
  mono := by
    intro m m' hm s r h
    obtain ⟨bs, hbs, rfl⟩ := Option.map_eq_some_iff.mp h
    exact Option.map_eq_some_iff.mpr ⟨bs, loadBytes_mono hm hbs, rfl⟩

/-- The bytes from address `a` on, up to and with the first one that `stop` accepts. -/
def scan (stop : UInt8 → Bool) (a : ℕ) : MemReader σ Bytes where
  run m s := (scanBytes m stop a addressSpace).map (·, s)
  mono := by
    intro m m' hm s r h
    obtain ⟨bs, hbs, rfl⟩ := Option.map_eq_some_iff.mp h
    exact Option.map_eq_some_iff.mpr ⟨bs, scanBytes_mono hm hbs, rfl⟩

/-- The program, with a note of the state that it leaves; the newest note is in front. -/
def noted {τ : Type} (note : σ → τ) (x : MemReader σ α) : MemReader (σ × List τ) α where
  run m s := (x.run m s.1).map fun r => (r.1, r.2, note r.2 :: s.2)
  mono := by
    intro m m' hm s r h
    obtain ⟨r₁, h₁, rfl⟩ := Option.map_eq_some_iff.mp h
    exact Option.map_eq_some_iff.mpr ⟨r₁, x.mono hm h₁, rfl⟩

/-- A loop of `n` rounds that keeps the result of each. -/
def times (body : MemReader σ α) : ℕ → MemReader σ (List α)
  | 0 => pure []
  | n + 1 => do
    let a ← body
    let rest ← times body n
    return a :: rest

/-- Whatever the program returns, on any memory, has the property. -/
def Returns (x : MemReader σ α) (P : α → Prop) : Prop :=
  ∀ m s v s', x.run m s = some (v, s') → P v

theorem returns_true (x : MemReader σ α) : x.Returns fun _ => True :=
  fun _ _ _ _ _ => trivial

theorem returns_pure {v : α} {P : α → Prop} (h : P v) : Returns (pure v : MemReader σ α) P := by
  intro m s v' s' hrun
  obtain ⟨rfl, -⟩ := Prod.mk.inj (Option.some.inj hrun)
  exact h

theorem Returns.bind {x : MemReader σ α} {P : α → Prop} {f : α → MemReader σ β} {Q : β → Prop}
    (h : x.Returns P) (hf : ∀ v, P v → (f v).Returns Q) : (x >>= f).Returns Q := by
  intro m s w s' hrun
  obtain ⟨⟨v, mid⟩, hx, hfv⟩ := Option.bind_eq_some_iff.mp hrun
  exact hf v (h m s v mid hx) m mid w s' hfv

/-- The value of a step that does not matter. -/
theorem Returns.skip {x : MemReader σ α} {f : α → MemReader σ β} {Q : β → Prop}
    (hf : ∀ v, (f v).Returns Q) : (x >>= f).Returns Q :=
  (returns_true x).bind fun v _ => hf v

theorem Returns.times {x : MemReader σ α} {P : α → Prop} (h : x.Returns P) (n : ℕ) :
    (times x n).Returns fun vs => ∀ v ∈ vs, P v := by
  induction n with
  | zero => exact returns_pure (by simp)
  | succ n ih =>
    refine h.bind fun v hv => ih.bind fun vs hvs => returns_pure ?_
    exact List.forall_mem_cons.mpr ⟨hv, hvs⟩

theorem returns_load (a n : ℕ) : Returns (load a n : MemReader σ Bytes) fun bs => bs.length = n := by
  intro m s bs s' h
  obtain ⟨bs', hbs, heq⟩ := Option.map_eq_some_iff.mp h
  obtain ⟨rfl, -⟩ := Prod.mk.inj heq
  exact length_loadBytes hbs

/-- **An outcome on a buffer alone is the outcome on every memory that holds the buffer.** -/
theorem run_of_holds (x : MemReader σ α) {bs : Bytes} {s : σ} {r : α × σ}
    (h : x.run (Memory.ofBytes bs) s = some r) {m : Memory} (hm : m.Holds bs) :
    x.run m s = some r :=
  x.mono (Memory.extends_of_holds hm) h

end MemReader

end StrikeMQ.Lib
