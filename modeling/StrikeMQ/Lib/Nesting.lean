import Mathlib.Tactic

/-!
# Nesting depth

Each element of a list changes a depth by its weight. A list leaves the depth open when it stays
above zero throughout; a list that does not has a first element that takes the depth to zero or
below, and only one.
-/

set_option autoImplicit false

namespace StrikeMQ.Lib

variable {α : Type} (w : α → ℤ)

/-- By how much a list changes the depth. -/
def net (xs : List α) : ℤ :=
  (xs.map w).sum

/-- The depth, which is `d` in front of the list, stays above zero. -/
def StaysOpen (d : ℤ) (xs : List α) : Prop :=
  ∀ p, p <+: xs → 0 < d + net w p

variable {w} {d : ℤ}

@[simp]
theorem net_nil : net w [] = 0 := rfl

@[simp]
theorem net_cons (x : α) (xs : List α) : net w (x :: xs) = w x + net w xs :=
  List.sum_cons

@[simp]
theorem net_append (xs ys : List α) : net w (xs ++ ys) = net w xs + net w ys := by
  simp [net]

theorem net_eq_zero {xs : List α} (h : ∀ x ∈ xs, w x = 0) : net w xs = 0 :=
  List.sum_eq_zero fun y hy => by
    obtain ⟨x, hx, rfl⟩ := List.mem_map.mp hy
    exact h x hx

theorem staysOpen_nil : StaysOpen w d [] ↔ 0 < d := by
  constructor
  · intro h
    simpa using h [] List.prefix_rfl
  · intro h p hp
    rw [List.prefix_nil.mp hp]
    simpa using h

theorem StaysOpen.pos {xs : List α} (h : StaysOpen w d xs) : 0 < d := by
  simpa using h [] List.nil_prefix

theorem StaysOpen.pos_add {xs : List α} (h : StaysOpen w d xs) : 0 < d + net w xs :=
  h xs List.prefix_rfl

theorem staysOpen_cons {x : α} {xs : List α} :
    StaysOpen w d (x :: xs) ↔ 0 < d ∧ StaysOpen w (d + w x) xs := by
  constructor
  · intro h
    refine ⟨h.pos, fun p hp => ?_⟩
    have hlonger := h (x :: p) (List.cons_prefix_cons.mpr ⟨rfl, hp⟩)
    rw [net_cons] at hlonger
    omega
  · rintro ⟨hpos, h⟩ p hp
    cases p with
    | nil => simpa using hpos
    | cons y p =>
      obtain ⟨rfl, hshort⟩ := List.cons_prefix_cons.mp hp
      have hrest := h p hshort
      rw [net_cons]
      omega

theorem staysOpen_append {xs ys : List α} :
    StaysOpen w d (xs ++ ys) ↔ StaysOpen w d xs ∧ StaysOpen w (d + net w xs) ys := by
  induction xs generalizing d with
  | nil =>
    rw [List.nil_append, net_nil, Int.add_zero, staysOpen_nil]
    exact ⟨fun h => ⟨h.pos, h⟩, fun h => h.2⟩
  | cons x xs ih =>
    rw [List.cons_append, staysOpen_cons, staysOpen_cons, ih, net_cons, Int.add_assoc, and_assoc]

theorem staysOpen_of_zero {xs : List α} (h : ∀ x ∈ xs, w x = 0) : StaysOpen w d xs ↔ 0 < d := by
  induction xs with
  | nil => exact staysOpen_nil
  | cons x xs ih =>
    rw [staysOpen_cons, h x List.mem_cons_self, Int.add_zero,
      ih fun y hy => h y (List.mem_cons_of_mem _ hy), and_self]

/-- A list that does not stay open has a first element that closes it. -/
theorem exists_first_close {xs : List α} (hpos : 0 < d) (h : ¬StaysOpen w d xs) :
    ∃ inner x rest, xs = inner ++ x :: rest ∧ StaysOpen w d inner ∧ d + net w inner + w x ≤ 0 := by
  induction xs generalizing d with
  | nil => exact absurd (staysOpen_nil.mpr hpos) h
  | cons x xs ih =>
    by_cases hx : 0 < d + w x
    · have hrest : ¬StaysOpen w (d + w x) xs := fun hopen => h (staysOpen_cons.mpr ⟨hpos, hopen⟩)
      obtain ⟨inner, y, rest, rfl, hinner, hclose⟩ := ih hx hrest
      refine ⟨x :: inner, y, rest, rfl, staysOpen_cons.mpr ⟨hpos, hinner⟩, ?_⟩
      rw [net_cons]
      omega
    · exact ⟨[], x, xs, rfl, staysOpen_nil.mpr hpos, by simpa using hx⟩

end StrikeMQ.Lib
