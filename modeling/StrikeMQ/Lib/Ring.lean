import Mathlib.Tactic

/-!
# Rings of cells

A store of cells, copies into and out of a range of it, and the ring made of its first `cap`
cells: counter `c` stands for cell `c % cap`. A copy that reaches the end of the ring goes on
at its start, so it is made of two copies of ranges. What matters of a ring is the list that
a window of counters holds; writing behind a window extends that list, as long as the window
does not get longer than the ring.
-/

set_option autoImplicit false

namespace StrikeMQ.Lib

variable {α : Type}

/-- The `n` cells from cell `p` on. -/
def copyOut (d : ℕ → α) (p n : ℕ) : List α :=
  (List.range n).map fun k => d (p + k)

/-- The store with `src` in the cells from `p` on. -/
def copyIn (d : ℕ → α) (p : ℕ) (src : List α) : ℕ → α :=
  fun i => if p ≤ i then (src[i - p]?).getD (d i) else d i

/-- The cells of the `n` counters from `c` on, in a ring of `cap` cells. -/
def ringOut (d : ℕ → α) (cap c n : ℕ) : List α :=
  (List.range n).map fun k => d ((c + k) % cap)

/-- The store with `src` in the cells of the counters from `c` on. -/
def ringIn (d : ℕ → α) (cap c : ℕ) (src : List α) : ℕ → α :=
  let first := min src.length (cap - c % cap)
  copyIn (copyIn d (c % cap) (src.take first)) 0 (src.drop first)

@[simp]
theorem length_copyOut (d : ℕ → α) (p n : ℕ) : (copyOut d p n).length = n := by
  rw [copyOut, List.length_map, List.length_range]

@[simp]
theorem length_ringOut (d : ℕ → α) (cap c n : ℕ) : (ringOut d cap c n).length = n := by
  rw [ringOut, List.length_map, List.length_range]

theorem copyIn_of_lt {d : ℕ → α} {p i : ℕ} {src : List α} (h : i < p) : copyIn d p src i = d i := by
  rw [copyIn, if_neg (by omega)]

theorem copyIn_of_ge {d : ℕ → α} {p i : ℕ} {src : List α} (h : p + src.length ≤ i) :
    copyIn d p src i = d i := by
  rw [copyIn, if_pos (by omega), List.getElem?_eq_none (by omega), Option.getD_none]

theorem copyIn_inside {d : ℕ → α} {p k : ℕ} {src : List α} (h : k < src.length) :
    some (copyIn d p src (p + k)) = src[k]? := by
  rw [copyIn, if_pos (by omega), Nat.add_sub_cancel_left, List.getElem?_eq_getElem h,
    Option.getD_some]

@[simp]
theorem copyIn_nil (d : ℕ → α) (p : ℕ) : copyIn d p [] = d := by
  funext i
  by_cases h : i < p
  · exact copyIn_of_lt h
  · exact copyIn_of_ge (by rw [List.length_nil]; omega)

/-- A range that was just written holds what was written. -/
theorem copyOut_copyIn_self (d : ℕ → α) (p : ℕ) (src : List α) :
    copyOut (copyIn d p src) p src.length = src := by
  apply List.ext_getElem?
  intro k
  by_cases hk : k < src.length
  · rw [copyOut, List.getElem?_map, List.getElem?_range hk, Option.map_some, copyIn_inside hk]
  · rw [List.getElem?_eq_none (by rw [length_copyOut]; omega), List.getElem?_eq_none (by omega)]

/-- A range is left alone by a write beside it. -/
theorem copyOut_copyIn_of_disjoint {d : ℕ → α} {p q n : ℕ} {src : List α}
    (h : q + n ≤ p ∨ p + src.length ≤ q) : copyOut (copyIn d p src) q n = copyOut d q n := by
  unfold copyOut
  apply List.map_congr_left
  intro k hk
  rw [List.mem_range] at hk
  rcases h with h | h
  · exact copyIn_of_lt (by omega)
  · exact copyIn_of_ge (by omega)

theorem ringOut_congr {d : ℕ → α} {cap c c' : ℕ} (h : c % cap = c' % cap) (n : ℕ) :
    ringOut d cap c n = ringOut d cap c' n := by
  unfold ringOut
  apply List.map_congr_left
  intro k _
  rw [Nat.add_mod, h, ← Nat.add_mod]

theorem ringOut_add (d : ℕ → α) (cap c m n : ℕ) :
    ringOut d cap c (m + n) = ringOut d cap c m ++ ringOut d cap (c + m) n := by
  unfold ringOut
  rw [List.range_add, List.map_append, List.map_map]
  congr 1
  apply List.map_congr_left
  intro k _
  rw [Function.comp_apply, Nat.add_assoc]

theorem take_ringOut (d : ℕ → α) (cap c m n : ℕ) :
    (ringOut d cap c n).take m = ringOut d cap c (min m n) := by
  rw [ringOut, ← List.map_take, List.take_range]
  rfl

theorem drop_ringOut (d : ℕ → α) (cap c : ℕ) {m n : ℕ} (h : m ≤ n) :
    (ringOut d cap c n).drop m = ringOut d cap (c + m) (n - m) := by
  obtain ⟨k, rfl⟩ := Nat.exists_eq_add_of_le h
  rw [ringOut_add, List.drop_left' (length_ringOut _ _ _ _), Nat.add_sub_cancel_left]

theorem drop_copyOut (d : ℕ → α) (p m n : ℕ) :
    (copyOut d p (m + n)).drop m = copyOut d (p + m) n := by
  unfold copyOut
  rw [List.range_add, List.map_append, List.drop_left' (by simp), List.map_map]
  apply List.map_congr_left
  intro k _
  rw [Function.comp_apply, Nat.add_assoc]

theorem mod_add_of_fits {cap c k : ℕ} (h : c % cap + k < cap) : (c + k) % cap = c % cap + k := by
  rw [← Nat.mod_add_mod, Nat.mod_eq_of_lt h]

/-- Before the end of the ring, counters and cells run alike. -/
theorem copyOut_eq_ringOut (d : ℕ → α) {cap c n : ℕ} (h : c % cap + n ≤ cap) :
    copyOut d (c % cap) n = ringOut d cap c n := by
  unfold copyOut ringOut
  apply List.map_congr_left
  intro k hk
  rw [List.mem_range] at hk
  rw [mod_add_of_fits (by omega)]

/-- At the end of the ring the counters go on at its first cell. -/
theorem mod_add_of_wrap {cap c k : ℕ} (hlo : cap ≤ c % cap + k) (hhi : c % cap + k < 2 * cap) :
    (c + k) % cap = c % cap + k - cap := by
  have hdiv := Nat.div_add_mod c cap
  have hsplit : c + k = (c % cap + k - cap) + cap * (c / cap + 1) := by
    rw [Nat.mul_add, Nat.mul_one]
    omega
  rw [hsplit, Nat.add_mul_mod_self_left, Nat.mod_eq_of_lt (by omega)]

/-- A copy out of the ring is made of two copies of ranges. -/
theorem copyOut_append_copyOut (d : ℕ → α) {cap c n : ℕ} (hcap : 0 < cap) (hn : n ≤ cap) :
    copyOut d (c % cap) (min n (cap - c % cap)) ++ copyOut d 0 (n - min n (cap - c % cap)) =
      ringOut d cap c n := by
  have hc := Nat.mod_lt c hcap
  by_cases hfit : n ≤ cap - c % cap
  · rw [min_eq_left hfit, Nat.sub_self, copyOut_eq_ringOut d (by omega)]
    simp [copyOut]
  · -- the second range starts where the counters pass the end of the ring
    have hwrap : (c + (cap - c % cap)) % cap = 0 := by
      rw [mod_add_of_wrap (by omega) (by omega)]
      omega
    have hfirst : min n (cap - c % cap) = cap - c % cap := min_eq_right (by omega)
    obtain ⟨m, hm⟩ := Nat.exists_eq_add_of_le (show cap - c % cap ≤ n by omega)
    rw [hfirst, copyOut_eq_ringOut d (by omega), hm, Nat.add_sub_cancel_left, ringOut_add]
    congr 1
    have hzero : copyOut d ((c + (cap - c % cap)) % cap) m =
        ringOut d cap (c + (cap - c % cap)) m :=
      copyOut_eq_ringOut d (by rw [hwrap]; omega)
    rwa [hwrap] at hzero

/-- A copy into the ring that does not reach its end is one copy. -/
theorem ringIn_of_fits {d : ℕ → α} {cap c : ℕ} {src : List α} (h : src.length ≤ cap - c % cap) :
    ringIn d cap c src = copyIn d (c % cap) src := by
  simp only [ringIn, min_eq_left h, List.take_length, List.drop_length, copyIn_nil]

/-- A copy of one element into the ring is an assignment to its cell. -/
theorem ringIn_singleton (d : ℕ → α) {cap : ℕ} (hcap : 0 < cap) (c : ℕ) (x : α) :
    ringIn d cap c [x] = Function.update d (c % cap) x := by
  have hc := Nat.mod_lt c hcap
  rw [ringIn_of_fits (by rw [List.length_singleton]; omega)]
  funext i
  rcases Nat.lt_trichotomy i (c % cap) with hlt | heq | hgt
  · rw [copyIn_of_lt hlt, Function.update_of_ne (by omega)]
  · rw [heq, Function.update_self, copyIn, if_pos (le_refl _), Nat.sub_self]
    rfl
  · rw [copyIn_of_ge (by rw [List.length_singleton]; omega), Function.update_of_ne (by omega)]

/-- The cell of a written counter holds what was written there. -/
theorem ringIn_inside {d : ℕ → α} {cap c k : ℕ} {src : List α} (hcap : 0 < cap)
    (hsrc : src.length ≤ cap) (hk : k < src.length) :
    some (ringIn d cap c src ((c + k) % cap)) = src[k]? := by
  have hc := Nat.mod_lt c hcap
  by_cases hfit : src.length ≤ cap - c % cap
  · rw [ringIn_of_fits hfit, mod_add_of_fits (by omega), copyIn_inside hk]
  · have hfirst : min src.length (cap - c % cap) = cap - c % cap := min_eq_right (by omega)
    simp only [ringIn, hfirst]
    by_cases hlow : k < cap - c % cap
    · -- in the first range, which the second one does not reach
      rw [mod_add_of_fits (by omega), copyIn_of_ge (by rw [List.length_drop]; omega),
        copyIn_inside (by rw [List.length_take]; omega), List.getElem?_take_of_lt hlow]
    · have hcell : (c + k) % cap = 0 + (k - (cap - c % cap)) := by
        rw [mod_add_of_wrap (by omega) (by omega)]
        omega
      rw [hcell, copyIn_inside (by rw [List.length_drop]; omega), List.getElem?_drop]
      congr 1
      omega

/-- A cell of the ring that no written counter stands for is left alone. -/
theorem ringIn_outside {d : ℕ → α} {cap c i : ℕ} {src : List α} (hi : i < cap)
    (hsrc : src.length ≤ cap) (h : ∀ k, k < src.length → (c + k) % cap ≠ i) :
    ringIn d cap c src i = d i := by
  have hc := Nat.mod_lt c (show 0 < cap by omega)
  by_cases hfit : src.length ≤ cap - c % cap
  · rw [ringIn_of_fits hfit]
    by_cases hlow : i < c % cap
    · exact copyIn_of_lt hlow
    · apply copyIn_of_ge
      by_contra hin
      refine h (i - c % cap) (by omega) ?_
      rw [mod_add_of_fits (by omega)]
      omega
  · have hfirst : min src.length (cap - c % cap) = cap - c % cap := min_eq_right (by omega)
    simp only [ringIn, hfirst]
    rw [copyIn_of_ge, copyIn_of_lt]
    · -- from the starting cell on, the first range covers everything
      by_contra hge
      refine h (i - c % cap) (by omega) ?_
      rw [mod_add_of_fits (by omega)]
      omega
    · rw [Nat.zero_add, List.length_drop]
      by_contra hlt
      refine h (i + (cap - c % cap)) (by omega) ?_
      rw [mod_add_of_wrap (by omega) (by omega)]
      omega

theorem ringOut_ringIn_self {d : ℕ → α} {cap c : ℕ} {src : List α} (hcap : 0 < cap)
    (hsrc : src.length ≤ cap) : ringOut (ringIn d cap c src) cap c src.length = src := by
  apply List.ext_getElem?
  intro k
  by_cases hk : k < src.length
  · rw [← ringIn_inside hcap hsrc hk, ringOut, List.getElem?_map, List.getElem?_range hk,
      Option.map_some]
  · rw [List.getElem?_eq_none (by rw [length_ringOut]; omega), List.getElem?_eq_none (by omega)]

/-- Counters less than a round apart stand for different cells. -/
theorem mod_ne_of_lt {cap a b : ℕ} (hab : a < b) (h : b < a + cap) : a % cap ≠ b % cap := by
  intro heq
  have hdvd : cap ∣ b - a := (Nat.modEq_iff_dvd' (by omega)).mp heq
  have hle := Nat.le_of_dvd (by omega) hdvd
  omega

/-- Counters of one round stand for the same cell only if they are the same. -/
theorem eq_of_mod_eq {cap lo a b : ℕ} (ha : lo ≤ a) (ha' : a < lo + cap) (hb : lo ≤ b)
    (hb' : b < lo + cap) (h : a % cap = b % cap) : a = b := by
  rcases Nat.lt_trichotomy a b with hlt | heq | hgt
  · exact absurd h (mod_ne_of_lt hlt (by omega))
  · exact heq
  · exact absurd h.symm (mod_ne_of_lt hgt (by omega))

/-- **Writing behind a window extends what the window holds.** -/
theorem ringOut_ringIn {d : ℕ → α} {cap c n : ℕ} {src : List α} (hcap : 0 < cap)
    (h : n + src.length ≤ cap) :
    ringOut (ringIn d cap (c + n) src) cap c (n + src.length) = ringOut d cap c n ++ src := by
  rw [ringOut_add, ringOut_ringIn_self hcap (by omega)]
  congr 1
  unfold ringOut
  apply List.map_congr_left
  intro k hk
  rw [List.mem_range] at hk
  apply ringIn_outside (Nat.mod_lt _ hcap) (by omega)
  intro j hj
  exact (mod_ne_of_lt (by omega) (by omega)).symm

theorem concat_prefix_of_getElem? {xs ys : List α} {x : α} (h : xs <+: ys)
    (hx : ys[xs.length]? = some x) : xs ++ [x] <+: ys := by
  obtain ⟨rest, rfl⟩ := h
  rw [List.getElem?_append_right (Nat.le_refl _), Nat.sub_self] at hx
  cases rest with
  | nil => cases hx
  | cons y rest =>
    obtain rfl : y = x := Option.some.inj hx
    exact ⟨rest, List.append_assoc xs [y] rest⟩

/-! ## Marked cells

A ring whose cells are marked while they hold something that nobody has read: a write marks its
cell, a read takes the mark away. -/

/-- The cells of the counters from `lo` up to the number of `items` hold these items, and they
are the marked ones. -/
structure Window (d : ℕ → α) (marked : Finset ℕ) (cap lo : ℕ) (items : List α) : Prop where
  lo_le : lo ≤ items.length
  length_le : items.length ≤ lo + cap
  cell : ∀ i, lo ≤ i → i < items.length → items[i]? = some (d (i % cap))
  mem_marked : ∀ c, c ∈ marked ↔ ∃ i, lo ≤ i ∧ i < items.length ∧ i % cap = c

theorem window_nil (d : ℕ → α) (cap : ℕ) : Window d ∅ cap 0 [] where
  lo_le := Nat.le_refl 0
  length_le := Nat.zero_le _
  cell i _ hi := absurd hi (Nat.not_lt_zero i)
  mem_marked c := by simp

namespace Window

variable {d : ℕ → α} {marked : Finset ℕ} {cap lo : ℕ} {items : List α}

/-- The cell behind a window that leaves room is not in it. -/
theorem next_notMem (h : Window d marked cap lo items) (hroom : items.length < lo + cap) :
    items.length % cap ∉ marked := by
  intro hmem
  obtain ⟨i, hlo, hi, heq⟩ := (h.mem_marked _).mp hmem
  exact mod_ne_of_lt hi (by omega) heq

theorem first_mem (h : Window d marked cap lo items) (hlt : lo < items.length) :
    lo % cap ∈ marked :=
  (h.mem_marked _).mpr ⟨lo, Nat.le_refl lo, hlt, rfl⟩

theorem write (h : Window d marked cap lo items) (hroom : items.length < lo + cap) (x : α) :
    Window (Function.update d (items.length % cap) x) (insert (items.length % cap) marked) cap lo
      (items ++ [x]) where
  lo_le := by
    have hle := h.lo_le
    rw [List.length_append, List.length_singleton]
    omega
  length_le := by
    rw [List.length_append, List.length_singleton]
    omega
  cell i hlo hi := by
    rw [List.length_append, List.length_singleton] at hi
    by_cases hlast : i = items.length
    · subst hlast
      rw [List.getElem?_concat_length, Function.update_self]
    · have hlt : i < items.length := by omega
      rw [List.getElem?_append_left hlt, h.cell i hlo hlt,
        Function.update_of_ne (mod_ne_of_lt hlt (by omega))]
  mem_marked c := by
    rw [Finset.mem_insert, h.mem_marked, List.length_append, List.length_singleton]
    constructor
    · rintro (rfl | ⟨i, hlo, hi, rfl⟩)
      · exact ⟨items.length, h.lo_le, by omega, rfl⟩
      · exact ⟨i, hlo, by omega, rfl⟩
    · rintro ⟨i, hlo, hi, rfl⟩
      by_cases hlast : i = items.length
      · exact Or.inl (by rw [hlast])
      · exact Or.inr ⟨i, hlo, by omega, rfl⟩

/-- Reading the first cell, whatever is left in it. -/
theorem read (h : Window d marked cap lo items) (hlt : lo < items.length) (y : α) :
    Window (Function.update d (lo % cap) y) (marked.erase (lo % cap)) cap (lo + 1) items where
  lo_le := hlt
  length_le := by
    have hle := h.length_le
    omega
  cell i hlo hi := by
    have hle := h.length_le
    rw [h.cell i (by omega) hi,
      Function.update_of_ne (mod_ne_of_lt (show lo < i by omega) (by omega)).symm]
  mem_marked c := by
    have hle := h.length_le
    rw [Finset.mem_erase, h.mem_marked]
    constructor
    · rintro ⟨hne, i, hlo, hi, rfl⟩
      have hstart : i ≠ lo := fun heq => hne (by rw [heq])
      exact ⟨i, by omega, hi, rfl⟩
    · rintro ⟨i, hlo, hi, rfl⟩
      exact ⟨(mod_ne_of_lt (show lo < i by omega) (by omega)).symm, i, by omega, hi, rfl⟩

end Window

/-! ## Cells that are filled out of order

The counters of a window that satisfy `S` have their cells filled, the others do not yet. -/

/-- The cells are those of the counters from `lo` up to `hi` that satisfy `S`. -/
def Marks (cap lo hi : ℕ) (S cell : ℕ → Prop) : Prop :=
  ∀ c, cell c ↔ ∃ i, lo ≤ i ∧ i < hi ∧ S i ∧ i % cap = c

namespace Marks

variable {cap lo hi i : ℕ} {S S' cell cell' : ℕ → Prop}

theorem cell_iff (h : Marks cap lo hi S cell) (hsize : hi ≤ lo + cap) (hlo : lo ≤ i)
    (hhi : i < hi) : cell (i % cap) ↔ S i := by
  rw [h]
  constructor
  · rintro ⟨j, hj, hj', hS, heq⟩
    obtain rfl : j = i := eq_of_mod_eq hj (by omega) hlo (by omega) heq
    exact hS
  · intro hS
    exact ⟨i, hlo, hhi, hS, rfl⟩

theorem congr (h : Marks cap lo hi S cell) (hS : ∀ j, S' j ↔ S j) : Marks cap lo hi S' cell := by
  intro c
  simp only [h c, hS]

/-- One more counter satisfies `S`, and its cell is marked. -/
theorem mark (h : Marks cap lo hi S cell) (hlo : lo ≤ i) (hhi : i < hi)
    (hS : ∀ j, S' j ↔ j = i ∨ S j) (hcell : ∀ c, cell' c ↔ c = i % cap ∨ cell c) :
    Marks cap lo hi S' cell' := by
  intro c
  rw [hcell, h]
  constructor
  · rintro (rfl | ⟨j, hj, hj', hSj, rfl⟩)
    · exact ⟨i, hlo, hhi, (hS i).mpr (Or.inl rfl), rfl⟩
    · exact ⟨j, hj, hj', (hS j).mpr (Or.inr hSj), rfl⟩
  · rintro ⟨j, hj, hj', hSj, rfl⟩
    rcases (hS j).mp hSj with rfl | hSj
    · exact Or.inl rfl
    · exact Or.inr ⟨j, hj, hj', hSj, rfl⟩

/-- The first counter leaves the window, and its cell is cleared. -/
theorem clearFirst (h : Marks cap lo hi S cell) (hsize : hi ≤ lo + cap)
    (hcell : ∀ c, cell' c ↔ c ≠ lo % cap ∧ cell c) : Marks cap (lo + 1) hi S cell' := by
  intro c
  rw [hcell, h]
  constructor
  · rintro ⟨hne, j, hj, hj', hS, rfl⟩
    have hstart : j ≠ lo := fun heq => hne (by rw [heq])
    exact ⟨j, by omega, hj', hS, rfl⟩
  · rintro ⟨j, hj, hj', hS, rfl⟩
    exact ⟨(mod_ne_of_lt (show lo < j by omega) (by omega)).symm, j, by omega, hj', hS, rfl⟩

/-- A counter that does not satisfy `S` yet enters the window. -/
theorem enter (h : Marks cap lo hi S cell) (hS : ∀ j, S' j ↔ j ≠ hi ∧ S j) :
    Marks cap lo (hi + 1) S' cell := by
  intro c
  rw [h]
  constructor
  · rintro ⟨j, hj, hj', hSj, rfl⟩
    exact ⟨j, hj, by omega, (hS j).mpr ⟨by omega, hSj⟩, rfl⟩
  · rintro ⟨j, hj, hj', hSj, rfl⟩
    obtain ⟨hne, hSj⟩ := (hS j).mp hSj
    exact ⟨j, hj, by omega, hSj, rfl⟩

end Marks

/-- The cells of the counters from `lo` on that satisfy `S` hold the items of these places. -/
def Filled (d : ℕ → α) (cap lo : ℕ) (S : ℕ → Prop) (items : List α) : Prop :=
  ∀ i, lo ≤ i → i < items.length → S i → items[i]? = some (d (i % cap))

namespace Filled

variable {d : ℕ → α} {cap lo i : ℕ} {S S' : ℕ → Prop} {items : List α}

theorem congr (h : Filled d cap lo S items) (hS : ∀ j, S' j ↔ S j) : Filled d cap lo S' items :=
  fun j hj hj' hSj => h j hj hj' ((hS j).mp hSj)

theorem fill (h : Filled d cap lo S items) (hsize : items.length ≤ lo + cap) (hlo : lo ≤ i)
    {x : α} (hx : items[i]? = some x) (hS : ∀ j, S' j ↔ j = i ∨ S j) :
    Filled (Function.update d (i % cap) x) cap lo S' items := by
  have hi : i < items.length := (List.getElem?_eq_some_iff.mp hx).1
  intro j hj hj' hSj
  by_cases hji : j = i
  · subst hji
    rw [hx, Function.update_self]
  · have hne : j % cap ≠ i % cap := fun heq =>
      hji (eq_of_mod_eq hj (by omega) hlo (by omega) heq)
    rw [Function.update_of_ne hne]
    exact h j hj hj' (((hS j).mp hSj).resolve_left hji)

/-- Taking out the first item, whatever is left in its cell. -/
theorem takeFirst (h : Filled d cap lo S items) (hsize : items.length ≤ lo + cap) (y : α) :
    Filled (Function.update d (lo % cap) y) cap (lo + 1) S items := by
  intro j hj hj' hSj
  have hne : j % cap ≠ lo % cap := (mod_ne_of_lt (show lo < j by omega) (by omega)).symm
  rw [Function.update_of_ne hne]
  exact h j (by omega) hj' hSj

theorem enter (h : Filled d cap lo S items) (x : α) (hS : ∀ j, S' j ↔ j ≠ items.length ∧ S j) :
    Filled d cap lo S' (items ++ [x]) := by
  intro j hj hj' hSj
  rw [List.length_append, List.length_singleton] at hj'
  obtain ⟨hne, hSj⟩ := (hS j).mp hSj
  have hlt : j < items.length := by omega
  rw [List.getElem?_append_left hlt]
  exact h j hj hlt hSj

end Filled

/-! ## Claims of several threads -/

section Claims

variable {ι κ : Type} [DecidableEq ι] {f : ι → Option κ} {p : ι} {x y : κ}

/-- Some thread has claimed `x`. -/
def Taken (f : ι → Option κ) (x : κ) : Prop :=
  ∃ p, f p = some x

/-- No two threads have claimed the same. -/
def Exclusive (f : ι → Option κ) : Prop :=
  ∀ p q x, f p = some x → f q = some x → p = q

theorem Exclusive.update (h : Exclusive f) {o : Option κ}
    (hnew : ∀ y q, o = some y → q ≠ p → f q ≠ some y) : Exclusive (Function.update f p o) := by
  intro q r x hq hr
  by_cases hqp : q = p
  · by_cases hrp : r = p
    · rw [hqp, hrp]
    · rw [hqp, Function.update_self] at hq
      rw [Function.update_of_ne hrp] at hr
      exact absurd hr (hnew x r hq hrp)
  · rw [Function.update_of_ne hqp] at hq
    by_cases hrp : r = p
    · rw [hrp, Function.update_self] at hr
      exact absurd hq (hnew x q hr hqp)
    · rw [Function.update_of_ne hrp] at hr
      exact h q r x hq hr

theorem taken_update_some (h : f p = none) :
    Taken (Function.update f p (some y)) x ↔ x = y ∨ Taken f x := by
  constructor
  · rintro ⟨q, hq⟩
    by_cases hqp : q = p
    · subst hqp
      rw [Function.update_self] at hq
      exact Or.inl (Option.some.inj hq).symm
    · rw [Function.update_of_ne hqp] at hq
      exact Or.inr ⟨q, hq⟩
  · rintro (rfl | ⟨q, hq⟩)
    · exact ⟨p, Function.update_self ..⟩
    · have hqp : q ≠ p := by
        rintro rfl
        rw [h] at hq
        cases hq
      exact ⟨q, by rw [Function.update_of_ne hqp, hq]⟩

theorem taken_update_none (h : f p = some y) (hunique : ∀ q, f q = some y → q = p) :
    Taken (Function.update f p none) x ↔ x ≠ y ∧ Taken f x := by
  constructor
  · rintro ⟨q, hq⟩
    by_cases hqp : q = p
    · subst hqp
      rw [Function.update_self] at hq
      cases hq
    · rw [Function.update_of_ne hqp] at hq
      refine ⟨?_, q, hq⟩
      rintro rfl
      exact hqp (hunique q hq)
  · rintro ⟨hne, q, hq⟩
    have hqp : q ≠ p := by
      rintro rfl
      exact hne (Option.some.inj (hq.symm.trans h))
    exact ⟨q, by rw [Function.update_of_ne hqp, hq]⟩

end Claims

end StrikeMQ.Lib
