import Mathlib.Tactic

/-!
# Searching a list for a pattern

`findSub` is the index at which a pattern first occurs. What it says about a list it also says
about every longer one, and before the whole occurrence has been seen it says nothing. The last
section is about splitting a list where a front part of one kind ends.
-/

set_option autoImplicit false

namespace StrikeMQ.Lib

variable {α : Type} [DecidableEq α]

/-- The index of the first occurrence of `pat`. -/
def findSub (pat : List α) : List α → Option ℕ
  | [] => if pat = [] then some 0 else none
  | x :: xs => if pat <+: x :: xs then some 0 else (findSub pat xs).map (· + 1)

theorem findSub_of_isPrefix {pat xs : List α} (h : pat <+: xs) : findSub pat xs = some 0 := by
  cases xs with
  | nil => rw [findSub, if_pos (List.prefix_nil.mp h)]
  | cons x xs => rw [findSub, if_pos h]

/-- An occurrence lies inside the list. -/
theorem isPrefix_drop_of_findSub {pat xs : List α} {i : ℕ} (h : findSub pat xs = some i) :
    pat <+: xs.drop i := by
  induction xs generalizing i with
  | nil =>
    rw [findSub] at h
    split at h
    · rename_i hpat
      rw [hpat]
      exact List.nil_prefix
    · exact absurd h (by simp)
  | cons x xs ih =>
    rw [findSub] at h
    split at h
    · rename_i hpre
      obtain rfl := Option.some.inj h
      exact hpre
    · obtain ⟨j, hj, rfl⟩ := Option.map_eq_some_iff.mp h
      exact ih hj

theorem add_length_le_of_findSub {pat xs : List α} {i : ℕ} (h : findSub pat xs = some i)
    (hpat : pat ≠ []) : i + pat.length ≤ xs.length := by
  have hle := (isPrefix_drop_of_findSub h).length_le
  have hpos := List.length_pos_iff.mpr hpat
  rw [List.length_drop] at hle
  omega

/-- The first occurrence comes no later than any other. -/
theorem exists_findSub_of_isPrefix_drop {pat xs : List α} {i : ℕ} (h : pat <+: xs.drop i)
    (hpat : pat ≠ []) : ∃ j ≤ i, findSub pat xs = some j := by
  induction xs generalizing i with
  | nil =>
    rw [List.drop_nil] at h
    exact absurd (List.prefix_nil.mp h) hpat
  | cons x xs ih =>
    by_cases hfront : pat <+: x :: xs
    · exact ⟨0, Nat.zero_le i, findSub_of_isPrefix hfront⟩
    · cases i with
      | zero => exact absurd h hfront
      | succ i =>
        obtain ⟨j, hle, hj⟩ := ih h
        refine ⟨j + 1, Nat.succ_le_succ hle, ?_⟩
        rw [findSub, if_neg hfront, hj, Option.map_some]

/-- More elements behind the list do not change where the pattern first occurs. -/
theorem findSub_append {pat xs : List α} {i : ℕ} (h : findSub pat xs = some i) (ys : List α) :
    findSub pat (xs ++ ys) = some i := by
  induction xs generalizing i with
  | nil =>
    rw [findSub] at h
    split at h
    · rename_i hpat
      rw [hpat, findSub_of_isPrefix List.nil_prefix]
      exact h
    · exact absurd h (by simp)
  | cons x xs ih =>
    rw [findSub] at h
    split at h
    · rename_i hpre
      rw [← h, findSub_of_isPrefix (hpre.trans (List.prefix_append _ _))]
    · rename_i hpre
      obtain ⟨j, hj, rfl⟩ := Option.map_eq_some_iff.mp h
      -- an occurrence at the front would lie inside the list, since a later one does
      have hnot : ¬ pat <+: x :: (xs ++ ys) := by
        intro hfront
        apply hpre
        have hle := (isPrefix_drop_of_findSub hj).length_le
        rw [List.length_drop] at hle
        exact List.prefix_of_prefix_length_le hfront (List.prefix_append _ _)
          (by rw [List.length_cons]; omega)
      rw [List.cons_append, findSub, if_neg hnot, ih hj, Option.map_some]

/-- Before the whole first occurrence is there, nothing is found. -/
theorem findSub_eq_none_of_isPrefix {pat xs zs : List α} {i : ℕ} (h : findSub pat xs = some i)
    (hpat : pat ≠ []) (hzs : zs <+: xs) (hlt : zs.length < i + pat.length) :
    findSub pat zs = none := by
  cases hfind : findSub pat zs with
  | none => rfl
  | some j =>
    obtain ⟨ys, rfl⟩ := hzs
    have hsame := findSub_append hfind ys
    rw [h] at hsame
    obtain rfl := Option.some.inj hsame
    have hle := add_length_le_of_findSub hfind hpat
    omega

/-- Nothing is found before the first element of the pattern. -/
theorem findSub_cons_of_ne {a x : α} (h : a ≠ x) (pat xs : List α) :
    findSub (a :: pat) (x :: xs) = (findSub (a :: pat) xs).map (· + 1) := by
  rw [findSub, if_neg fun hfront => h (List.cons_prefix_cons.mp hfront).1]

theorem findSub_append_of_not_mem {a : α} {xs : List α} (h : a ∉ xs) (pat ys : List α) :
    findSub (a :: pat) (xs ++ ys) = (findSub (a :: pat) ys).map (xs.length + ·) := by
  induction xs with
  | nil => simp
  | cons x xs ih =>
    rw [List.cons_append, findSub_cons_of_ne (List.ne_of_not_mem_cons h),
      ih (List.not_mem_of_not_mem_cons h), Option.map_map]
    congr 1
    funext i
    simp only [Function.comp_apply, List.length_cons]
    omega

theorem findSub_eq_none_of_not_mem {a : α} {xs : List α} (h : a ∉ xs) (pat : List α) :
    findSub (a :: pat) xs = none := by
  have hnone := findSub_append_of_not_mem h pat []
  rwa [List.append_nil, findSub, if_neg (List.cons_ne_nil a pat), Option.map_none] at hnone

/-- The first occurrence of a single element splits the list. -/
theorem findSub_singleton_iff {a : α} {xs : List α} {i : ℕ} :
    findSub [a] xs = some i ↔
      ∃ front back, xs = front ++ a :: back ∧ a ∉ front ∧ front.length = i := by
  constructor
  · intro h
    induction xs generalizing i with
    | nil => cases h
    | cons x xs ih =>
      by_cases hx : a = x
      · subst hx
        rw [findSub_of_isPrefix (show [a] <+: a :: xs from ⟨xs, rfl⟩)] at h
        exact ⟨[], xs, rfl, List.not_mem_nil, Option.some.inj h⟩
      · rw [findSub_cons_of_ne hx, Option.map_eq_some_iff] at h
        obtain ⟨j, hj, rfl⟩ := h
        obtain ⟨front, back, rfl, hnot, rfl⟩ := ih hj
        exact ⟨x :: front, back, rfl, fun hmem => (List.mem_cons.mp hmem).elim hx hnot, rfl⟩
  · rintro ⟨front, back, rfl, hnot, rfl⟩
    rw [findSub_append_of_not_mem hnot, findSub_of_isPrefix (show [a] <+: a :: back from ⟨back, rfl⟩)]
    rfl

/-! ## Scanning a front part -/

omit [DecidableEq α] in
theorem dropWhile_append_of_head {p : α → Bool} {xs ys : List α} (hxs : ∀ c ∈ xs, p c)
    (hys : ∀ c ∈ ys.head?, ¬p c) : (xs ++ ys).dropWhile p = ys := by
  rw [List.dropWhile_append_of_pos hxs]
  cases ys with
  | nil => rfl
  | cons c ys => exact List.dropWhile_cons_of_neg (hys c rfl)

omit [DecidableEq α] in
theorem takeWhile_append_of_head {p : α → Bool} {xs ys : List α} (hxs : ∀ c ∈ xs, p c)
    (hys : ∀ c ∈ ys.head?, ¬p c) : (xs ++ ys).takeWhile p = xs := by
  rw [List.takeWhile_append_of_pos hxs]
  cases ys with
  | nil => exact List.append_nil xs
  | cons c ys => rw [List.takeWhile_cons_of_neg (hys c rfl), List.append_nil]

omit [DecidableEq α] in
theorem head?_dropWhile_of_mem {p : α → Bool} {xs : List α} {c : α}
    (hc : c ∈ (xs.dropWhile p).head?) : ¬p c := by
  have hnot := List.head?_dropWhile_not p xs
  rw [Option.mem_def.mp hc] at hnot
  simpa using hnot

end StrikeMQ.Lib
