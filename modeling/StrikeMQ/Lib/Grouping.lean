import Mathlib.Tactic

/-!
# Grouping a list by a key

A list is grouped by writing the distinct keys of its elements in the order in which they
first occur, and with each key the elements that have it. Nothing is lost on the way: each
key occurs once, every element is with one key, and what is summed over the groups is summed
over the list.
-/

set_option autoImplicit false

namespace StrikeMQ.Lib

variable {α κ : Type} [DecidableEq κ]

/-- One round of `distinct`. -/
def addDistinct (seen : List κ) (k : κ) : List κ :=
  if k ∈ seen then seen else seen ++ [k]

/-- The elements of a list, each at its first occurrence. -/
def distinct (ks : List κ) : List κ :=
  ks.foldl addDistinct []

theorem mem_addDistinct {seen : List κ} {k x : κ} :
    x ∈ addDistinct seen k ↔ x ∈ seen ∨ x = k := by
  unfold addDistinct
  split
  · rename_i hk
    constructor
    · exact Or.inl
    · rintro (hx | rfl)
      · exact hx
      · exact hk
  · rw [List.mem_append, List.mem_singleton]

theorem nodup_addDistinct {seen : List κ} (h : seen.Nodup) (k : κ) :
    (addDistinct seen k).Nodup := by
  unfold addDistinct
  split
  · exact h
  · rename_i hk
    rw [List.nodup_append]
    refine ⟨h, List.nodup_singleton k, ?_⟩
    intro a ha b hb hab
    rw [List.mem_singleton] at hb
    exact hk (hb ▸ hab ▸ ha)

theorem mem_foldl_addDistinct {ks seen : List κ} {x : κ} :
    x ∈ ks.foldl addDistinct seen ↔ x ∈ seen ∨ x ∈ ks := by
  induction ks generalizing seen with
  | nil => simp
  | cons k ks ih => rw [List.foldl_cons, ih, mem_addDistinct, List.mem_cons, or_assoc]

theorem nodup_foldl_addDistinct {ks seen : List κ} (h : seen.Nodup) :
    (ks.foldl addDistinct seen).Nodup := by
  induction ks generalizing seen with
  | nil => exact h
  | cons k ks ih => exact ih (nodup_addDistinct h k)

theorem mem_distinct {ks : List κ} {x : κ} : x ∈ distinct ks ↔ x ∈ ks := by
  rw [distinct, mem_foldl_addDistinct]
  simp

theorem nodup_distinct (ks : List κ) : (distinct ks).Nodup :=
  nodup_foldl_addDistinct List.nodup_nil

theorem toFinset_distinct (ks : List κ) : (distinct ks).toFinset = ks.toFinset := by
  ext x
  rw [List.mem_toFinset, List.mem_toFinset, mem_distinct]

/-- One element counts in the group of its own key and in no other. -/
theorem sum_map_ite_eq {ks : List κ} (hks : ks.Nodup) {k : κ} (hk : k ∈ ks) (n : ℕ) :
    (ks.map fun k' => if k = k' then n else 0).sum = n := by
  rw [← List.sum_toFinset _ hks, Finset.sum_ite_eq, if_pos (List.mem_toFinset.mpr hk)]

/-- A sum over all the groups is the sum over the list. -/
theorem sum_groups (key : α → κ) (w : α → ℕ) {ks : List κ} (hks : ks.Nodup) {xs : List α}
    (hxs : ∀ x ∈ xs, key x ∈ ks) :
    (ks.map fun k => ((xs.filter fun x => key x = k).map w).sum).sum = (xs.map w).sum := by
  induction xs with
  | nil => simp
  | cons x xs ih =>
    have hrest := ih fun y hy => hxs y (List.mem_cons_of_mem x hy)
    have hhead := sum_map_ite_eq hks (hxs x List.mem_cons_self) (w x)
    have hsplit : ∀ k : κ, (((x :: xs).filter fun y => key y = k).map w).sum =
        (if key x = k then w x else 0) + ((xs.filter fun y => key y = k).map w).sum := by
      intro k
      by_cases hk : key x = k
      · rw [List.filter_cons_of_pos (by simpa using hk), if_pos hk, List.map_cons, List.sum_cons]
      · rw [List.filter_cons_of_neg (by simpa using hk), if_neg hk, Nat.zero_add]
    simp only [hsplit]
    rw [List.sum_map_add, hhead, hrest, List.map_cons, List.sum_cons]

/-- **Grouping permutes the list.** An element occurs in the groups as often as in the list. -/
theorem flatMap_groups_perm (key : α → κ) {ks : List κ} (hks : ks.Nodup) {xs : List α}
    (hxs : ∀ x ∈ xs, key x ∈ ks) :
    (ks.flatMap fun k => xs.filter fun x => key x = k).Perm xs := by
  classical
  have hcount : ∀ (a : α) (l : List α), l.count a = (l.map fun x => if x = a then 1 else 0).sum := by
    intro a l
    induction l with
    | nil => rfl
    | cons x l ih =>
      rw [List.count_cons, List.map_cons, List.sum_cons, ih, Nat.add_comm]
      simp only [beq_iff_eq]
  rw [List.perm_iff_count]
  intro a
  rw [List.count_flatMap, hcount a xs, ← sum_groups key _ hks hxs]
  congr 1
  apply List.map_congr_left
  intro k _
  exact hcount a _

/-- The distinct elements are listed in the order in which they first occur. -/
theorem pairwise_idxOf_distinct [BEq κ] [LawfulBEq κ] (ks : List κ) :
    (distinct ks).Pairwise fun a b => ks.idxOf a < ks.idxOf b := by
  induction ks using List.reverseRecOn with
  | nil => exact List.Pairwise.nil
  | append_singleton ks k ih =>
    have hfold : distinct (ks ++ [k]) = addDistinct (distinct ks) k := by
      rw [distinct, List.foldl_append]
      rfl
    have hold : ∀ a ∈ distinct ks, (ks ++ [k]).idxOf a = ks.idxOf a := fun a ha =>
      List.idxOf_append_of_mem (mem_distinct.mp ha)
    have hkept : (distinct ks).Pairwise fun a b => (ks ++ [k]).idxOf a < (ks ++ [k]).idxOf b := by
      refine ih.imp_of_mem fun {a b} ha hb hab => ?_
      rwa [hold a ha, hold b hb]
    rw [hfold, addDistinct]
    split
    · exact hkept
    · rename_i hk
      rw [List.pairwise_append]
      refine ⟨hkept, List.pairwise_singleton _ _, ?_⟩
      intro a ha b hb
      obtain rfl := List.mem_singleton.mp hb
      have hnew : (ks ++ [b]).idxOf b = ks.length := by
        rw [List.idxOf_append_of_notMem fun hb => hk (mem_distinct.mpr hb)]
        simp
      rw [hold a ha, hnew]
      exact List.idxOf_lt_length_of_mem (mem_distinct.mp ha)

end StrikeMQ.Lib
