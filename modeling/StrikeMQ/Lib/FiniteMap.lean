import Mathlib.Data.List.AList
import Mathlib.Data.List.Induction

/-!
# Finite maps kept in shards

Storing and erasing many keys of a finite map, and a family of finite maps of which each key
uses one. While every key is placed in its own shard, walking the shards meets each stored key
once.
-/

set_option autoImplicit false

namespace StrikeMQ.Lib

variable {κ : Type} {β : κ → Type}

theorem filter_always {α : Type} (o : Option α) : (o.filter fun _ => true) = o := by
  cases o <;> rfl

section Updates

variable [DecidableEq κ]

/-- The last entry stored under a key is the one found there. -/
theorem lookup_foldl_insert {α γ : Type} (key : α → κ) (val : α → γ) (xs : List α)
    (m : AList fun _ : κ => γ) (k : κ) :
    (xs.foldl (fun m x => m.insert (key x) (val x)) m).lookup k =
      ((xs.filter fun x => key x = k).getLast?.map val).or (m.lookup k) := by
  induction xs using List.reverseRecOn with
  | nil => rfl
  | append_singleton xs x ih =>
    rw [List.foldl_append, List.foldl_cons, List.foldl_nil, List.filter_append]
    by_cases hk : key x = k
    · rw [← hk, AList.lookup_insert, List.filter_cons_of_pos (by simp), List.filter_nil,
        List.getLast?_concat]
      rfl
    · rw [AList.lookup_insert_ne (Ne.symm hk), ih, List.filter_cons_of_neg (by simpa using hk),
        List.filter_nil, List.append_nil]

theorem mem_foldl_erase {ks : List κ} {m : AList β} {k : κ} :
    k ∈ ks.foldl (fun m k => m.erase k) m ↔ k ∈ m ∧ k ∉ ks := by
  induction ks generalizing m with
  | nil => simp
  | cons k' ks ih =>
    rw [List.foldl_cons, ih, AList.mem_erase, List.mem_cons, not_or]
    tauto

theorem lookup_foldl_erase_eq (ks : List κ) (m : AList β) (k : κ) :
    (ks.foldl (fun m k => m.erase k) m).lookup k = if k ∈ ks then none else m.lookup k := by
  induction ks generalizing m with
  | nil => rw [List.foldl_nil, if_neg List.not_mem_nil]
  | cons k' ks ih =>
    rw [List.foldl_cons, ih]
    by_cases hk : k = k'
    · subst hk
      rw [AList.lookup_erase, if_pos List.mem_cons_self, ite_self]
    · simp only [AList.lookup_erase_ne hk, List.mem_cons, hk, false_or]

/-- Erasing keys keeps the entries of the others. -/
theorem lookup_foldl_erase {ks : List κ} {m : AList β} {k : κ} {v : β k}
    (h : (ks.foldl (fun m k => m.erase k) m).lookup k = some v) : m.lookup k = some v := by
  induction ks generalizing m with
  | nil => exact h
  | cons k' ks ih =>
    have hrest := ih h
    by_cases hk : k = k'
    · subst hk
      rw [AList.lookup_erase] at hrest
      cases hrest
    · rwa [AList.lookup_erase_ne hk] at hrest

end Updates

/-! ## Shards -/

/-- Every key is stored nowhere but in the shard that `shard` selects for it. -/
def Placed (shard : κ → ℕ) (shards : ℕ → AList β) : Prop :=
  ∀ i k, k ∈ shards i → shard k = i

section Shards

variable {shard : κ → ℕ} {shards : ℕ → AList β}

theorem placed_empty (shard : κ → ℕ) : Placed shard fun _ => (∅ : AList β) :=
  fun _ k hk => absurd hk (AList.notMem_empty k)

theorem Placed.update (h : Placed shard shards) {i : ℕ} {m : AList β}
    (hm : ∀ k ∈ m, shard k = i) : Placed shard (Function.update shards i m) := by
  intro j k hk
  by_cases hji : j = i
  · subst hji
    rw [Function.update_self] at hk
    exact hm k hk
  · rw [Function.update_of_ne hji] at hk
    exact h j k hk

/-- What a walk over the first `n` shards meets. -/
def walk (shards : ℕ → AList β) (n : ℕ) : List (Sigma β) :=
  (List.range n).flatMap fun i => (shards i).entries

theorem Placed.mem_walk_iff [DecidableEq κ] (h : Placed shard shards) {n : ℕ} {e : Sigma β} :
    e ∈ walk shards n ↔ shard e.1 < n ∧ (shards (shard e.1)).lookup e.1 = some e.2 := by
  rw [walk, List.mem_flatMap]
  constructor
  · rintro ⟨i, hi, he⟩
    obtain rfl := h i e.1 (AList.mem_keys.mpr (List.mem_map_of_mem he))
    exact ⟨List.mem_range.mp hi, AList.mem_lookup_iff.mpr he⟩
  · rintro ⟨hlt, he⟩
    exact ⟨_, List.mem_range.mpr hlt, AList.mem_lookup_iff.mp he⟩

/-- Two shards have no key in common, and a shard has each of its keys once. -/
theorem Placed.nodup_keys_walk (h : Placed shard shards) (n : ℕ) :
    ((walk shards n).map Sigma.fst).Nodup := by
  rw [walk, List.map_flatMap, List.nodup_flatMap]
  refine ⟨fun i _ => (shards i).nodupKeys, ?_⟩
  refine List.nodup_range.imp fun {i j} hne => ?_
  show List.Disjoint _ _
  rw [List.disjoint_left]
  intro k hi hj
  exact hne ((h i k (AList.mem_keys.mpr hi)).symm.trans (h j k (AList.mem_keys.mpr hj)))

end Shards

end StrikeMQ.Lib
