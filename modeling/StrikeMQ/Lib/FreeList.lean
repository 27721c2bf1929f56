import Mathlib.Tactic

/-!
# Free lists inside the blocks they list

Some blocks are free and the others are live. Each free block holds the name of the next one, the
last one holds `null`, and a head holds the name of the first. Taking the first free block and
giving a live one back keep the free and the live blocks a split of all blocks, as long as the link
of no free block is changed by anyone else; links of live blocks may change in any way.
-/

set_option autoImplicit false

namespace StrikeMQ.Lib

/-! ## Chains -/

section Chains

variable {α : Type} {null : α} {next next' : α → α} {p a : α} {l : List α}

/-- Following the links from `p` on one passes `l` and ends at `null`. -/
def Chain (null : α) (next : α → α) : α → List α → Prop
  | p, [] => p = null
  | p, a :: l => p = a ∧ a ≠ null ∧ Chain null next (next a) l

theorem Chain.eq_null_iff (h : Chain null next p l) : p = null ↔ l = [] := by
  cases l with
  | nil => exact iff_of_true h rfl
  | cons a l =>
    obtain ⟨rfl, hne, -⟩ := h
    exact iff_of_false hne (List.cons_ne_nil _ _)

theorem Chain.eq_null_or_mem (h : Chain null next p l) : p = null ∨ p ∈ l := by
  cases l with
  | nil => exact .inl h
  | cons a l => exact .inr (h.1 ▸ List.mem_cons_self)

theorem Chain.pop (h : Chain null next p l) (hp : p ≠ null) :
    ∃ rest, l = p :: rest ∧ Chain null next (next p) rest := by
  cases l with
  | nil => exact absurd h hp
  | cons a l =>
    obtain ⟨rfl, -, hrest⟩ := h
    exact ⟨l, rfl, hrest⟩

/-- A chain depends on no links but its own. -/
theorem Chain.congr (h : Chain null next p l) (hnext : ∀ b ∈ l, next' b = next b) :
    Chain null next' p l := by
  induction l generalizing p with
  | nil => exact h
  | cons a l ih =>
    obtain ⟨rfl, hne, hrest⟩ := h
    obtain ⟨hhead, htail⟩ := List.forall_mem_cons.mp hnext
    refine ⟨rfl, hne, ?_⟩
    rw [hhead]
    exact ih hrest htail

theorem Chain.push (h : Chain null next p l) (ha : a ≠ null) (hlink : next' a = p)
    (hnext : ∀ b ∈ l, next' b = next b) : Chain null next' a (a :: l) := by
  refine ⟨rfl, ha, ?_⟩
  rw [hlink]
  exact h.congr hnext

end Chains

/-! ## Free and live blocks -/

/-- The chain from `head` on passes the free blocks, and these and the live ones are all. -/
structure FreeList {α : Type} (null : α) (next : α → α) (head : α) (all free live : List α) :
    Prop where
  chain : Chain null next head free
  split : (free ++ live).Perm all

namespace FreeList

variable {α : Type} {null : α} {next next' : α → α} {head p : α} {all free live : List α}

theorem nodup (h : FreeList null next head all free live) (hall : all.Nodup) :
    (free ++ live).Nodup :=
  h.split.nodup_iff.mpr hall

theorem mem_free_iff (h : FreeList null next head all free live) (hall : all.Nodup) (b : α) :
    b ∈ free ↔ b ∈ all ∧ b ∉ live := by
  have hdisjoint := List.disjoint_of_nodup_append (h.nodup hall)
  rw [← h.split.mem_iff, List.mem_append]
  constructor
  · intro hb
    exact ⟨.inl hb, hdisjoint hb⟩
  · rintro ⟨hb | hb, hlive⟩
    · exact hb
    · exact absurd hb hlive

theorem mem_of_live (h : FreeList null next head all free live) (hp : p ∈ live) : p ∈ all :=
  h.split.mem_iff.mp (List.mem_append_right free hp)

theorem mem_of_free (h : FreeList null next head all free live) (hp : p ∈ free) : p ∈ all :=
  h.split.mem_iff.mp (List.mem_append_left live hp)

theorem length_add (h : FreeList null next head all free live) :
    free.length + live.length = all.length := by
  rw [← h.split.length_eq, List.length_append]

/-- There is no free block exactly if as many are live as there are. -/
theorem head_eq_null_iff (h : FreeList null next head all free live) :
    head = null ↔ live.length = all.length := by
  have hlen := h.length_add
  rw [h.chain.eq_null_iff, ← List.length_eq_zero_iff]
  omega

/-- What happens to live blocks does not matter. -/
theorem congr (h : FreeList null next head all free live) (hnext : ∀ b ∈ free, next' b = next b) :
    FreeList null next' head all free live where
  chain := h.chain.congr hnext
  split := h.split

/-- The first free block becomes live. -/
theorem take (h : FreeList null next head all free live) (hhead : head ≠ null) :
    ∃ rest, FreeList null next (next head) all rest (head :: live) := by
  obtain ⟨rest, rfl, hchain⟩ := h.chain.pop hhead
  exact ⟨rest, hchain, List.perm_middle.trans h.split⟩

/-- A live block becomes the first free one. -/
theorem give [DecidableEq α] (h : FreeList null next head all free live) (hp : p ∈ live)
    (hnull : p ≠ null) (hlink : next' p = head) (hnext : ∀ b ∈ free, next' b = next b) :
    FreeList null next' p all (p :: free) (live.erase p) where
  chain := h.chain.push hnull hlink hnext
  split := by
    have hmove : (p :: free ++ live.erase p).Perm (free ++ p :: live.erase p) :=
      List.perm_middle.symm
    exact (hmove.trans ((List.perm_cons_erase hp).symm.append_left free)).trans h.split

end FreeList

/-! ## Blocks of one size -/

section Blocks

variable {base size n p q : ℕ}

/-- The addresses of `n` blocks of `size` cells from `base` on. -/
def blocks (base size n : ℕ) : List ℕ :=
  (List.range n).map fun i => base + i * size

@[simp]
theorem length_blocks (base size n : ℕ) : (blocks base size n).length = n := by
  rw [blocks, List.length_map, List.length_range]

theorem mem_blocks : p ∈ blocks base size n ↔ ∃ i, i < n ∧ p = base + i * size := by
  simp only [blocks, List.mem_map, List.mem_range, eq_comm]

theorem blocks_succ (base size n : ℕ) :
    blocks base size (n + 1) = blocks base size n ++ [base + n * size] := by
  rw [blocks, List.range_succ, List.map_append]
  rfl

theorem base_le_of_mem_blocks (h : p ∈ blocks base size n) : base ≤ p := by
  obtain ⟨i, -, rfl⟩ := mem_blocks.mp h
  exact Nat.le_add_right base _

theorem end_le_of_mem_blocks (h : p ∈ blocks base size n) : p + size ≤ base + n * size := by
  obtain ⟨i, hi, rfl⟩ := mem_blocks.mp h
  have hrow : (i + 1) * size ≤ n * size := Nat.mul_le_mul_right size hi
  rw [Nat.add_mul, Nat.one_mul] at hrow
  omega

theorem disjoint_of_mem_blocks (hp : p ∈ blocks base size n) (hq : q ∈ blocks base size n)
    (hne : p ≠ q) : p + size ≤ q ∨ q + size ≤ p := by
  obtain ⟨i, -, rfl⟩ := mem_blocks.mp hp
  obtain ⟨j, -, rfl⟩ := mem_blocks.mp hq
  rcases Nat.lt_trichotomy i j with hlt | rfl | hlt
  · have hrow : (i + 1) * size ≤ j * size := Nat.mul_le_mul_right size hlt
    rw [Nat.add_mul, Nat.one_mul] at hrow
    omega
  · exact absurd rfl hne
  · have hrow : (j + 1) * size ≤ i * size := Nat.mul_le_mul_right size hlt
    rw [Nat.add_mul, Nat.one_mul] at hrow
    omega

theorem nodup_blocks (hsize : 0 < size) : (blocks base size n).Nodup := by
  refine List.Nodup.map (fun i j hij => ?_) List.nodup_range
  exact Nat.eq_of_mul_eq_mul_right hsize (Nat.add_left_cancel hij)

end Blocks

end StrikeMQ.Lib
