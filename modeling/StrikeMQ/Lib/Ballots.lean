import Mathlib.Algebra.Order.BigOperators.Group.List
import Mathlib.Data.List.Count
import Mathlib.Data.List.Perm.Basic

/-!
# Choosing by counting

Ballots are lists of candidates. A count over all ballots takes a candidate for one that is on
every ballot if it is listed as often as there are ballots; the choice is the first such
candidate that is met, or else the first one on the first ballot. `Telling` says of the ballots
that this is right in whatever order they are gone through, provided some candidate is on all of
them. Ballots without repetitions are telling.
-/

set_option autoImplicit false

namespace StrikeMQ.Lib.Ballots

variable {α : Type} [DecidableEq α]

def OnAll (bs : List (List α)) (x : α) : Prop :=
  ∀ b ∈ bs, x ∈ b

/-- The candidate is listed as often as there are ballots. -/
def Full (bs : List (List α)) (x : α) : Prop :=
  bs.flatten.count x = bs.length

instance (bs : List (List α)) (x : α) : Decidable (Full bs x) :=
  inferInstanceAs (Decidable (_ = _))

def choose (bs : List (List α)) (default : α) : α :=
  match bs.flatten.find? fun x => Full bs x with
  | some x => x
  | none => (bs.head?.bind List.head?).getD default

/-- The first full candidate of every ballot is on all ballots, and so is, if none is full, the
first candidate of every ballot. -/
structure Telling (bs : List (List α)) : Prop where
  winner : ∀ b ∈ bs, ∀ x, (b.find? fun y => Full bs y) = some x → OnAll bs x
  fallback : (∀ x ∈ bs.flatten, ¬ Full bs x) → ∀ b ∈ bs, ∀ x, b.head? = some x → OnAll bs x

variable {bs cs : List (List α)} {d : α}

theorem full_perm (h : cs.Perm bs) (x : α) : Full cs x ↔ Full bs x := by
  unfold Full
  rw [h.flatten.count_eq, h.length_eq]

theorem choose_of_perm (h : cs.Perm bs) :
    choose cs d = match cs.flatten.find? fun x => Full bs x with
      | some x => x
      | none => (cs.head?.bind List.head?).getD d := by
  simp only [choose, full_perm h]

omit [DecidableEq α] in
/-- A candidate on all ballots gives every ballot a first entry. -/
theorem exists_head (hcommon : ∃ x, OnAll bs x) {b : List α} (hb : b ∈ bs) :
    ∃ x, b.head? = some x := by
  obtain ⟨x, hx⟩ := hcommon
  obtain ⟨y, ys, rfl⟩ := List.exists_cons_of_ne_nil (List.ne_nil_of_mem (hx b hb))
  exact ⟨y, rfl⟩

/-- **Telling ballots**: the choice is right in every order. -/
theorem onAll_choose (h : Telling bs) (hperm : cs.Perm bs) (hne : bs ≠ [])
    (hcommon : ∃ x, OnAll bs x) : OnAll bs (choose cs d) := by
  rw [choose_of_perm hperm]
  cases hfind : cs.flatten.find? fun x => Full bs x with
  | some x =>
    rw [← List.flatMap_id, List.find?_flatMap] at hfind
    obtain ⟨b, hb, hx⟩ := List.exists_of_findSome?_eq_some hfind
    exact h.winner b (hperm.mem_iff.mp hb) x hx
  | none =>
    obtain ⟨b, rest, rfl⟩ := List.exists_cons_of_ne_nil
      (show cs ≠ [] from fun hnil => hne (List.Perm.eq_nil (hnil ▸ hperm.symm)))
    have hb : b ∈ bs := hperm.mem_iff.mp List.mem_cons_self
    obtain ⟨x, hx⟩ := exists_head hcommon hb
    have hnone : ∀ y ∈ bs.flatten, ¬ Full bs y := by
      intro y hy
      have hall := List.find?_eq_none.mp hfind y (hperm.flatten.mem_iff.mpr hy)
      simpa using hall
    simpa [hx] using h.fallback hnone b hb x hx

/-- **Ballots that are not telling**: the choice is wrong when the right ballot comes first. -/
theorem telling_of_heads
    (h : ∀ b ∈ bs, ∃ cs, cs.Perm bs ∧ cs.head? = some b ∧ OnAll bs (choose cs d)) :
    Telling bs := by
  constructor
  · intro b hb x hx
    obtain ⟨cs, hperm, hhead, hall⟩ := h b hb
    obtain ⟨rest, rfl⟩ := List.head?_eq_some_iff.mp hhead
    have hfind : ((b :: rest).flatten.find? fun y => Full bs y) = some x := by
      rw [List.flatten_cons, List.find?_append, hx, Option.some_or]
    rw [choose_of_perm hperm, hfind] at hall
    exact hall
  · intro hnone b hb x hx
    obtain ⟨cs, hperm, hhead, hall⟩ := h b hb
    have hfind : (cs.flatten.find? fun y => Full bs y) = none := by
      refine List.find?_eq_none.mpr fun y hy => ?_
      simpa using hnone y (hperm.flatten.mem_iff.mp hy)
    rw [choose_of_perm hperm, hfind] at hall
    simpa [hhead, hx] using hall

/-- The ballots that list a candidate, if none lists it twice. -/
theorem count_flatten_of_nodup (h : ∀ b ∈ bs, b.Nodup) (x : α) :
    bs.flatten.count x = bs.countP fun b => x ∈ b := by
  induction bs with
  | nil => rfl
  | cons b bs ih =>
    have hb : b.Nodup := h b List.mem_cons_self
    rw [List.flatten_cons, List.count_append, ih fun c hc => h c (List.mem_cons_of_mem _ hc),
      List.countP_cons, hb.count, Nat.add_comm]
    simp

theorem full_iff_of_nodup (h : ∀ b ∈ bs, b.Nodup) (x : α) : Full bs x ↔ OnAll bs x := by
  rw [Full, count_flatten_of_nodup h, List.countP_eq_length]
  simp [OnAll]

/-- **Ballots without repetitions are telling.** -/
theorem telling_of_nodup (h : ∀ b ∈ bs, b.Nodup) (hcommon : ∃ x, OnAll bs x) : Telling bs := by
  constructor
  · intro b _ x hx
    refine (full_iff_of_nodup h x).mp ?_
    simpa using List.find?_some hx
  · intro hnone b hb
    obtain ⟨y, hy⟩ := hcommon
    exact absurd ((full_iff_of_nodup h y).mpr hy)
      (hnone y (List.mem_flatten.mpr ⟨b, hb, hy b hb⟩))

end StrikeMQ.Lib.Ballots
