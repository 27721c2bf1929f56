import Mathlib.Data.List.Nodup
import Mathlib.Data.List.FinRange
import Mathlib.Logic.Function.Basic

/-!
# Things and their holders

Finitely many holders have each a list of things. Together they hold the concatenation of these
lists; if nothing occurs in it twice, then everything held has one holder. Giving one holder
another list changes the concatenation by what is new and what is gone.
-/

set_option autoImplicit false

namespace StrikeMQ.Lib

variable {α : Type} {n : ℕ}

/-- All that is held. -/
def allHeld (holds : Fin n → List α) : List α :=
  (List.finRange n).flatMap holds

variable {holds : Fin n → List α} {k : Fin n}

theorem mem_allHeld {a : α} : a ∈ allHeld holds ↔ ∃ k, a ∈ holds k := by
  simp [allHeld]

/-- What one holder has, and what the others have. -/
theorem allHeld_perm (holds : Fin n → List α) (k : Fin n) :
    (allHeld holds).Perm (holds k ++ ((List.finRange n).erase k).flatMap holds) :=
  (List.perm_cons_erase (List.mem_finRange k)).flatMap_right holds

/-- The others keep what they have. -/
theorem flatMap_update_erase (holds : Fin n → List α) (k : Fin n) (l : List α) :
    ((List.finRange n).erase k).flatMap (Function.update holds k l) =
      ((List.finRange n).erase k).flatMap holds := by
  refine List.flatMap_congr fun j hj => ?_
  have hne : j ≠ k := by
    rintro rfl
    exact (List.nodup_finRange n).not_mem_erase hj
  exact Function.update_of_ne hne l holds

/-- One holder gets `gained` and gives away `lost`. -/
theorem allHeld_update_perm {l gained lost : List α}
    (h : (lost ++ l).Perm (gained ++ holds k)) :
    (lost ++ allHeld (Function.update holds k l)).Perm (gained ++ allHeld holds) := by
  have hafter : (allHeld (Function.update holds k l)).Perm
      (l ++ ((List.finRange n).erase k).flatMap holds) := by
    have hperm := allHeld_perm (Function.update holds k l) k
    rwa [Function.update_self, flatMap_update_erase] at hperm
  have hmoved := h.append_right (((List.finRange n).erase k).flatMap holds)
  rw [List.append_assoc, List.append_assoc] at hmoved
  exact (hafter.append_left lost).trans
    (hmoved.trans ((allHeld_perm holds k).symm.append_left gained))

/-- Where nothing is held twice, a holder holds nothing twice. -/
theorem nodup_of_allHeld (h : (allHeld holds).Nodup) (k : Fin n) : (holds k).Nodup :=
  (List.nodup_append.mp ((allHeld_perm holds k).nodup_iff.mp h)).1

end StrikeMQ.Lib
