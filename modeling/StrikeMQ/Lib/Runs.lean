import Mathlib.Tactic

/-!
# Runs that may fail

A run folds a step function over a list of events; a step may have no outcome, and then the
run has none. A run splits where its list of events does, and what every step keeps holds
after every run. If a step breaks a property exactly when some guard fails in the state in
which it is taken, then the property holds in every state of a run exactly when the guard is
met by every step of it.
-/

set_option autoImplicit false

namespace StrikeMQ.Lib

section Runs

variable {α β : Type} {f : β → α → Option β} {b b' : β}

theorem foldlM_cons_eq_some_iff {a : α} {l : List α} :
    (a :: l).foldlM f b = some b' ↔ ∃ c, f b a = some c ∧ l.foldlM f c = some b' := by
  rw [List.foldlM_cons, Option.bind_eq_bind, Option.bind_eq_some_iff]

theorem foldlM_concat_eq_some_iff {l : List α} {a : α} :
    (l ++ [a]).foldlM f b = some b' ↔ ∃ c, l.foldlM f b = some c ∧ f c a = some b' := by
  rw [List.foldlM_append, Option.bind_eq_bind, Option.bind_eq_some_iff]
  simp

/-- A run keeps what each of its steps keeps. -/
theorem foldlM_invariant {P : β → Prop} (hstep : ∀ b a b', P b → f b a = some b' → P b')
    {l : List α} (hb : P b) (h : l.foldlM f b = some b') : P b' := by
  induction l generalizing b with
  | nil =>
    obtain rfl : b = b' := by simpa using h
    exact hb
  | cons a l ih =>
    obtain ⟨c, hc, hrest⟩ := foldlM_cons_eq_some_iff.mp h
    exact ih (hstep b a c hb hc) hrest

/-- What the steps of a run put out, in order; `g` says what a step between two states does. -/
def outputs {γ : Type} (f : β → α → Option β) (g : β → β → List γ) : β → List α → List γ
  | _, [] => []
  | b, a :: l =>
    match f b a with
    | none => []
    | some c => g b c ++ outputs f g c l

/-- A history that each step extends by what it puts out is extended so by a run. -/
theorem history_foldlM {γ : Type} {g : β → β → List γ} {history : β → List γ}
    (hstep : ∀ b a b', f b a = some b' → history b' = history b ++ g b b') {l : List α}
    (h : l.foldlM f b = some b') : history b' = history b ++ outputs f g b l := by
  induction l generalizing b with
  | nil =>
    obtain rfl : b = b' := by simpa using h
    rw [outputs, List.append_nil]
  | cons a l ih =>
    obtain ⟨c, hc, hrest⟩ := foldlM_cons_eq_some_iff.mp h
    rw [ih hrest, hstep b a c hc, outputs, hc, List.append_assoc]

/-- Every beginning of a run that has an outcome has one. -/
theorem exists_foldlM_of_prefix {earlier l : List α} (hearlier : earlier <+: l)
    (h : l.foldlM f b = some b') : ∃ c, earlier.foldlM f b = some c := by
  obtain ⟨later, rfl⟩ := hearlier
  rw [List.foldlM_append, Option.bind_eq_bind, Option.bind_eq_some_iff] at h
  obtain ⟨c, hc, -⟩ := h
  exact ⟨c, hc⟩

/-- A run keeps what each of its steps keeps in the state in which it is taken. -/
theorem foldlM_induction {P : β → Prop} {l : List α} (hb : P b)
    (hstep : ∀ earlier a c c', earlier ++ [a] <+: l → earlier.foldlM f b = some c → P c →
      f c a = some c' → P c')
    (h : l.foldlM f b = some b') : P b' := by
  induction l using List.reverseRecOn generalizing b' with
  | nil =>
    obtain rfl : b = b' := by simpa using h
    exact hb
  | append_singleton l a ih =>
    obtain ⟨c, hc, ha⟩ := foldlM_concat_eq_some_iff.mp h
    have hP : P c := by
      refine ih ?_ hc
      intro earlier a' c₀ c₁ hearlier
      exact hstep earlier a' c₀ c₁ (hearlier.trans (List.prefix_append l [a]))
    exact hstep l a c b' (List.prefix_refl _) hc hP ha

/-- A property that a step keeps exactly if its guard is met holds in every state of a run
exactly if every step meets its guard. -/
theorem foldlM_states_iff {I P : β → Prop} {G : β → α → Prop} (hI : I b)
    (hkeeps : ∀ c a c', I c → f c a = some c' → I c') (hP : P b)
    (hstep : ∀ c a c', I c → P c → f c a = some c' → (P c' ↔ G c a)) {l : List α}
    (h : l.foldlM f b = some b') :
    (∀ earlier, earlier <+: l → ∀ c, earlier.foldlM f b = some c → P c) ↔
      ∀ earlier a, earlier ++ [a] <+: l → ∀ c, earlier.foldlM f b = some c → G c a := by
  constructor
  · intro hall earlier a hpre c hc
    obtain ⟨c', hc'⟩ := exists_foldlM_of_prefix hpre h
    obtain ⟨c₀, hc₀, ha⟩ := foldlM_concat_eq_some_iff.mp hc'
    obtain rfl : c = c₀ := Option.some.inj (hc.symm.trans hc₀)
    have hbefore := hall earlier ((List.prefix_append earlier [a]).trans hpre) c hc
    exact (hstep c a c' (foldlM_invariant hkeeps hI hc) hbefore ha).mp (hall _ hpre c' hc')
  · intro hguards earlier hearlier c hc
    refine foldlM_induction hP ?_ hc
    intro earlier' a c₀ c₁ hpre hc₀ hbefore ha
    exact (hstep c₀ a c₁ (foldlM_invariant hkeeps hI hc₀) hbefore ha).mpr
      (hguards earlier' a (hpre.trans hearlier) c₀ hc₀)

/-- The same where only one kind of step has a guard. -/
theorem foldlM_states_iff_of_kind {ι : Type} {k : ι → α} {I P : β → Prop} {G : β → ι → Prop}
    (hI : I b) (hkeeps : ∀ c a c', I c → f c a = some c' → I c') (hP : P b)
    (hstep : ∀ c a c', I c → P c → f c a = some c' → (P c' ↔ ∀ i, a = k i → G c i)) {l : List α}
    (h : l.foldlM f b = some b') :
    (∀ earlier, earlier <+: l → ∀ c, earlier.foldlM f b = some c → P c) ↔
      ∀ earlier i, earlier ++ [k i] <+: l → ∀ c, earlier.foldlM f b = some c → G c i := by
  rw [foldlM_states_iff hI hkeeps hP hstep h]
  constructor
  · intro hall earlier i hearlier c hc
    exact hall earlier _ hearlier c hc i rfl
  · rintro hall earlier a hearlier c hc i rfl
    exact hall earlier i hearlier c hc

end Runs

end StrikeMQ.Lib
