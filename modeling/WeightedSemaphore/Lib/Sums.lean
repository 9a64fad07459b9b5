import Mathlib.Algebra.Order.BigOperators.Group.Finset
import Mathlib.Algebra.Ring.Nat

/-!
# Finite sums of counts

Sums of natural numbers in which one term changes, or whose zero terms do not matter.
-/

namespace Sums

variable {α : Type*} {f g : α → ℕ} {S T : Finset α} {x : α}

theorem sum_change [DecidableEq α] (hx : x ∈ S) (hfg : ∀ y ∈ S, y ≠ x → f y = g y) :
    ∑ y ∈ S, f y + g x = ∑ y ∈ S, g y + f x := by
  have herase : ∑ y ∈ S.erase x, f y = ∑ y ∈ S.erase x, g y :=
    Finset.sum_congr rfl fun y hy =>
      hfg y (Finset.mem_of_mem_erase hy) (Finset.ne_of_mem_erase hy)
  rw [← Finset.sum_erase_add S f hx, ← Finset.sum_erase_add S g hx, herase]
  omega

theorem sum_lt_of_change [DecidableEq α] (hx : x ∈ S) (hfg : ∀ y, y ≠ x → f y = g y)
    (h : f x < g x) : ∑ y ∈ S, f y < ∑ y ∈ S, g y := by
  have hchange := sum_change hx fun y _ hy => hfg y hy
  omega

theorem sum_le_of_change [DecidableEq α] (hx : x ∈ S) (hfg : ∀ y, y ≠ x → f y = g y)
    (h : f x ≤ g x) : ∑ y ∈ S, f y ≤ ∑ y ∈ S, g y := by
  have hchange := sum_change hx fun y _ hy => hfg y hy
  omega

/-- The sum does not depend on which zero terms are part of it. -/
theorem sum_support [DecidableEq α] (hS : ∀ y ∉ S, f y = 0) (hT : ∀ y ∉ T, f y = 0) :
    ∑ y ∈ S, f y = ∑ y ∈ T, f y := by
  rw [Finset.sum_subset (Finset.subset_union_left : S ⊆ S ∪ T) fun y _ hy => hS y hy,
    Finset.sum_subset (Finset.subset_union_right : T ⊆ S ∪ T) fun y _ hy => hT y hy]

/-- A term as large as the sum of a list of positive terms is its only term. -/
theorem eq_singleton_of_sum_le {l : List α} (hpos : ∀ y ∈ l, 0 < f y) (hx : x ∈ l)
    (h : (l.map f).sum ≤ f x) : l = [x] := by
  obtain ⟨l₁, l₂, rfl⟩ := List.append_of_mem hx
  simp only [List.map_append, List.map_cons, List.sum_append, List.sum_cons] at h
  have hempty {l' : List α} (hl' : ∀ y ∈ l', 0 < f y) (hsum : (l'.map f).sum = 0) : l' = [] := by
    cases l' with
    | nil => rfl
    | cons y l' =>
      have := hl' y List.mem_cons_self
      simp only [List.map_cons, List.sum_cons] at hsum
      omega
  have h₁ : l₁ = [] := hempty (fun y hy => hpos y (by simp [hy])) (by omega)
  have h₂ : l₂ = [] := hempty (fun y hy => hpos y (by simp [hy])) (by omega)
  rw [h₁, h₂, List.nil_append]

/-- The sum over all terms, finitely many of which are positive, makes up at most the difference
between `c` and `d`. -/
def AtMost (f : α → ℕ) (c d : ℕ) : Prop :=
  ∃ T : Finset α, (∀ y ∉ T, f y = 0) ∧ c + ∑ y ∈ T, f y ≤ d

theorem AtMost.of_zero {c d : ℕ} (hf : ∀ y, f y = 0) (h : c ≤ d) : AtMost f c d :=
  ⟨∅, fun y _ => hf y, by simpa using h⟩

theorem AtMost.change [DecidableEq α] {c c' d d' : ℕ} (h : AtMost f c d)
    (hfg : ∀ y, y ≠ x → g y = f y) (hle : c' + g x + d ≤ c + f x + d') : AtMost g c' d' := by
  obtain ⟨T, hT, hsum⟩ := h
  have hsupport : ∑ y ∈ insert x T, f y = ∑ y ∈ T, f y :=
    sum_support (fun y hy => hT y fun hm => hy (Finset.mem_insert_of_mem hm)) hT
  have hchange := sum_change (Finset.mem_insert_self x T) fun y _ hy => hfg y hy
  refine ⟨insert x T, fun y hy => ?_, by omega⟩
  rw [hfg y fun he => hy (he ▸ Finset.mem_insert_self x T)]
  exact hT y fun hm => hy (Finset.mem_insert_of_mem hm)

theorem AtMost.le {c d : ℕ} (h : AtMost f c d) (x : α) : c + f x ≤ d := by
  obtain ⟨T, hT, hsum⟩ := h
  by_cases hx : x ∈ T
  · have := Finset.single_le_sum (f := f) (fun _ _ => Nat.zero_le _) hx
    omega
  · rw [hT x hx]
    omega

end Sums
