import Mathlib.Data.List.Perm.Basic
import Mathlib.Algebra.BigOperators.Group.List.Basic
import Mathlib.Algebra.Ring.Nat

/-!
# Shares of a total

A total that is divided among the elements of a list, by a weight `f`. How it changes when an
element is taken out, replaced, divided in two or merged with another one.
-/

namespace Shares

variable {β : Type*} (f : β → ℕ) {l : List β} {i j : ℕ} {x y : β}

def total (l : List β) : ℕ := (l.map f).sum

@[simp] theorem total_nil : total f [] = 0 := rfl

@[simp] theorem total_cons (x : β) (l : List β) : total f (x :: l) = f x + total f l := by
  simp [total]

@[simp] theorem total_append (l l' : List β) : total f (l ++ l') = total f l + total f l' := by
  simp [total]

theorem eraseIdx (h : l[i]? = some x) : total f l = f x + total f (l.eraseIdx i) := by
  obtain ⟨hi, rfl⟩ := List.getElem?_eq_some_iff.mp h
  have := ((List.getElem_cons_eraseIdx_perm hi).map f).sum_eq
  rw [total, ← this, List.map_cons, List.sum_cons, total]

theorem set (h : l[i]? = some x) (y : β) : total f (l.set i y) + f x = total f l + f y := by
  induction l generalizing i with
  | nil => cases h
  | cons z l ih =>
    cases i with
    | zero =>
      obtain rfl : z = x := Option.some.inj h
      simp only [List.set_cons_zero, total_cons]
      omega
    | succ i =>
      have := ih (i := i) h
      simp only [List.set_cons_succ, total_cons]
      omega

theorem split (h : l[i]? = some x) {y z : β} (hf : f y + f z = f x) :
    total f (z :: l.set i y) = total f l := by
  have := set f h y
  rw [total_cons]
  omega

/-- Two elements are merged, and lose what the merged one has less. -/
theorem merge (hi : l[i]? = some x) (hj : l[j]? = some y) (hij : i ≠ j) (z : β) :
    total f ((l.set i z).eraseIdx j) + (f x + f y) = total f l + f z := by
  have hj' : (l.set i z)[j]? = some y := by rw [List.getElem?_set_ne hij, hj]
  have := set f hi z
  have := eraseIdx f hj'
  omega

end Shares
