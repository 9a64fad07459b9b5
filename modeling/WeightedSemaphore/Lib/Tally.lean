import Mathlib.Algebra.Order.BigOperators.Group.Finset
import Mathlib.Data.Finset.Fold
import Mathlib.Data.Nat.Basic

/-!
# Capped counters

A tally is a count of at most `cap`, or `none` once a sum has exceeded it. Overflow is absorbing, so
the sum of several tallies does not depend on order or grouping.
-/

abbrev Tally := Option ℕ

namespace Tally

variable {cap : ℕ} {a b c : Tally} {m n : ℕ}

def ofNat (cap n : ℕ) : Tally := if n ≤ cap then some n else none

def add (cap : ℕ) : Tally → Tally → Tally
  | some m, some n => ofNat cap (m + n)
  | _, _ => none

theorem ofNat_of_le (h : n ≤ cap) : ofNat cap n = some n := if_pos h

theorem ofNat_of_lt (h : cap < n) : ofNat cap n = none := if_neg (by omega)

theorem ofNat_eq_some : ofNat cap m = some n ↔ m = n ∧ m ≤ cap := by
  unfold ofNat
  split
  · simp_all
  · simp_all only [reduceCtorEq, false_iff, not_and, Nat.not_le]
    omega

theorem add_some_some : add cap (some m) (some n) = ofNat cap (m + n) := rfl

@[simp] theorem add_none : add cap a none = none := by cases a <;> rfl

@[simp] theorem none_add : add cap none a = none := rfl

theorem add_eq_some : add cap a b = some n ↔
    ∃ k l, a = some k ∧ b = some l ∧ k + l = n ∧ n ≤ cap := by
  cases a <;> cases b <;> simp [add, ofNat_eq_some]
  omega

theorem eq_of_add_ofNat {k : ℕ} (h : add cap (some k) (ofNat cap n) = some m) : m = k + n := by
  obtain ⟨i, j, hi, hj, hm, -⟩ := add_eq_some.mp h
  obtain ⟨rfl, -⟩ := ofNat_eq_some.mp hj
  obtain rfl := Option.some.inj hi
  exact hm.symm

def count (a : Tally) : ℕ := a.getD 0

@[simp] theorem count_some : count (some n) = n := rfl

theorem eq_some_count (h : a ≠ none) : a = some (count a) := by
  cases a with
  | none => exact absurd rfl h
  | some n => rfl

theorem add_of_le (cap : ℕ) (ha : a ≠ none) (hb : b ≠ none) (h : count a + count b ≤ cap) :
    add cap a b = some (count a + count b) := by
  rw [eq_some_count ha, eq_some_count hb, add_some_some]
  exact ofNat_of_le h

theorem count_add (h : add cap a b ≠ none) : count (add cap a b) = count a + count b := by
  obtain ⟨n, hn⟩ := Option.ne_none_iff_exists'.mp h
  obtain ⟨k, l, rfl, rfl, hkl, -⟩ := add_eq_some.mp hn
  rw [hn]
  exact hkl.symm

theorem count_ofNat (h : ofNat cap n ≠ none) : count (ofNat cap n) = n := by
  obtain ⟨m, hm⟩ := Option.ne_none_iff_exists'.mp h
  obtain ⟨rfl, -⟩ := ofNat_eq_some.mp hm
  rw [hm]
  rfl

theorem count_add_le (cap : ℕ) (a b : Tally) : count (add cap a b) ≤ count a + count b := by
  by_cases h : add cap a b = none
  · rw [h]
    exact Nat.zero_le _
  · exact (count_add h).le

theorem count_ofNat_le (cap n : ℕ) : count (ofNat cap n) ≤ n := by
  by_cases h : ofNat cap n = none
  · rw [h]
    exact Nat.zero_le _
  · exact (count_ofNat h).le

theorem add_comm (cap : ℕ) (a b : Tally) : add cap a b = add cap b a := by
  cases a <;> cases b <;> simp [add, Nat.add_comm]

theorem add_assoc (cap : ℕ) (a b c : Tally) :
    add cap (add cap a b) c = add cap a (add cap b c) := by
  cases a with
  | none => rfl
  | some m =>
    cases b with
    | none => rfl
    | some n =>
      cases c with
      | none => simp
      | some k =>
        simp only [add_some_some, ofNat]
        split_ifs
        · simp only [add_some_some, Nat.add_assoc]
        all_goals simp [add, ofNat] <;> omega

theorem add_left_comm (cap : ℕ) (a b c : Tally) :
    add cap a (add cap b c) = add cap b (add cap a c) := by
  rw [← add_assoc, add_comm cap a b, add_assoc]

/-- A sum is already capped. -/
@[simp] theorem zero_add_add : add cap (some 0) (add cap a b) = add cap a b := by
  cases a with
  | none => rfl
  | some m =>
    cases b with
    | none => rfl
    | some n =>
      simp only [add_some_some, ofNat]
      split_ifs with h
      · simp [add, ofNat, h]
      · rfl

@[simp] theorem add_zero_add : add cap a (add cap (some 0) b) = add cap a b := by
  rw [add_left_comm, zero_add_add]

theorem add_zero (h : ∀ n, a = some n → n ≤ cap) : add cap a (some 0) = a := by
  cases a with
  | none => rfl
  | some n => exact ofNat_of_le (h n rfl)

/-- Less of one summand is less of the sum. -/
theorem sub_add {k : ℕ} (h : add cap (some n) a = some m) (hk : k ≤ n) :
    add cap (some (n - k)) a = some (m - k) ∧ k ≤ m := by
  obtain ⟨i, j, hi, rfl, rfl, hm⟩ := add_eq_some.mp h
  obtain rfl := Option.some.inj hi
  refine ⟨?_, by omega⟩
  rw [add_some_some, ofNat_of_le (by omega)]
  congr 1
  omega

theorem ofNat_add (cap m n : ℕ) : add cap (ofNat cap m) (ofNat cap n) = ofNat cap (m + n) := by
  unfold ofNat
  split_ifs <;> simp [add, ofNat] <;> omega

instance : Std.Commutative (add cap) := ⟨add_comm cap⟩

instance : Std.Associative (add cap) := ⟨add_assoc cap⟩

section Sum

variable {ι : Type*} [DecidableEq ι] {f g : ι → Tally} {S T : Finset ι} {t : ι}

def sum (cap : ℕ) (T : Finset ι) (f : ι → Tally) : Tally := T.fold (add cap) (some 0) f

omit [DecidableEq ι] in
@[simp] theorem sum_empty : sum cap ∅ f = some 0 := rfl

theorem sum_insert (h : t ∉ T) : sum cap (insert t T) f = add cap (f t) (sum cap T f) :=
  Finset.fold_insert h

theorem sum_erase (h : t ∈ T) : sum cap T f = add cap (f t) (sum cap (T.erase t) f) := by
  rw [← sum_insert (Finset.notMem_erase t T), Finset.insert_erase h]

omit [DecidableEq ι] in
theorem sum_congr (h : ∀ t ∈ T, f t = g t) : sum cap T f = sum cap T g := Finset.fold_congr h

@[simp] theorem zero_sum : add cap (some 0) (sum cap T f) = sum cap T f := by
  induction T using Finset.induction_on with
  | empty => rfl
  | insert t T ht ih => rw [sum_insert ht, zero_add_add]

theorem sum_subset (h : S ⊆ T) (hf : ∀ t ∈ T, t ∉ S → f t = some 0) :
    sum cap T f = sum cap S f := by
  induction T using Finset.induction_on generalizing S with
  | empty => rw [Finset.subset_empty.mp h]
  | insert t T ht ih =>
    rw [sum_insert ht]
    by_cases hS : t ∈ S
    · rw [sum_erase hS, ih (S := S.erase t)]
      · rwa [← Finset.subset_insert_iff]
      · intro u hu hnot
        refine hf u (Finset.mem_insert_of_mem hu) fun hu' => hnot ?_
        exact Finset.mem_erase.mpr ⟨by rintro rfl; exact ht hu, hu'⟩
    · rw [hf t (Finset.mem_insert_self t T) hS, zero_sum]
      refine ih ((Finset.subset_insert_iff_of_notMem hS).mp h) fun u hu hnot => ?_
      exact hf u (Finset.mem_insert_of_mem hu) hnot

theorem sum_of_le (hf : ∀ t ∈ T, f t ≠ none) (h : ∑ t ∈ T, count (f t) ≤ cap) :
    sum cap T f = some (∑ t ∈ T, count (f t)) := by
  induction T using Finset.induction_on with
  | empty => rfl
  | insert t T ht ih =>
    rw [Finset.sum_insert ht] at h ⊢
    have ih := ih (fun u hu => hf u (Finset.mem_insert_of_mem hu)) (by omega)
    rw [sum_insert ht, ih]
    exact add_of_le cap (hf t (Finset.mem_insert_self t T)) (by simp) (by simpa using h)

end Sum

end Tally
