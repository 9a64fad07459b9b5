import Mathlib.Data.List.Basic
import Mathlib.Data.List.Nodup
import Mathlib.Data.List.TakeWhile

/-!
# Explaining concurrent calls by a sequential order

A sequential object answers an operation from its state. An order of calls explains the results of a
history when every completed call is in it and got the answer that the object gives at its place,
and when it respects the precedence of the history, such as real time. An order grows at its end:
that changes neither the answers nor the places of the calls before.
-/

namespace Linear

variable {σ κ Op R : Type*} [DecidableEq κ]

def earlier (l : List κ) (k : κ) : List κ := l.takeWhile (· ≠ k)

section Earlier

variable {l l' : List κ} {j k : κ}

theorem earlier_of_not_mem (h : k ∉ l) : earlier l k = l := by
  induction l with
  | nil => rfl
  | cons i l ih =>
    rw [List.mem_cons, not_or] at h
    simpa [earlier, Ne.symm h.1] using ih h.2

theorem earlier_append_of_mem (h : k ∈ l) : earlier (l ++ l') k = earlier l k := by
  induction l with
  | nil => cases h
  | cons i l ih =>
    by_cases hik : i = k
    · simp [earlier, hik]
    · have hk : k ∈ l := (List.mem_cons.mp h).resolve_left (Ne.symm hik)
      simpa [earlier, hik] using ih hk

theorem earlier_append (h : k ∉ l) : earlier (l ++ l') k = l ++ earlier l' k := by
  induction l with
  | nil => rfl
  | cons i l ih =>
    rw [List.mem_cons, not_or] at h
    simpa [earlier, Ne.symm h.1] using ih h.2

theorem mem_earlier_append (h : j ∈ earlier l k) : j ∈ earlier (l ++ l') k := by
  by_cases hk : k ∈ l
  · rwa [earlier_append_of_mem hk]
  · rw [earlier_of_not_mem hk] at h
    rw [earlier_append hk]
    exact List.mem_append_left _ h

theorem mem_of_mem_earlier (h : j ∈ earlier l k) : j ∈ l := List.takeWhile_subset _ h

theorem ne_of_mem_earlier (h : j ∈ earlier l k) : j ≠ k := by
  simpa using List.mem_takeWhile_imp h

theorem nodup_earlier (h : l.Nodup) : (earlier l k).Nodup := h.sublist (List.takeWhile_sublist _)

end Earlier

variable (apply : σ → Op → σ × R) (op : κ → Op) (s : σ)

def state (l : List κ) : σ := l.foldl (fun s k => (apply s (op k)).1) s

def answer (l : List κ) (k : κ) : R := (apply (state apply op s (earlier l k)) (op k)).2

variable {apply op s} {op' : κ → Op} {l l' : List κ} {k : κ}

omit [DecidableEq κ] in
theorem state_append : state apply op s (l ++ l') = state apply op (state apply op s l) l' :=
  List.foldl_append

omit [DecidableEq κ] in
theorem state_congr (h : ∀ k ∈ l, op' k = op k) : state apply op' s l = state apply op s l := by
  induction l generalizing s with
  | nil => rfl
  | cons k l ih =>
    have hk := h k List.mem_cons_self
    simp only [state, List.foldl_cons] at ih ⊢
    rw [hk]
    exact ih fun j hj => h j (List.mem_cons_of_mem k hj)

theorem answer_congr (h : ∀ k ∈ l, op' k = op k) (hk : op' k = op k) :
    answer apply op' s l k = answer apply op s l k := by
  unfold answer
  rw [state_congr fun j hj => h j (mem_of_mem_earlier hj), hk]

theorem answer_append (h : k ∈ l) : answer apply op s (l ++ l') k = answer apply op s l k := by
  unfold answer
  rw [earlier_append_of_mem h]

theorem answer_append_self (h : k ∉ l) :
    answer apply op s (l ++ [k]) k = (apply (state apply op s l) (op k)).2 := by
  have hearlier : earlier (l ++ [k]) k = l := by
    rw [earlier_append h]
    simp [earlier]
  unfold answer
  rw [hearlier]

/-- What is answered to the calls before `k` does not depend on `k`. -/
theorem answer_earlier {j : κ} (h : j ∈ earlier l k) :
    answer apply op s (earlier l k) j = answer apply op s l j := by
  have hsplit : earlier l k ++ l.dropWhile (· ≠ k) = l := List.takeWhile_append_dropWhile
  conv_rhs => rw [← hsplit, answer_append h]

variable (apply op s)

structure Explains (begun : κ → Prop) (result : κ → Option R) (precedes : κ → κ → Prop)
    (l : List κ) : Prop where
  nodup : l.Nodup
  begun : ∀ k ∈ l, begun k
  complete : ∀ k r, result k = some r → k ∈ l ∧ answer apply op s l k = r
  realTime : ∀ j k, k ∈ l → precedes j k → j ∈ earlier l k

end Linear
