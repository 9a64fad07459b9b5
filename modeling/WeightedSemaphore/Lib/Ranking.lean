import Mathlib.Order.OrderIsoNat
import WeightedSemaphore.Lib.Logs

/-!
# Termination by a sequence of counts

A step `Descends` when one of finitely many counts goes down and none before it goes up. A system
whose steps descend has no infinite run, and can be run from every state until it halts. The counts
are ordered by how much they matter: a step may raise those after the one that it lowers.
-/

namespace Runs

variable {σ α : Type*} {m : ℕ → σ → ℕ} {k n : ℕ} {s u : σ}

/-- One of the first `k` counts goes down, and none before it goes up. -/
def Descends (m : ℕ → σ → ℕ) (k : ℕ) (s u : σ) : Prop :=
  ∃ i < k, m i u < m i s ∧ ∀ j < i, m j u ≤ m j s

namespace Descends

theorem le_first (h : Descends m (k + 1) s u) : m 0 u ≤ m 0 s := by
  obtain ⟨i, -, hlt, hle⟩ := h
  cases i with
  | zero => exact hlt.le
  | succ i => exact hle 0 (Nat.succ_pos i)

theorem tail (h : Descends m (k + 1) s u) (hfirst : m 0 u = m 0 s) :
    Descends (fun i => m (i + 1)) k s u := by
  obtain ⟨i, hi, hlt, hle⟩ := h
  cases i with
  | zero => omega
  | succ i => exact ⟨i, by omega, hlt, fun j hj => hle (j + 1) (by omega)⟩

/-- A count that never goes up stays from some point on. -/
theorem eventually_constant {c : ℕ → ℕ} (h : ∀ i, c (i + 1) ≤ c i) : ∃ n, ∀ i, c (n + i) = c n := by
  have hanti : Antitone c := antitone_nat_of_succ_le h
  exact ⟨Function.argmin c, fun i =>
    le_antisymm (hanti (Nat.le_add_right _ i)) (Function.argmin_le c _)⟩

/-- There is no infinite descent. -/
theorem not_forever (m : ℕ → σ → ℕ) (k : ℕ) (f : ℕ → σ)
    (h : ∀ i, Descends m k (f i) (f (i + 1))) : False := by
  induction k generalizing m f with
  | zero =>
    obtain ⟨i, hi, -⟩ := h 0
    exact absurd hi (Nat.not_lt_zero i)
  | succ k ih =>
    obtain ⟨n, hn⟩ := eventually_constant (c := fun i => m 0 (f i)) fun i => (h i).le_first
    refine ih (fun i => m (i + 1)) (fun i => f (n + i)) fun i => (h (n + i)).tail ?_
    exact (hn (i + 1)).trans (hn i).symm

theorem wellFounded (m : ℕ → σ → ℕ) (k : ℕ) : WellFounded fun u s => Descends m k s u := by
  rw [wellFounded_iff_isEmpty_descending_chain]
  exact ⟨fun chain => not_forever m k chain.1 chain.2⟩

end Descends

variable {next : σ → α → Option σ} {ok : σ → α → Prop} {P : σ → Prop}

/-- Steps that descend come to an end. -/
theorem Infinite.exists_refused {f : ℕ → σ} {acts : ℕ → α} (hrun : Infinite next f acts)
    (hstep : ∀ s a u, P s → ok s a → next s a = some u → P u ∧ Descends m k s u) (hP : P (f n)) :
    ∃ i, n ≤ i ∧ ¬ ok (f i) (acts i) := by
  by_contra hno
  push Not at hno
  have hkeep : ∀ i, P (f (n + i)) := by
    intro i
    induction i with
    | zero => exact hP
    | succ i ih => exact (hstep _ _ _ ih (hno _ (Nat.le_add_right n i)) (hrun (n + i))).1
  exact Descends.not_forever m k (fun i => f (n + i)) fun i =>
    (hstep _ _ _ (hkeep i) (hno _ (Nat.le_add_right n i)) (hrun (n + i))).2

theorem Steps.eq_of_halt (h : Steps next ok s u) (hhalt : ∀ a, ok s a → next s a = none) :
    u = s := by
  induction h with
  | refl => rfl
  | tail a _ hok hn ih =>
    subst ih
    rw [hhalt a hok] at hn
    cases hn

/-- From every state the system can be run until it halts. -/
theorem Steps.exists_halt
    (hstep : ∀ s a u, P s → ok s a → next s a = some u → P u ∧ Descends m k s u) (hP : P s) :
    ∃ u, Steps next ok s u ∧ ∀ a, ok u a → next u a = none := by
  induction s using (Descends.wellFounded m k).induction with
  | _ s ih =>
    by_cases hhalt : ∀ a, ok s a → next s a = none
    · exact ⟨s, .refl, hhalt⟩
    · push Not at hhalt
      obtain ⟨a, hok, hn⟩ := hhalt
      obtain ⟨t, ht⟩ := Option.ne_none_iff_exists'.mp hn
      obtain ⟨hPt, hdesc⟩ := hstep s a t hP hok ht
      obtain ⟨u, hrun, hu⟩ := ih t hdesc hPt
      exact ⟨u, .head a hok ht hrun, hu⟩

end Runs
