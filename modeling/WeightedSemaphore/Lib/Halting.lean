import Mathlib.Data.Nat.Notation
import WeightedSemaphore.Lib.Runs

/-!
# Runs up to a stop

`halting` is a system that stands still once a test holds. It comes to a stop when a count of the
steps ahead goes down, but for actions that idle.
-/

namespace Runs

variable {σ α : Type*} {next : σ → α → Option σ}

def halting (next : σ → α → Option σ) (stop : σ → Bool) (s : σ) (a : α) : Option σ :=
  if stop s then some s else next s a

/-- Termination with a count of the steps to come. `I k` holds `k` steps before the system stops,
and an action that is `idle` may fail to bring it nearer. -/
theorem exec_halting {stop : σ → Bool} {idle : α → Bool} {I : ℕ → σ → Prop}
    (hstop : ∀ s, I 0 s → stop s = true)
    (hstep : ∀ k s a, I (k + 1) s → stop s = false ∧
      ∃ t, next s a = some t ∧ (I k t ∨ idle a = true ∧ I (k + 1) t))
    {k : ℕ} (hs : I k s) (as : List α) :
    ∃ j u, exec (halting next stop) as s = some u ∧ I j u ∧
      (j = 0 ∨ j + as.countP (fun a => !idle a) ≤ k) := by
  induction as generalizing k s with
  | nil => exact ⟨k, s, rfl, hs, Or.inr (by simp)⟩
  | cons a as ih =>
    cases k with
    | zero =>
      obtain ⟨j, u, hu, hj, hle⟩ := ih hs
      refine ⟨j, u, ?_, hj, Or.inl (by omega)⟩
      simpa [exec, halting, hstop s hs] using hu
    | succ k =>
      obtain ⟨hgo, t, hn, ht⟩ := hstep k s a hs
      have hexec : exec (halting next stop) (a :: as) s = exec (halting next stop) as t := by
        simp [exec, halting, hgo, hn]
      rw [hexec, List.countP_cons]
      rcases ht with ht | ⟨ha, ht⟩
      · obtain ⟨j, u, hu, hj, hle⟩ := ih ht
        refine ⟨j, u, hu, hj, hle.imp_right fun hle => ?_⟩
        split <;> omega
      · obtain ⟨j, u, hu, hj, hle⟩ := ih ht
        refine ⟨j, u, hu, hj, hle.imp_right fun hle => ?_⟩
        simpa [ha] using hle

end Runs
