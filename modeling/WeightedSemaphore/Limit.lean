import WeightedSemaphore.Conservation
import WeightedSemaphore.ProtocolLimit
import WeightedSemaphore.Quiescence

/-!
# The limit on the permits in use

Poisoned or not, overflowed or not: the permits that the semaphore has given out, still offers or
carries are never more than the initial ones and those released. This is what users rely on who
limit the use of a resource.
-/

namespace WeightedSemaphore

section

variable [Usize] {ι : Type} [DecidableEq ι] {s : Sys ι} {initial : ℕ}

theorem Reachable.limited (h : Reachable initial s) :
    ∃ a, Represents s a ∧ a.Covered initial :=
  kept_of_run (fun _ _ _ _ hr hcovered hstep => hcovered.step hstep hr.inv)
    (.init maxAvailable initial) h

theorem Reachable.in_use_le (h : Reachable initial s) :
    s.granted + s.guarded + s.ghost.hist.forgotten ≤ initial + s.ghost.hist.given := by
  obtain ⟨a, hr, S, -, hsum⟩ := h.limited
  have hv := hr.sim.view
  rw [← hv.granted, ← hv.hist, Sys.guarded, ← hv.held]
  unfold Protocol.State.ledger at hsum
  omega

/-- In every run, whatever is poisoned, overflows or panics: the permits in the two words, with the
calls in progress, with granted waiters and with guards are at most those put in and not forgotten.
-/
theorem permits_limited (h : Reachable initial s) (T : Finset ι)
    (hT : ∀ t ∉ T, (s.frames t).isIdle = true) :
    s.sem.acquire.load.permits + s.sem.release.load.permits + ∑ t ∈ T, (s.frames t).carried +
        s.granted + s.guarded + s.ghost.hist.forgotten ≤ initial + s.ghost.hist.given := by
  obtain ⟨a, hr, S, hS, hsum⟩ := h.limited
  rw [hr.sim.ledger hr.inv hS hT, ← hr.sim.view.hist]
  exact hsum

end

attribute [local instance] usize64

def wasteful : Sys Bool :=
  Runs.final Sys.next
    ([.call false (.tryAcquire 3)] ++ Act.steps false 2 ++ [.call true (.tryAcquire 2)] ++
      Act.steps true 2 ++ [.setPanicking false true, .call false (.dropGuard 1)] ++
      Act.steps false 7)
    (Sys.init 6) (by decide +kernel)

theorem permits_limited_wasteful :
    wasteful.guarded = 2 ∧ wasteful.sem.acquire.load.permits = 0 ∧
      wasteful.sem.acquire.load.permits + wasteful.sem.release.load.permits +
          ∑ t ∈ {false}, (wasteful.frames t).carried + wasteful.granted + wasteful.guarded +
          wasteful.ghost.hist.forgotten ≤ 6 + wasteful.ghost.hist.given :=
  ⟨by decide +kernel, by decide +kernel,
    permits_limited (s := wasteful) (Runs.reaches_final _) {false} (by decide +kernel)⟩

end WeightedSemaphore
