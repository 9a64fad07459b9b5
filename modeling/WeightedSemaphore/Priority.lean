import WeightedSemaphore.Refinement

/-!
# First in, first out

The waiters are served in the order in which the exchanges of their `poll_enter` installed them, and
the fast paths do not overtake them. The order is that of the history, in which a waiter's entry is
written by the very step that finishes, unlinks or installs it.
-/

namespace WeightedSemaphore

namespace Protocol

open Function (update)

variable {ι ω : Type} [DecidableEq ι] [DecidableEq ω] {cap : ℕ} {a b : State ι ω}
  {x y : ω} {p : Bool}

omit [DecidableEq ι] in
theorem update_life_eq {life : ω → Life} {l k : Life} (h : update life y l x = k)
    (hx : life x ≠ k) : x = y ∧ l = k := by
  by_cases hxy : x = y
  · subst hxy
    exact ⟨rfl, by simpa using h⟩
  · exact absurd (by rwa [Function.update_of_ne hxy] at h) hx

theorem Step.finished (h : Step cap a b) (hb : b.life x = .finished p)
    (ha : a.life x ≠ .finished p) : b.hist = .finished (a.uid x) p :: a.hist := by
  cases h with
  | grant o y linked n ho hp hl hy hr hn =>
    obtain ⟨rfl, hp⟩ := update_life_eq hb ha
    cases hp
    rfl
  | fail o y linked ho hp hl hy hr =>
    obtain ⟨rfl, hp⟩ := update_life_eq hb ha
    cases hp
    rfl
  | create y n hy => cases (update_life_eq hb ha).2
  | free y hy hr => cases (update_life_eq hb ha).2
  | retire y hy => cases (update_life_eq hb ha).2
  | fastPoll y m hacq hy hn => cases (update_life_eq hb ha).2
  | enter t y n pushed hr hy hacq => cases (update_life_eq hb ha).2
  | claim y q hy => cases (update_life_eq hb ha).2
  | giveBack t y hr hy => cases (update_life_eq hb ha).2
  | startCancel t y hr hy => cases (update_life_eq hb ha).2
  | accept o y ho hp => cases (update_life_eq hb ha).2
  | _ => exact absurd hb ha

end Protocol

section

variable [Usize] {ι : Type} [DecidableEq ι] {s s' : Sys ι} {act : Act ι} {initial : ℕ}

theorem Reachable.finished_logged (h : Reachable initial s) (hn : s.next act = some s') {x : Ptr}
    {p : Bool} (hx' : s'.lifeOf x = .finished p) (hx : s.lifeOf x ≠ .finished p) :
    s'.ghost.hist = .finished (s.ghost.uid x) p :: s.ghost.hist := by
  obtain ⟨a, hr⟩ := h.represents
  have hv := hr.sim.view
  rcases hr.next hn with hr' | ⟨b, hstep, hr'⟩
  · have hv' := hr'.sim.view
    exact absurd ((hv.life x).symm.trans ((hv'.life x).trans hx')) hx
  · have hv' := hr'.sim.view
    have hhist := hstep.finished ((hv'.life x).trans hx') (by rwa [hv.life])
    rw [hv'.hist, hv.hist, hv.uid] at hhist
    exact hhist

/-- Whenever a waiter is moved to `Finished`, every waiter installed before it has been finished, or
has started cancelling and been unlinked; whenever permits are taken on a fast path, every installed
waiter has. -/
theorem first_in_first_out (h : Reachable initial s) :
    History.Fifo s.ghost.hist ∧ History.CancelsFirst s.ghost.hist ∧
      ∀ (act : Act ι) (s' : Sys ι) (x : Ptr) (p : Bool), s.next act = some s' →
        s'.lifeOf x = .finished p → s.lifeOf x ≠ .finished p →
          s'.ghost.hist = .finished (s.ghost.uid x) p :: s.ghost.hist := by
  obtain ⟨a, hr⟩ := h.represents
  have hhist := hr.sim.view.hist
  refine ⟨hhist ▸ hr.hist.fifo, hhist ▸ hr.hist.cancels_first, ?_⟩
  intro act s' x p hn hx' hx
  exact h.finished_logged hn hx' hx

end

attribute [local instance] usize64

/-- One waiter enters, another one enters and cancels behind it, and a release serves the first. -/
def passing : Sys Bool :=
  Runs.final Sys.next
    ([.acquire (usize64.ptr 0) 1, .call false (.poll (usize64.ptr 0))] ++ Act.steps false 20 ++
      [.acquire (usize64.ptr 1) 1, .call true (.poll (usize64.ptr 1))] ++ Act.steps true 20 ++
      [.call true (.dropFuture (usize64.ptr 1))] ++ Act.steps true 19 ++
      [.call false (.release 1)] ++ Act.steps false 16)
    (Sys.init 0) (by decide +kernel)

theorem first_in_first_out_passing :
    History.Fifo passing.ghost.hist ∧
      passing.ghost.hist = [.finished 0 false, .released 1, .cancelled 1, .unlinked 1,
        .cancelling 1, .installed 1, .installed 0] :=
  ⟨(first_in_first_out (Runs.reaches_final _)).1, by decide +kernel⟩

end WeightedSemaphore
