import WeightedSemaphore.Lib.Logs
import WeightedSemaphore.Outcomes

/-!
# The operations of sequential calls

While no two calls overlap, every call is one operation on the queue that the state stands for. This
file says which operation an action performs and which waiter it finishes, and reads the effect of a
step of the protocol off what the step can be seen to do.
-/

namespace WeightedSemaphore

open Function (update update_self update_of_ne update_eq_self)
open Protocol (Inv HistOk Abstracts Change Role)
open Links

namespace Protocol

variable {ι ω : Type} [DecidableEq ω] {a b : State ι ω} {A A' : Fifo ℕ} {cap : ℕ}

/-- A step that no operation is seen in. -/
theorem Change.still (hc : Change cap a b A A')
    (hhist : b.hist = a.hist ∨ ∃ e, b.hist = e :: a.hist ∧ e.Silent)
    (hdone : ∀ x p, a.life x = .finished p → b.life x ≠ .done)
    (hrole : ∀ t, a.role t = .quiet → b.role t = .quiet) : A' = A := by
  have hnot : ∀ e, b.hist = e :: a.hist → e.Silent := by
    intro e he
    rcases hhist with hh | ⟨e', hh, he'⟩
    · exact absurd (he.symm.trans hh) (List.cons_ne_self _ _)
    · obtain ⟨rfl, -⟩ := List.cons.inj (he.symm.trans hh)
      exact he'
  cases hc with
  | silent => rfl
  | grant u n m q hh => exact (hnot _ hh).elim
  | fail u n q hh => exact (hnot _ hh).elim
  | took n p hh => exact (hnot _ hh).elim
  | enter x hh => exact (hnot _ hh).elim
  | release n hh => exact (hnot _ hh).elim
  | poison hh => exact (hnot _ hh).elim
  | cancel x hh => exact (hnot _ hh).elim
  | dropGuard t n _ _ hr hr' => cases hr'.symm.trans (hrole t hr)
  | claim x p _ hx hlife => exact absurd (by rw [hlife, update_self]) (hdone x p hx)
  | giveBack t x _ hx hlife => exact absurd (by rw [hlife, update_self]) (hdone x false hx)

/-- A step that logs an event is the operation of that event. -/
theorem Change.logged (hc : Change cap a b A A') {e : Event} (hhist : b.hist = e :: a.hist) :
    match e with
    | .released n => A' = A.apply cap (.release n)
    | .poison => A' = A.apply cap .poison
    | .fastPath n => ∃ p, A' = { A with permits := p } ∧
        ∀ m, A.permits = some m → p = some (m - n) ∧ n ≤ m
    | .installed u => ∃ x, a.uid x = u ∧ a.life x = .entering ∧
        A' = A.apply cap (.enter u (a.amount x))
    | .cancelling u => A' = A.apply cap (.drop u)
    | _ => True := by
  have hlog : ∀ {e'}, b.hist = e' :: a.hist → e' = e := fun h =>
    (List.cons.inj (h.symm.trans hhist)).1
  have hnot : b.hist ≠ a.hist := fun h => List.cons_ne_self _ _ (hhist.symm.trans h)
  cases hc with
  | silent hh =>
    rcases hh with hh | ⟨e', hh, he⟩
    · exact absurd hh hnot
    · obtain rfl := hlog hh
      cases e' <;> trivial
  | grant u n m q hh => obtain rfl := hlog hh; trivial
  | fail u n q hh => obtain rfl := hlog hh; trivial
  | took n p hh hp => obtain rfl := hlog hh; exact ⟨p, rfl, hp⟩
  | enter x hh hx => obtain rfl := hlog hh; exact ⟨x, rfl, hx, rfl⟩
  | release n hh => obtain rfl := hlog hh; rfl
  | poison hh => obtain rfl := hlog hh; rfl
  | cancel x hh => obtain rfl := hlog hh; rfl
  | dropGuard t n hh => exact absurd hh hnot
  | claim x p hh => exact absurd hh hnot
  | giveBack t x hh => exact absurd hh hnot

theorem Change.unlogged (hc : Change cap a b A A') (hhist : b.hist = a.hist) :
    (A' = A ∧ (∀ x p, a.life x = .finished p → b.life x ≠ .done) ∧
        ∀ t, a.role t = .quiet → b.role t = .quiet) ∨
      (∃ t n, b.life = a.life ∧ a.role t = .quiet ∧
        b.role t = .releasing (Tally.ofNat cap n) none ∧ A' = A.apply cap (.release n)) ∨
      (∃ x p, a.life x = .finished p ∧ b.life = update a.life x .done ∧ b.role = a.role ∧
        A' = A.apply cap (.claim (a.uid x))) ∨
      ∃ t x, a.life x = .finished false ∧ b.life = update a.life x .done ∧ a.role t = .quiet ∧
        b.role t ≠ .quiet ∧ A' = A.apply cap (.drop (a.uid x)) := by
  have hnot : ∀ e, b.hist ≠ e :: a.hist := fun e h =>
    List.cons_ne_self _ _ (h.symm.trans hhist)
  cases hc with
  | silent _ hlife hrole => exact Or.inl ⟨rfl, hlife, hrole⟩
  | dropGuard t n _ hlife hr hr' => exact Or.inr (Or.inl ⟨t, n, hlife, hr, hr', rfl⟩)
  | claim x p _ hx hlife hrole => exact Or.inr (Or.inr (Or.inl ⟨x, p, hx, hlife, hrole, rfl⟩))
  | giveBack t x _ hx hlife hr hr' =>
    exact Or.inr (Or.inr (Or.inr ⟨t, x, hx, hlife, hr, by simp [hr'], rfl⟩))
  | grant u n m q hh => exact absurd hh (hnot _)
  | fail u n q hh => exact absurd hh (hnot _)
  | took n p hh => exact absurd hh (hnot _)
  | enter x hh => exact absurd hh (hnot _)
  | release n hh => exact absurd hh (hnot _)
  | poison hh => exact absurd hh (hnot _)
  | cancel x hh => exact absurd hh (hnot _)

/-- One waiter alone is claimed. -/
theorem eq_of_claimed {x y : ω} {p : Bool} (hx : a.life x = .finished p) (hx' : b.life x = .done)
    (hlife : b.life = update a.life y .done) : y = x := by
  by_contra hne
  rw [hlife, update_of_ne (Ne.symm hne), hx] at hx'
  cases hx'

theorem Change.claimed (hc : Change cap a b A A') (hhist : b.hist = a.hist) {x : ω} {p : Bool}
    (hx : a.life x = .finished p) (hx' : b.life x = .done)
    (hrole : ∀ t, a.role t = .quiet → b.role t = .quiet) :
    A' = A.apply cap (.claim (a.uid x)) := by
  rcases hc.unlogged hhist with ⟨-, hlife, -⟩ | ⟨t, n, hlife, -⟩ | ⟨y, q, -, hlife, -, rfl⟩ |
    ⟨t, y, -, -, hr, hr', -⟩
  · exact absurd hx' (hlife x p hx)
  · rw [hlife, hx] at hx'
    cases hx'
  · rw [eq_of_claimed hx hx' hlife]
  · exact absurd (hrole t hr) hr'

theorem Change.gaveBack (hc : Change cap a b A A') (hhist : b.hist = a.hist) {x : ω} {t : ι}
    (hx : a.life x = .finished false) (hx' : b.life x = .done) (hr : a.role t = .quiet)
    (hr' : b.role t ≠ .quiet) : A' = A.apply cap (.drop (a.uid x)) := by
  rcases hc.unlogged hhist with ⟨-, hlife, -⟩ | ⟨u, n, hlife, -⟩ | ⟨y, q, -, -, hrole, -⟩ |
    ⟨u, y, -, hlife, -, -, rfl⟩
  · exact absurd hx' (hlife x false hx)
  · rw [hlife, hx] at hx'
    cases hx'
  · rw [hrole] at hr'
    exact absurd hr hr'
  · rw [eq_of_claimed hx hx' hlife]

theorem Change.released (hc : Change cap a b A A') (hhist : b.hist = a.hist) {t : ι} {n : ℕ}
    (hdone : ∀ x p, a.life x = .finished p → b.life x ≠ .done) (hr : a.role t = .quiet)
    (hr' : b.role t = .releasing (Tally.ofNat cap n) none)
    (hother : ∀ u, u ≠ t → a.role u = .quiet → b.role u = .quiet) :
    A' = A.apply cap (.release n) := by
  rcases hc.unlogged hhist with ⟨-, -, hrole⟩ | ⟨u, m, -, hu, hu', rfl⟩ | ⟨y, q, hy, hlife, -⟩ |
    ⟨u, y, hy, hlife, -⟩
  · cases (hrole t hr).symm.trans hr'
  · obtain rfl : u = t := by
      by_contra hne
      cases (hother u hne hu).symm.trans hu'
    have heq : Tally.ofNat cap m = Tally.ofNat cap n := by
      rw [hu'] at hr'
      exact (Role.releasing.inj hr').1
    simp only [Fifo.apply, heq]
  · exact absurd (by rw [hlife, update_self]) (hdone y q hy)
  · exact absurd (by rw [hlife, update_self]) (hdone y false hy)

end Protocol

section

variable [Usize] {ι : Type}

namespace Sys

/-- The operation that an action performs: calls do so when they begin, but `try_acquire` takes its
permits, and a poll claims its guard, on returning. -/
def op (s : Sys ι) (act : Act ι) (s' : Sys ι) : Option (Fifo.Op ℕ) :=
  match act with
  | .call _ (.poll a) =>
    match s.mem.step a with
    | .entering => some (.enter (s.ghost.uid a) (s.mem.amount a))
    | _ => none
  | .call _ (.dropFuture a) => some (.drop (s.ghost.uid a))
  | .call _ (.release n) => some (.release n)
  | .call _ .poison => some .poison
  | .call t (.dropGuard i) =>
    match s.guards[i]? with
    | none => none
    | some guard =>
      if !guard.panicking && s.panicking t then some .poison else some (.release guard.amount)
  | .step t _ =>
    match s.frames t, s'.frames t with
    | .tryAcquire n _, .idle .acquired => some (.take n)
    | .pollEnter a _, .idle .ready => some (.claim (s.ghost.uid a))
    | .pollWaiting a _ _, .idle .ready => some (.claim (s.ghost.uid a))
    | _, _ => none
  | _ => none

/-- The waiter that an action finishes, and whether it is poisoned: `finish` succeeds, or the first
poll of a future returns its result at once. -/
def done (s : Sys ι) (act : Act ι) (s' : Sys ι) : Option (ℕ × Bool) :=
  match act with
  | .step t _ =>
    match s.frames t, s'.frames t with
    | .pollEnter a _, .idle .ready => some (s.ghost.uid a, false)
    | .pollEnter a _, .idle .readyErr => some (s.ghost.uid a, true)
    | .release _ _ (.finish pop _), .release _ _ (.wake _ _ _) =>
      some (s.ghost.uid pop.front, pop.releasable.isNone)
    | .release _ _ (.finish pop _), .release _ _ (.relink _) =>
      some (s.ghost.uid pop.front, pop.releasable.isNone)
    | _, _ => none
  | _ => none

end Sys

structure Note where
  op : Option (Fifo.Op ℕ)
  done : Option (ℕ × Bool)

namespace Note

def ops (w : List Note) : List (Fifo.Op ℕ) := (w.filterMap op).reverse

def dones (w : List Note) : List (ℕ × Bool) := (w.filterMap done).reverse

omit [Usize] in
theorem ops_cons (n : Note) (w : List Note) : ops (n :: w) = ops w ++ n.op.toList := by
  cases h : n.op <;> simp [ops, h]

omit [Usize] in
theorem dones_cons (n : Note) (w : List Note) : dones (n :: w) = dones w ++ n.done.toList := by
  cases h : n.done <;> simp [dones, h]

end Note

def Sys.note (s : Sys ι) (act : Act ι) (s' : Sys ι) : Option Note :=
  some ⟨s.op act s', s.done act s'⟩

/-- No call overlaps another: everything but the next step of a thread happens while no call is in
progress. -/
def Sys.Sequential (s : Sys ι) : Act ι → Prop
  | .step _ _ => True
  | _ => s.Quiescent

end

end WeightedSemaphore
