import WeightedSemaphore.Limit
import WeightedSemaphore.Poison

/-!
# Only poison loses permits

Permits that exceed `maxAvailable` together, but never in one place, do not poison the semaphore.
Whatever a run puts in: as long as nothing holds poison, every permit is accounted for. So, at rest,
the oldest waiter asks for more than all permits that are not in use.
-/

namespace WeightedSemaphore

open Function (update update_self update_of_ne)

namespace Protocol

variable {ι ω : Type} {cap initial : ℕ} {a b : State ι ω}

/-- Unless something is poisoned now, nothing ever was, and no permit is lost. -/
def State.Lossless (initial : ℕ) (a : State ι ω) : Prop :=
  ¬ a.Poisoned → .poison ∉ a.hist ∧ Clean a ∧ a.Balanced initial

theorem Clean.of_unpoisoned (hp : ¬ a.Poisoned) (hlife : ∀ x, a.life x ≠ .finished true)
    (hhist : ∀ u, .finished u true ∉ a.hist) : Clean a where
  acq h := hp (Or.inl h)
  rel h := hp (Or.inr (Or.inl h))
  owner _ ho h := hp (Or.inr (Or.inr (Or.inl ((ownerPermits_of_owner ho).trans h))))
  role t h := hp (Or.inr (Or.inr (Or.inr ⟨t, h⟩)))
  life := hlife
  hist := hhist

theorem State.Lossless.init (cap initial : ℕ) :
    (State.init cap initial : State ι ω).Lossless initial := by
  intro hp
  have hle : initial ≤ cap := by
    by_contra hlt
    exact hp (Or.inl (Tally.ofNat_of_lt (Nat.lt_of_not_le hlt)))
  exact ⟨by simp [State.init], Clean.init hle, .init hle⟩

variable [DecidableEq ι] [DecidableEq ω]

/-- No waiter is finished with poison unless the lock owner has it. -/
theorem Clean.lives (hc : Clean a) (h : Step cap a b) :
    (∀ x, b.life x ≠ .finished true) ∧ ∀ u, .finished u true ∉ b.hist := by
  cases h with
  | create x n hx => exact ⟨hc.set_life (by simp), hc.hist⟩
  | free x hx hr => exact ⟨hc.set_life (by simp), hc.hist⟩
  | retire x hx => exact ⟨hc.set_life (by simp), hc.hist⟩
  | fast n m hacq hn => exact ⟨hc.life, hc.log (by simp)⟩
  | fastPoll x m hacq hx hn => exact ⟨hc.set_life (by simp), hc.log (by simp)⟩
  | enter t x n pushed hr hx hacq => exact ⟨hc.set_life (by simp), hc.log (by simp)⟩
  | release t n hr => exact ⟨hc.life, hc.log (by simp)⟩
  | poison t n hr hn => exact ⟨hc.life, hc.log (by simp)⟩
  | forget n hn => exact ⟨hc.life, hc.log (by simp)⟩
  | claim x p hx => exact ⟨hc.set_life (by simp), hc.hist⟩
  | giveBack t x hr hx => exact ⟨hc.set_life (by simp), hc.hist⟩
  | startCancel t x hr hx => exact ⟨hc.set_life (by simp), hc.log (by simp)⟩
  | unlink o x taken ho hp ht => exact ⟨hc.life, hc.log (by simp)⟩
  | accept o x ho hp => exact ⟨hc.set_life (by simp), hc.log (by simp)⟩
  | grant o x linked n ho hp hl hx hr hn => exact ⟨hc.set_life (by simp), hc.log (by simp)⟩
  | fail o x linked ho hp hl hx hr => exact absurd hr (hc.owner o ho)
  | _ => exact ⟨hc.life, hc.hist⟩

theorem State.Lossless.step (hl : a.Lossless initial) (hi : Inv a) (h : Step cap a b) :
    b.Lossless initial := by
  intro hp
  obtain ⟨hpoison, hc, hbal⟩ := hl fun ha => hp (ha.step hi h)
  have hpoison' : .poison ∉ b.hist := fun hb =>
    hp (poisoned_of_hist_step h hi (fun ha => absurd ha hpoison) hb)
  obtain ⟨hlife, hhist⟩ := hc.lives h
  have hc' : Clean b := .of_unpoisoned hp hlife hhist
  exact ⟨hpoison', hc', hbal.step h hi hc hc' hpoison'⟩

end Protocol

section

variable [Usize] {ι : Type} [DecidableEq ι] {s : Sys ι} {x : Ptr} {initial : ℕ}

theorem Reachable.lossless (h : Reachable initial s) :
    ∃ a, Represents s a ∧ a.Lossless initial :=
  kept_of_run (fun _ _ _ _ hr hl hstep => hl.step hr.inv hstep) (.init maxAvailable initial) h

theorem Reachable.ledger_at_rest (h : Reachable initial s) (hq : s.Quiescent)
    (hp : ¬ s.Poisoned) :
    s.sem.acquire.load.permits + s.sem.release.load.permits + s.granted + s.guarded +
      s.ghost.hist.forgotten = initial + s.ghost.hist.given := by
  obtain ⟨a, hr, hl⟩ := h.lossless
  obtain ⟨-, -, S, hS, hsum⟩ := hl (mt (hr.sim.poisoned_iff hr.inv).mpr hp)
  have hledger := hr.sim.ledger hr.inv (T := ∅) hS fun t _ => hq t
  rw [hsum, hr.sim.view.hist, Finset.sum_empty] at hledger
  exact hledger

omit [DecidableEq ι] in
/-- At rest, only the two words can hold poison. -/
theorem Sys.Quiescent.not_poisoned (hq : s.Quiescent) (hacq : ¬ s.sem.acquire.load.Poisoned)
    {r : Permits} (hload : s.sem.release.load = .unlocked r) (hr : r.intoUsize ≠ none) :
    ¬ s.Poisoned := by
  rintro (hp | ⟨p, hp | hp, hp'⟩ | ⟨t, r', ret, pc, hf, -⟩)
  · exact hacq hp
  · rw [ReleaseState.unlocked.inj (hload.symm.trans hp)] at hr
    exact hr hp'
  · cases hload.symm.trans hp
  · have hidle := hq t
    simp [hf, Frame.isIdle] at hidle

/-- While a waiter waits at rest, the permits that are not in use are in the release word. -/
theorem Reachable.spare_at_rest (h : Reachable initial s) (hq : s.Quiescent) (hx : s.Waits x) :
    s.sem.release.load.permits + s.granted + s.guarded + s.ghost.hist.forgotten =
      initial + s.ghost.hist.given := by
  obtain ⟨a, hr⟩ := h.represents
  obtain ⟨hqueued, y, r, n, -, -, hload, hn, -⟩ := (hr.at_rest hq).oldest x hx
  have hacq : ¬ s.sem.acquire.load.Poisoned := by
    rw [hqueued]
    exact id
  have hledger := h.ledger_at_rest hq (hq.not_poisoned hacq hload (by simp [hn]))
  rw [hqueued] at hledger
  simpa [AcquireState.permits] using hledger

/-- In every run, whatever its amounts: unless some place holds poison, the permits in the words,
with the calls in progress, with granted waiters and with guards are those put in and not
forgotten. -/
theorem permits_lost_to_poison_only (h : Reachable initial s) (hp : ¬ s.Poisoned) (T : Finset ι)
    (hT : ∀ t ∉ T, (s.frames t).isIdle = true) :
    s.sem.acquire.load.permits + s.sem.release.load.permits + ∑ t ∈ T, (s.frames t).carried +
        s.granted + s.guarded + s.ghost.hist.forgotten = initial + s.ghost.hist.given := by
  obtain ⟨a, hr, hl⟩ := h.lossless
  obtain ⟨-, -, S, hS, hsum⟩ := hl (mt (hr.sim.poisoned_iff hr.inv).mpr hp)
  rw [hr.sim.ledger hr.inv hS hT, ← hr.sim.view.hist]
  exact hsum

end

section

attribute [local instance] usize64

/-- Together with the permits of a release that has just begun, there are more than `maxAvailable`.
-/
def abundant : Sys Bool :=
  Runs.final Sys.next
    ([.call true (.tryAcquire 5)] ++ Act.steps true 2 ++ [.call false (.release 7)])
    (Sys.init maxAvailable) (by decide +kernel)

theorem permits_lost_to_poison_only_abundant :
    maxAvailable < abundant.sem.acquire.load.permits + ∑ t ∈ {false}, (abundant.frames t).carried ∧
      abundant.sem.acquire.load.permits + abundant.sem.release.load.permits +
          ∑ t ∈ {false}, (abundant.frames t).carried + abundant.granted + abundant.guarded +
          abundant.ghost.hist.forgotten = maxAvailable + abundant.ghost.hist.given := by
  have hunpoisoned : ¬ abundant.Poisoned := by
    rintro (hp | ⟨p, hp | hp, hp'⟩ | ⟨t, r, ret, pc, hf, hr⟩)
    · have hp' : abundant.sem.acquire.load = .available (Permits.new (maxAvailable - 5)) := by
        decide +kernel
      rw [hp'] at hp
      have hsome : (Permits.new (maxAvailable - 5)).intoUsize = some (maxAvailable - 5) := by
        decide +kernel
      cases hsome.symm.trans hp
    · have hload : abundant.sem.release.load = .unlocked (Permits.new 0) := by decide +kernel
      rw [← ReleaseState.unlocked.inj (hload.symm.trans hp)] at hp'
      revert hp'
      decide +kernel
    · have hload : abundant.sem.release.load = .unlocked (Permits.new 0) := by decide +kernel
      cases hload.symm.trans hp
    · cases t with
      | true => cases hf
      | false =>
        obtain ⟨rfl, -, -⟩ := Frame.release.inj hf
        revert hr
        decide +kernel
  exact ⟨by decide +kernel,
    permits_lost_to_poison_only (s := abundant) (Runs.reaches_final _) hunpoisoned {false}
      (by decide +kernel)⟩

end

section

variable [Usize] {ι : Type} [DecidableEq ι] {s : Sys ι} {x : Ptr} {initial : ℕ}

/-- At rest, the oldest waiter asks for more than all permits that are neither with guards, nor
granted, nor forgotten. -/
theorem work_conserving (h : Reachable initial s) (hq : s.Quiescent) (hx : s.Waits x) :
    ∃ y, s.Waits y ∧
      (∀ z, s.Waits z → z ≠ y →
        [s.ghost.uid y, s.ghost.uid z].Sublist (History.arrivals s.ghost.hist)) ∧
      initial + s.ghost.hist.given <
        s.mem.amount y + s.granted + s.guarded + s.ghost.hist.forgotten := by
  obtain ⟨a, hr⟩ := h.represents
  obtain ⟨-, y, r, n, hy, hfirst, hload, hn, hlt⟩ := (hr.at_rest hq).oldest x hx
  have hspare := h.spare_at_rest hq hx
  have hpermits : s.sem.release.load.permits = n := by
    rw [hload, ReleaseState.permits, Permits.count, hn, Tally.count_some]
  exact ⟨y, hy, hfirst, by omega⟩

end

attribute [local instance] usize64

/-- Two permits are left. The oldest waiter asks for three, and the next one for one. -/
def hungry : Sys Bool :=
  Runs.final Sys.next
    ([.call true (.tryAcquire 4)] ++ Act.steps true 2 ++
      [.acquire (usize64.ptr 0) 3, .call false (.poll (usize64.ptr 0))] ++ Act.steps false 20 ++
      [.acquire (usize64.ptr 1) 1, .call true (.poll (usize64.ptr 1))] ++ Act.steps true 20)
    (Sys.init 6) (by decide +kernel)

theorem work_conserving_hungry :
    ∃ y, hungry.Waits y ∧
      (∀ z, hungry.Waits z → z ≠ y → [hungry.ghost.uid y, hungry.ghost.uid z].Sublist
        (History.arrivals hungry.ghost.hist)) ∧
      6 + hungry.ghost.hist.given <
        hungry.mem.amount y + hungry.granted + hungry.guarded + hungry.ghost.hist.forgotten :=
  work_conserving (s := hungry) (x := usize64.ptr 1) (Runs.reaches_final _)
    (fun t => by cases t <;> rfl) ⟨by decide +kernel, by decide +kernel, Or.inl (by decide +kernel)⟩

end WeightedSemaphore
