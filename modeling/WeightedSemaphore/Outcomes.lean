import WeightedSemaphore.ProtocolQueue
import WeightedSemaphore.Quiescence

/-!
# What the waiters of a run come to

The outcomes of a history are its finished waiters in order. Every step of `release` either pops the
head of the queue that the state stands for, or leaves that queue and the permits in sight of it as
they are; and at rest nothing is left to be popped.
-/

namespace WeightedSemaphore

open Function (update update_self update_of_ne)
open Protocol (Inv HistOk Abstracts Change)
open AtomicWaker (FinishPc AcceptCancelPc)
open Links

namespace History

variable {h : History} {e : Event}

def outcomes : History → List (ℕ × Bool)
  | [] => []
  | .finished u p :: h => outcomes h ++ [(u, p)]
  | _ :: h => outcomes h

theorem outcomes_cons (he : ∀ u p, e ≠ .finished u p) : outcomes (e :: h) = outcomes h := by
  cases e with
  | finished u p => exact absurd rfl (he u p)
  | _ => rfl

theorem outcomes_silent (he : e.Silent) : outcomes (e :: h) = outcomes h :=
  outcomes_cons fun u p hep => by rw [hep] at he; exact he

end History

section

variable [Usize] {ι : Type}

/-- A step by which no future is claimed: it may log that a waiter finished, left the queue or was
given up. -/
structure Sys.During (s s' : Sys ι) : Prop where
  done : ∀ x p, s.lifeOf x = .finished p → s'.lifeOf x ≠ .done
  hist : s'.ghost.hist = s.ghost.hist ∨
    ∃ e, s'.ghost.hist = e :: s.ghost.hist ∧ (e.Silent ∨ ∃ u p, e = .finished u p)

structure Sys.Inside (s s' : Sys ι) : Prop extends s.During s' where
  live : s'.live = s.live
  amount : s'.mem.amount = s.mem.amount
  uid : s'.ghost.uid = s.ghost.uid

namespace Sys

variable {s s' : Sys ι}

/-- A future is claimed only in its own fields. -/
theorem not_done (hstep : s'.mem.step = s.mem.step) (hclaim : s'.ghost.claimed = s.ghost.claimed)
    (x : Ptr) (p : Bool) (hx : s.lifeOf x = .finished p) : s'.lifeOf x ≠ .done := by
  intro hx'
  obtain ⟨-, hst, hcl, -⟩ := lifeOf_reachable hx (by simp)
  by_cases hl : x ∈ s'.live
  · rw [lifeOf_waiting hl (by rw [hstep, hst]) (by rw [hclaim, hcl])] at hx'
    cases hk : (s'.mem.waker x).kind <;> simp [hk, Waker.Kind.life] at hx'
  · rw [lifeOf_absent hl] at hx'
    cases hx'

theorem During.same (hstep : s'.mem.step = s.mem.step) (hclaim : s'.ghost.claimed = s.ghost.claimed)
    (hhist : s'.ghost.hist = s.ghost.hist) : During s s' := ⟨not_done hstep hclaim, Or.inl hhist⟩

theorem During.silent {e : Event} (hstep : s'.mem.step = s.mem.step)
    (hclaim : s'.ghost.claimed = s.ghost.claimed) (hhist : s'.ghost.hist = e :: s.ghost.hist)
    (he : e.Silent) : During s s' := ⟨not_done hstep hclaim, Or.inr ⟨e, hhist, Or.inl he⟩⟩

theorem During.finished {u : ℕ} {p : Bool} (hstep : s'.mem.step = s.mem.step)
    (hclaim : s'.ghost.claimed = s.ghost.claimed)
    (hhist : s'.ghost.hist = .finished u p :: s.ghost.hist) : During s s' :=
  ⟨not_done hstep hclaim, Or.inr ⟨_, hhist, Or.inr ⟨u, p, rfl⟩⟩⟩

end Sys

variable [DecidableEq ι] {s s' : Sys ι} {t : ι} {spurious : Bool} {r : Permits} {ret : Cont}

theorem afterRelease_inside (s : Sys ι) (t : ι) (ret : Cont) : s.Inside (s.afterRelease t ret) := by
  cases ret <;> exact ⟨.same rfl rfl rfl, rfl, rfl, rfl⟩

theorem release_inside (s : Sys ι) (t : ι) (r : Permits) (ret : Cont) (spurious : Bool)
    (pc : ReleasePc ι) : s.Inside (s.release t r ret spurious pc) := by
  cases pc with
  | lock current =>
    simp only [Sys.release, Sys.lockOrElseDefer]
    cases current <;> dsimp only <;> split
    all_goals first
      | exact ⟨.same rfl rfl rfl, rfl, rfl, rfl⟩
      | exact { afterRelease_inside _ t ret with }
  | flip nextCancel current =>
    simp only [Sys.release, Sys.flip]
    cases current with
    | queued back =>
      dsimp only
      split_ifs
      · split <;> exact ⟨.same rfl rfl rfl, rfl, rfl, rfl⟩
      · exact ⟨.same rfl rfl rfl, rfl, rfl, rfl⟩
      · split <;> exact ⟨.same rfl rfl rfl, rfl, rfl, rfl⟩
    | available q =>
      dsimp only
      split
      · split_ifs <;> exact ⟨.same rfl rfl rfl, rfl, rfl, rfl⟩
      · exact ⟨.same rfl rfl rfl, rfl, rfl, rfl⟩
  | walk nextCancel back waiter =>
    simp only [Sys.release, Sys.walk]
    split_ifs <;> exact ⟨.same rfl rfl rfl, rfl, rfl, rfl⟩
  | cancel nextCancel =>
    simp only [Sys.release, Sys.cancel]
    split_ifs
    · exact ⟨.same rfl rfl rfl, rfl, rfl, rfl⟩
    all_goals exact ⟨.silent rfl rfl rfl trivial, rfl, rfl, rfl⟩
  | accept waker nextCancel pc =>
    simp only [Sys.release, Sys.accept]
    split
    · exact ⟨.silent rfl rfl rfl trivial, rfl, rfl, rfl⟩
    all_goals exact ⟨.same rfl rfl rfl, rfl, rfl, rfl⟩
  | tryPop =>
    simp only [Sys.release, Sys.tryPop]
    split_ifs
    · exact ⟨.same rfl rfl rfl, rfl, rfl, rfl⟩
    · split
      · split_ifs <;> exact ⟨.same rfl rfl rfl, rfl, rfl, rfl⟩
      · exact ⟨.same rfl rfl rfl, rfl, rfl, rfl⟩
  | finish pop pc =>
    simp only [Sys.release, Sys.finish]
    split
    · exact ⟨.same rfl rfl rfl, rfl, rfl, rfl⟩
    · exact ⟨.same rfl rfl rfl, rfl, rfl, rfl⟩
    · exact ⟨.same rfl rfl rfl, rfl, rfl, rfl⟩
    · exact ⟨.finished rfl rfl rfl, rfl, rfl, rfl⟩
    · exact ⟨.finished rfl rfl rfl, rfl, rfl, rfl⟩
    · exact ⟨.same rfl rfl rfl, rfl, rfl, rfl⟩
  | unlock current =>
    simp only [Sys.release, Sys.tryUnlock]
    cases current with
    | unlocked q => exact ⟨.same rfl rfl rfl, rfl, rfl, rfl⟩
    | locked =>
      dsimp only
      split
      · exact { afterRelease_inside _ t ret with }
      · exact ⟨.same rfl rfl rfl, rfl, rfl, rfl⟩
    | lockedDirty q => dsimp only; split <;> exact ⟨.same rfl rfl rfl, rfl, rfl, rfl⟩
  | _ => exact ⟨.same rfl rfl rfl, rfl, rfl, rfl⟩

variable {a b : Protocol.State ι Ptr} {A A' : Fifo ℕ} {cap : ℕ}

omit [DecidableEq ι] in
/-- Such a step serves the queue, if it does anything to it. -/
theorem Protocol.Change.during (hc : Change cap a b A A') (hv : View s a) (hv' : View s' b)
    (hw : s.During s')
    (hrole : ∀ t, (s.frames t).role = .quiet → (s'.frames t).role = .quiet) :
    A'.serve = A.serve ∧ (∃ os, A'.finished = A.finished ++ os ∧
      History.outcomes b.hist = History.outcomes a.hist ++ os) ∧
      ∀ m, A.permits = some m → ∃ m' ≤ m, A'.permits = some m' := by
  have hnot : ∀ {e : Event}, b.hist = e :: a.hist → e.Silent ∨ ∃ u p, e = .finished u p := by
    intro e he
    rw [hv.hist, hv'.hist] at he
    rcases hw.hist with hh | ⟨e', hh, he'⟩
    · rw [hh] at he
      exact absurd he.symm (List.cons_ne_self e _)
    · rw [hh] at he
      obtain ⟨rfl, -⟩ := List.cons.inj he
      exact he'
  have hdone : ∀ x p, a.life x = .finished p → b.life x ≠ .done := by
    intro x p hx
    rw [hv.life] at hx
    rw [hv'.life]
    exact hw.done x p hx
  have hquiet : ∀ t p k, a.role t = .quiet → b.role t ≠ .releasing p k := by
    intro t p k ht hp
    rw [hv.role] at ht
    rw [hv'.role, hrole t ht] at hp
    cases hp
  cases hc with
  | silent hhist =>
    refine ⟨rfl, ⟨[], (List.append_nil _).symm, ?_⟩, fun m hm => ⟨m, le_refl m, hm⟩⟩
    rw [List.append_nil]
    rcases hhist with hh | ⟨e, hh, he⟩
    · rw [hh]
    · rw [hh, History.outcomes_silent he]
  | grant u n m q hhist hq hm hle =>
    refine ⟨(Fifo.serve_grant hq hm hle).symm, ⟨[(u, false)], rfl, ?_⟩, fun k hk => ?_⟩
    · rw [hhist]
      rfl
    · obtain rfl := Option.some.inj (hm.symm.trans hk)
      exact ⟨m - n, Nat.sub_le m n, rfl⟩
  | fail u n q hhist hq hm =>
    refine ⟨(Fifo.serve_fail hq hm).symm, ⟨[(u, true)], rfl, ?_⟩, fun k hk => ?_⟩
    · rw [hhist]
      rfl
    · cases hm.symm.trans hk
  | took n p hhist => simpa [Event.Silent] using hnot hhist
  | enter x hhist => simpa [Event.Silent] using hnot hhist
  | release n hhist => simpa [Event.Silent] using hnot hhist
  | poison hhist => simpa [Event.Silent] using hnot hhist
  | cancel x hhist => simpa [Event.Silent] using hnot hhist
  | dropGuard t n hhist hlife hr hr' => exact absurd hr' (hquiet t _ _ hr)
  | claim x p hhist hx hlife => exact absurd (by rw [hlife, update_self]) (hdone x p hx)
  | giveBack t x hhist hx hlife => exact absurd (by rw [hlife, update_self]) (hdone x false hx)

end

namespace Protocol

variable {ι ω : Type} [DecidableEq ι] {a : State ι ω} {A : Fifo ℕ} {cap : ℕ} {p : Tally}

/-- While no thread owes anything, the permits are in the two words. -/
theorem State.holds_at_rest (cap : ℕ) (ho : a.owner = none) (hr : ∀ t, a.role t = .quiet) :
    a.Holds cap (Tally.add cap a.acq.permits (Tally.add cap a.rel.permits (some 0))) := by
  refine ⟨∅, fun t _ => by rw [hr]; rfl, ?_⟩
  simp only [State.total, State.ownerPermits, ho, Tally.sum_empty, Tally.add_zero_add]

omit [DecidableEq ι] in
theorem Inv.waiting_at_rest (hi : Inv a) (ho : a.owner = none) (hr : ∀ t, a.role t = .quiet) :
    a.queue = a.linked ∧ a.waiting = a.linked.map fun x => (a.uid x, a.amount x) := by
  obtain ⟨hpush, -, hqueued, -⟩ := hi.at_rest ho hr
  have hq : a.queue = a.linked := by simp [State.queue, hpush]
  refine ⟨hq, ?_⟩
  unfold State.waiting
  rw [hq, List.filter_eq_self.mpr fun x hx => by simpa using hqueued x hx]

/-- While no thread owes anything, nobody is left to be served. -/
theorem Abstracts.settled (hA : Abstracts cap a A) (hi : Inv a) (ho : a.owner = none)
    (hr : ∀ t, a.role t = .quiet) (hcap : ∀ n, a.rel = .unlocked (some n) → n ≤ cap) :
    A.Settled := by
  intro u n q hq
  obtain ⟨-, -, -, r, hrel, hblocked⟩ := hi.at_rest ho hr
  rw [hA.queue, (hi.waiting_at_rest ho hr).2] at hq
  obtain ⟨x, l, hl, hx, -⟩ := List.map_eq_cons_iff.mp hq
  obtain ⟨m, rfl, hlt⟩ := hblocked x l hl
  have hacq : a.acq.permits = some 0 := by
    cases hacq : a.acq with
    | available p =>
      rw [hi.available.linked_nil p hacq] at hl
      cases hl
    | queued pushed => rfl
  obtain ⟨-, rfl⟩ := Prod.mk.inj hx
  refine ⟨m, ?_, hlt⟩
  rw [hA.permits.unique (State.holds_at_rest cap ho hr), hacq, hrel, Tally.zero_add_add]
  refine Tally.add_zero fun k hk => ?_
  obtain rfl := Option.some.inj hk
  exact hcap _ hrel

end Protocol

section Words

variable [Usize] {ι : Type}

def AcquireState.tally : AcquireState → Tally
  | available p => p.intoUsize
  | queued _ => some 0

def ReleaseState.tally : ReleaseState → Tally
  | unlocked p => p.intoUsize
  | locked => some 0
  | lockedDirty p => p.intoUsize

def Sys.tally (s : Sys ι) : Tally :=
  Tally.add maxAvailable s.sem.acquire.load.tally s.sem.release.load.tally

variable {s : Sys ι} {a : Protocol.State ι Ptr}

theorem Words.acq_tally (h : Words s.sem s.mem a) :
    a.acq.permits = s.sem.acquire.load.tally := by
  have hacq := h.acq
  cases hload : s.sem.acquire.load with
  | available p => rw [h.acq_available hload]; rfl
  | queued back =>
    rw [hload] at hacq
    obtain ⟨pushed, hpushed, -⟩ := hacq
    rw [hpushed]
    rfl

theorem Words.rel_tally (h : Words s.sem s.mem a) :
    a.rel.permits = s.sem.release.load.tally := by
  rw [h.rel]
  cases s.sem.release.load <;> rfl

theorem ReleaseState.tally_le (w : ReleaseState) {n : ℕ} (h : w.tally = some n) :
    n ≤ maxAvailable := by
  cases w with
  | unlocked p => exact (Permits.intoUsize_eq_some.mp h).2
  | locked =>
    obtain rfl := Option.some.inj h
    exact Nat.zero_le _
  | lockedDirty p => exact (Permits.intoUsize_eq_some.mp h).2

variable [DecidableEq ι] {A : Fifo ℕ}

theorem Represents.holds_tally (hr : Represents s a) (ho : a.owner = none)
    (hrole : ∀ t, a.role t = .quiet) : a.Holds maxAvailable s.tally := by
  have hrest := Protocol.State.holds_at_rest maxAvailable ho hrole
  rwa [hr.sim.words.acq_tally, hr.sim.words.rel_tally,
    Tally.add_zero fun n hn => ReleaseState.tally_le _ hn] at hrest

theorem Represents.tally (hr : Represents s a) (hA : Abstracts maxAvailable a A)
    (ho : a.owner = none) (hrole : ∀ t, a.role t = .quiet) : A.permits = s.tally :=
  hA.permits.unique (hr.holds_tally ho hrole)

theorem Represents.settled (hr : Represents s a) (hA : Abstracts maxAvailable a A)
    (ho : a.owner = none) (hrole : ∀ t, a.role t = .quiet) : A.Settled := by
  refine hA.settled hr.inv ho hrole fun n hn => ?_
  refine ReleaseState.tally_le s.sem.release.load ?_
  rw [← hr.sim.words.rel_tally, hn]
  rfl

theorem Represents.linked (hr : Represents s a) (hA : Abstracts maxAvailable a A)
    (ho : a.owner = none) (hrole : ∀ t, a.role t = .quiet) :
    Path null s.mem.next s.sem.front a.linked ∧
      A.queue = a.linked.map fun x => (s.ghost.uid x, s.mem.amount x) := by
  have hlink := hr.sim.pass.free ho
  refine ⟨?_, ?_⟩
  · rw [hlink.front_eq]
    exact hlink.seg.path_next (hr.sim.ne_null hr.inv)
  · rw [hA.queue, (hr.inv.waiting_at_rest ho hrole).2, hr.sim.view.uid, hr.sim.view.amount]

omit [DecidableEq ι] in
theorem Represents.waits_iff (hr : Represents s a) (ho : a.owner = none)
    (hrole : ∀ t, a.role t = .quiet) (x : Ptr) : s.Waits x ↔ x ∈ a.linked := by
  rw [hr.sim.view.waits_iff hr.sim.loc, ← (hr.inv.waiting_at_rest ho hrole).1]
  constructor
  · rintro (hx | hx)
    · exact hr.inv.queue.queued_mem x hx
    · obtain ⟨t, ht⟩ := hr.inv.holds.held x hx
      simp [hrole t, Protocol.Role.holds] at ht
  · exact hr.inv.queue.life_mem x

end Words

end WeightedSemaphore
