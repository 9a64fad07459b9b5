import WeightedSemaphore.Lib.Logs
import WeightedSemaphore.Outcomes
import WeightedSemaphore.Solo
import WeightedSemaphore.Losses

/-!
# Concurrent calls refine the queue, served in its own time

Whatever calls overlap, a calm run is a run of the abstract queue: every call performs its operation
at one moment, and waiters are popped, oldest first, at moments in between. At rest nobody is left
who could be popped.
-/

namespace WeightedSemaphore

open Function (update update_self update_of_ne)
open Protocol (Inv HistOk Clean Abstracts Change)
open Fifo (Lender Sight Async AsyncRun seen)

theorem History.mem_outcomes {h : History} {u : ℕ} {p : Bool} :
    (u, p) ∈ History.outcomes h ↔ .finished u p ∈ h := by
  induction h with
  | nil => simp [History.outcomes]
  | cons e h ih => cases e <;> simp [History.outcomes, ih, or_comm]

/-- What is seen of an event. A waiter that enters shows what it asks for. -/
def Event.sight (amount : ℕ → ℕ) : Event → Option (Sight ℕ)
  | .installed u => some (.entered u (amount u))
  | .cancelling u => some (.withdrew u)
  | .finished u p => some (.finished u p)
  | .fastPath n => some (.took n)
  | .forgot n => some (.forgot n)
  | .released n => some (.added n)
  | .poison => some .poisoned
  | .unlinked _ => none
  | .cancelled _ => none

namespace Protocol

variable {ι ω : Type} [DecidableEq ι] [DecidableEq ω] {cap initial : ℕ} {a b : State ι ω}
  {A A' : Fifo ℕ}

omit [DecidableEq ω] in
/-- As long as nothing is poisoned, and within the budget, the counter holds all permits that are
not in use. -/
theorem State.Holds.exact {p : Tally} (hp : a.Holds cap p) (hc : Clean a) (hb : a.Balanced initial)
    (hbud : a.Budget cap initial) : ∃ m, p = some m ∧
      m + a.granted + a.held + History.forgotten a.hist = initial + History.given a.hist := by
  obtain ⟨T, hT, rfl⟩ := hp
  obtain ⟨S, hS, hsum⟩ := hb
  obtain ⟨k, hk⟩ := Option.ne_none_iff_exists'.mp hc.acq
  obtain ⟨l, hl⟩ := Option.ne_none_iff_exists'.mp hc.rel
  obtain ⟨r, hr⟩ := Option.ne_none_iff_exists'.mp hc.ownerPermits
  rw [Sums.sum_support (fun t ht => by rw [hS t ht]; rfl) fun t ht => by rw [hT t ht]; rfl] at hsum
  simp only [State.ledger, hk, hl, hr, Tally.count_some] at hsum
  unfold State.Budget at hbud
  have hroles : Tally.sum cap T (fun t => (a.role t).permits) =
      some (∑ t ∈ T, (a.role t).permits.count) :=
    Tally.sum_of_le (fun t _ => hc.role t) (by omega)
  refine ⟨k + (l + (r + ∑ t ∈ T, (a.role t).permits.count)), ?_, by omega⟩
  rw [State.total, hk, hl, hr, hroles, Tally.add_some_some, Tally.ofNat_of_le (by omega),
    Tally.add_some_some, Tally.ofNat_of_le (by omega), Tally.add_some_some,
    Tally.ofNat_of_le (by omega)]

/-- Permits are taken past the queue only while it is empty. -/
theorem Step.queue_of_fastPath (h : Step cap a b) (hi : Inv a) {n : ℕ}
    (hhist : b.hist = .fastPath n :: a.hist) : a.queue = [] := by
  have hnil {m : Tally} (hacq : a.acq = .available m) : a.queue = [] := by
    rw [queue_of_available hacq]
    exact hi.available.linked_nil m hacq
  cases h with
  | fast n m hacq hn => exact hnil hacq
  | fastPoll x m hacq hx hn => exact hnil hacq
  | _ => simp at hhist

omit [DecidableEq ω] in
theorem Abstracts.fresh (hA : Abstracts cap a A) (hh : HistOk a)
    (hfin : A.finished = History.outcomes a.hist) {x : ω} (hx : a.life x = .entering) :
    A.Fresh (a.uid x) where
  granted := by rw [hA.granted.1 x (by simp [hx]), if_neg (by simp [hx])]
  queue n hmem := by
    rw [hA.queue, State.waiting, List.mem_map] at hmem
    obtain ⟨y, hy, he⟩ := hmem
    have hqueued : a.life y = .queued := by simpa using List.of_mem_filter hy
    obtain rfl := hh.uid_inj y x (by simp [hqueued]) (by simp [hx]) (Prod.mk.inj he).1
    rw [hx] at hqueued
    cases hqueued
  finished p hmem := by
    rw [hfin, History.mem_outcomes] at hmem
    exact hh.given_up x (by simp [hx, Life.Fresh]) (Or.inl ⟨p, hmem⟩)

omit [DecidableEq ω] in
theorem Abstracts.mem_queue (hA : Abstracts cap a A) (hi : Inv a) {x : ω}
    (hx : a.life x = .queued) :
    (a.uid x, a.amount x) ∈ A.queue := by
  rw [hA.queue, State.waiting, List.mem_map]
  exact ⟨x, List.mem_filter.mpr ⟨hi.queue.queued_mem x hx, by simpa using hx⟩, rfl⟩

omit [DecidableEq ι] in
theorem Change.finished (hc : Change cap a b A A') (h : A.finished = History.outcomes a.hist) :
    A'.finished = History.outcomes b.hist := by
  cases hc with
  | silent hhist hlife hrole =>
    rcases hhist with hhist | ⟨e, hhist, he⟩
    · rw [hhist, h]
    · rw [hhist, History.outcomes_silent he, h]
  | grant u n m q hhist hq hm hle => rw [hhist]; exact congrArg (· ++ [(u, false)]) h
  | fail u n q hhist hq hm => rw [hhist]; exact congrArg (· ++ [(u, true)]) h
  | took n p hhist hp => rw [hhist]; exact h
  | enter x hhist hx => rw [hhist, Fifo.finished_apply]; exact h
  | release n hhist => rw [hhist, Fifo.finished_apply]; exact h
  | poison hhist => rw [hhist, Fifo.finished_apply]; exact h
  | dropGuard t n hhist hlife hr hr' => rw [hhist, Fifo.finished_apply]; exact h
  | claim x p hhist hx hlife hrole => rw [hhist, Fifo.finished_apply]; exact h
  | giveBack t x hhist hx hlife hr hr' => rw [hhist, Fifo.finished_apply]; exact h
  | cancel x hhist hx => rw [hhist, Fifo.finished_apply]; exact h

end Protocol

section

variable [Usize] {ι : Type} {s s' : Sys ι} {a b : Protocol.State ι Ptr} {A A' : Fifo ℕ} {x : Ptr}
  {act : Act ι} {initial n : ℕ}

def Sys.amountOf (s : Sys ι) (u : ℕ) : ℕ := ∑ x ∈ s.live with s.ghost.uid x = u, s.mem.amount x

/-- What is seen of an action: the event that it logs, or the permits that come into the hands of
users, leave them, or are granted no more. -/
def Sys.sight (s : Sys ι) (_ : Act ι) (s' : Sys ι) : Option (Sight ℕ) :=
  if s'.ghost.hist ≠ s.ghost.hist then s'.ghost.hist.head?.bind (Event.sight s.amountOf)
  else if s'.guarded < s.guarded then some (.gaveUp (s.guarded - s'.guarded))
  else if s.guarded < s'.guarded then some (.claimed (s'.guarded - s.guarded))
  else if s'.granted < s.granted then some (.gaveBack (s.granted - s'.granted))
  else none

theorem Sys.sight_logged {e : Event} (h : s'.ghost.hist = e :: s.ghost.hist) :
    s.sight act s' = e.sight s.amountOf := by
  rw [sight, if_pos (by simp [h]), h]
  rfl

theorem Sys.sight_gaveUp (hhist : s'.ghost.hist = s.ghost.hist) (h : s'.guarded + n = s.guarded)
    (hg : s'.granted = s.granted) : s.sight act s' = seen n (.gaveUp n) := by
  rw [sight, if_neg (by simp [hhist]), seen]
  have hn : s.guarded - s'.guarded = n := by omega
  split_ifs <;> first | omega | rw [hn] | rfl

theorem Sys.sight_claimed (hhist : s'.ghost.hist = s.ghost.hist) (h : s'.guarded = s.guarded + n)
    (hg : s'.granted + n = s.granted) : s.sight act s' = seen n (.claimed n) := by
  rw [sight, if_neg (by simp [hhist]), seen]
  have hn : s'.guarded - s.guarded = n := by omega
  split_ifs <;> first | omega | rw [hn] | rfl

theorem Sys.sight_gaveBack (hhist : s'.ghost.hist = s.ghost.hist) (h : s'.guarded = s.guarded)
    (hg : s'.granted + n = s.granted) : s.sight act s' = seen n (.gaveBack n) := by
  rw [sight, if_neg (by simp [hhist]), seen]
  have hn : s.granted - s'.granted = n := by omega
  split_ifs <;> first | omega | rw [hn] | rfl

theorem Sys.sight_still (hhist : s'.ghost.hist = s.ghost.hist) (h : s'.guarded = s.guarded)
    (hg : s'.granted = s.granted) : s.sight act s' = none := sight_claimed (n := 0) hhist h hg

theorem View.amountOf (hv : View s a) (hi : Inv a) (hh : HistOk a) (hx : a.life x ≠ .absent) :
    s.amountOf (a.uid x) = a.amount x := by
  have hfilter : {y ∈ s.live | s.ghost.uid y = a.uid x} = {x} := by
    ext y
    rw [Finset.mem_filter, Finset.mem_singleton, ← hv.live, ← hv.uid]
    constructor
    · exact fun hy => hh.uid_inj y x ((hi.live y).mp hy.1) hx hy.2
    · rintro rfl
      exact ⟨(hi.live y).mpr hx, rfl⟩
  rw [Sys.amountOf, hfilter, Finset.sum_singleton, hv.amount]

structure Sys.Shows (initial : ℕ) (s : Sys ι) (A : Lender ℕ) : Prop where
  finished : A.finished = History.outcomes s.ghost.hist
  waiting : ∀ u n, (u, n) ∈ A.queue ↔ ∃ x, s.Waits x ∧ (s.mem.waker x).kind ≠ .cancelling ∧
    s.ghost.uid x = u ∧ s.mem.amount x = n
  oldest_first : (A.queue.map Prod.fst).Sublist (History.arrivals s.ghost.hist)
  granted : ∀ x ∈ s.live,
    A.granted (s.ghost.uid x) = if s.Granted x then some (s.mem.amount x) else none
  held : A.held = s.guarded
  permits : ∃ m, A.permits = some m ∧
    m + s.granted + s.guarded + s.ghost.hist.forgotten = initial + s.ghost.hist.given
  served : s.Quiescent → A.Settled

theorem View.queued_iff (h : View s a) (hl : Local s) :
    a.life x = .queued ↔ s.Waits x ∧ (s.mem.waker x).kind ≠ .cancelling := by
  constructor
  · intro hq
    refine ⟨(h.waits_iff hl).mpr (Or.inl hq), fun hk => ?_⟩
    rw [h.life] at hq
    obtain ⟨-, -, -, hlife⟩ := Sys.lifeOf_reachable hq (by simp)
    rw [hk] at hlife
    cases hlife
  · rintro ⟨hw, hk⟩
    exact ((h.waits_iff hl).mp hw).resolve_right fun hc => hk (h.cancelling hc)

variable [DecidableEq ι]

structure Account (initial : ℕ) (s : Sys ι) (a : Protocol.State ι Ptr) (A : Fifo ℕ) : Prop where
  accounts : Accounts initial s a
  abstracts : Abstracts maxAvailable a A
  finished : A.finished = History.outcomes a.hist

namespace Account

theorem init (h : initial ≤ maxAvailable) :
    Account initial (Sys.init initial : Sys ι) (.init maxAvailable initial)
      (Fifo.init maxAvailable initial) :=
  ⟨.init h, .init maxAvailable initial, rfl⟩

theorem exact (h : Account initial s a A) : ∃ m, A.permits = some m ∧
    m + a.granted + a.held + History.forgotten a.hist = initial + History.given a.hist :=
  h.abstracts.permits.exact h.accounts.clean h.accounts.balanced h.accounts.budget

/-- What a step does to the queue is a move of it, which shows what is seen of the step. -/
theorem async (h : Account initial s a A) (h' : Account initial s' b A')
    (hc : Change maxAvailable a b A A') (hstep : Protocol.Step maxAvailable a b) :
    A' = A ∧ s'.guarded = s.guarded ∧ s.sight act s' = none ∨
      Async maxAvailable ⟨A, s.guarded⟩ (s.sight act s') ⟨A', s'.guarded⟩ := by
  obtain ⟨hr, -⟩ := h.accounts
  have hv := hr.sim.view
  have hv' := h'.accounts.represents.sim.view
  have hi := hr.inv
  have hA := h.abstracts
  obtain ⟨k, hk, hsum⟩ := h.exact
  obtain ⟨k', hk', hsum'⟩ := h'.exact
  have hlogged {e : Event} (hhist : b.hist = e :: a.hist) :
      s.sight act s' = e.sight s.amountOf := by
    rw [hv.hist, hv'.hist] at hhist
    exact Sys.sight_logged hhist
  have hunlogged (hhist : b.hist = a.hist) : s'.ghost.hist = s.ghost.hist := by
    rwa [hv.hist, hv'.hist] at hhist
  have hheld : a.held = s.guarded := hv.held
  have hheld' : b.held = s'.guarded := hv'.held
  have hcount : a.granted = s.granted := hv.granted
  have hcount' : b.granted = s'.granted := hv'.granted
  rw [← hheld, ← hheld']
  have hgranted := hA.granted.1
  cases hc with
  | silent hhist hlife hrole hkept =>
    rcases hhist with hhist | ⟨e, hhist, he⟩
    · obtain rfl : k = k' := Option.some.inj (hk.symm.trans hk')
      rw [hhist] at hkept hsum'
      have hsame : b.held = a.held := by omega
      exact Or.inl ⟨rfl, hsame, Sys.sight_still (hunlogged hhist) (by omega) (by omega)⟩
    · rw [hlogged hhist]
      rw [hhist] at hkept
      cases e with
      | unlinked u => exact Or.inl ⟨rfl, Nat.add_right_cancel hkept, rfl⟩
      | cancelled u => exact Or.inl ⟨rfl, Nat.add_right_cancel hkept, rfl⟩
      | forgot n =>
        simp only [History.forgotten] at hkept
        obtain ⟨hle, hleft⟩ : n ≤ a.held ∧ b.held = a.held - n := by omega
        rw [hleft]
        exact Or.inr (.forget n hle)
      | _ => exact he.elim
  | grant u n m q hhist hq hm hle hsame =>
    rw [hlogged hhist, hsame]
    exact Or.inr (.grant u n m q hq hm hle)
  | fail u n q hhist hq hm => cases hk.symm.trans hm
  | took n p hhist hp htaken =>
    obtain ⟨rfl, hn⟩ := hp k hk
    have hq : A.queue = [] := by
      rw [hA.queue, Protocol.State.waiting, hstep.queue_of_fastPath hi hhist]
      rfl
    have htake : Async maxAvailable ⟨A, a.held⟩ (some (.took n))
        ⟨A.apply maxAvailable (.take n), a.held + n⟩ := .take n k hq hk hn
    simp only [Fifo.apply, hk, Option.map_some] at htake
    rw [hlogged hhist, htaken]
    exact Or.inr htake
  | enter x hhist hx hsame =>
    rw [hlogged hhist, hsame, Event.sight, hv.amountOf hi hr.hist (by simp [hx])]
    exact Or.inr (.enter _ _ (hA.fresh hr.hist h.finished hx))
  | release n hhist hsame =>
    rw [hlogged hhist, hsame]
    exact Or.inr (.release n)
  | @poison n hhist hlost =>
    obtain ⟨hle, hleft⟩ : n ≤ a.held ∧ b.held = a.held - n := by omega
    rw [hlogged hhist, hleft]
    exact Or.inr (.poison n hle)
  | dropGuard t n hhist hlife hr hr' hlost =>
    obtain ⟨hle, hleft⟩ : n ≤ a.held ∧ b.held = a.held - n := by omega
    simp only [Fifo.apply, hk] at hk'
    obtain rfl := Tally.eq_of_add_ofNat hk'
    rw [hhist] at hsum'
    rw [Sys.sight_gaveUp (n := n) (hunlogged hhist) (by omega) (by omega), hleft]
    exact Or.inr (.giveUp n hle)
  | claim x p hhist hx hlife hrole htaken =>
    obtain rfl : p = false := by
      cases p with
      | false => rfl
      | true => exact absurd hx (h.accounts.clean.life x)
    simp only [Bool.false_eq_true, if_false] at htaken
    obtain rfl : k = k' := Option.some.inj (hk.symm.trans hk')
    rw [hhist] at hsum'
    rw [Sys.sight_claimed (hunlogged hhist) (n := a.amount x) (by omega) (by omega), htaken]
    have hg := hgranted x (by simp [hx])
    rw [if_pos hx] at hg
    exact Or.inr (.claim _ _ hg)
  | giveBack t x hhist hx hlife hr hr' hsame =>
    have hg := hgranted x (by simp [hx])
    rw [if_pos hx] at hg
    simp only [Fifo.apply, hg, hk] at hk'
    obtain rfl := Tally.eq_of_add_ofNat hk'
    rw [hhist] at hsum'
    rw [Sys.sight_gaveBack (n := a.amount x) (hunlogged hhist) (by omega) (by omega), hsame]
    exact Or.inr (.giveBack _ _ hg)
  | cancel x hhist hx hsame =>
    have hg := hgranted x (by simp [hx])
    rw [if_neg (by simp [hx])] at hg
    rw [hlogged hhist, hsame]
    exact Or.inr (.withdraw _ _ (hA.mem_queue hi hx) hg)

theorem next (h : Account initial s a A) (hn : s.next act = some s') (hcalm : s'.Calm initial) :
    ∃ b A', Account initial s' b A' ∧
      (A' = A ∧ s'.guarded = s.guarded ∧ s.sight act s' = none ∨
        Async maxAvailable ⟨A, s.guarded⟩ (s.sight act s') ⟨A', s'.guarded⟩) := by
  obtain ⟨m, hm, -⟩ := h.exact
  have hr := h.accounts.represents
  have hv := hr.sim.view
  obtain ⟨b, hb, rfl | hstep⟩ := h.accounts.next hn hcalm
  · have hv' := hb.represents.sim.view
    have hheld : s'.guarded = s.guarded := hv'.held.symm.trans hv.held
    have hcount : s'.granted = s.granted := hv'.granted.symm.trans hv.granted
    exact ⟨b, A, ⟨hb, h.abstracts, h.finished⟩,
      Or.inl ⟨rfl, hheld, Sys.sight_still (hv'.hist.symm.trans hv.hist) hheld hcount⟩⟩
  · obtain ⟨A', hchange, hA'⟩ := h.abstracts.step hstep hr.inv hr.hist
      fun _ _ _ _ _ _ => by simp [hm]
    have h' : Account initial s' b A' := ⟨hb, hA', hchange.finished h.finished⟩
    exact ⟨b, A', h', h.async h' hchange hstep⟩

theorem shows (h : Account initial s a A) : s.Shows initial ⟨A, s.guarded⟩ := by
  obtain ⟨m, hm, hsum⟩ := h.exact
  obtain ⟨⟨hr, -⟩, hA, hfin⟩ := h
  have hv := hr.sim.view
  have hqueue := hA.queue
  unfold Protocol.State.waiting at hqueue
  constructor
  case finished => rw [← hv.hist]; exact hfin
  case held => rfl
  case waiting =>
    intro u n
    change (u, n) ∈ A.queue ↔ _
    rw [hqueue, ← hv.uid, ← hv.amount, List.mem_map]
    constructor
    · rintro ⟨x, hx, he⟩
      obtain ⟨rfl, rfl⟩ := Prod.mk.inj he
      have hq : a.life x = .queued := by simpa using List.of_mem_filter hx
      obtain ⟨hw, hk⟩ := (hv.queued_iff hr.sim.loc).mp hq
      exact ⟨x, hw, hk, rfl, rfl⟩
    · rintro ⟨x, hw, hk, rfl, rfl⟩
      have hq := (hv.queued_iff hr.sim.loc).mpr ⟨hw, hk⟩
      exact ⟨x, List.mem_filter.mpr ⟨hr.inv.queue.queued_mem x hq, by simpa using hq⟩, rfl⟩
  case oldest_first =>
    have hsub : (A.queue.map Prod.fst).Sublist (a.queue.map a.uid) := by
      rw [hqueue, List.map_map]
      exact List.filter_sublist.map _
    rw [← hr.hist.pending, hv.hist] at hsub
    exact hsub.trans (History.pending_sublist _)
  case granted =>
    intro x hx
    have hlife : a.life x ≠ .absent := (hr.inv.live x).mp (by rwa [hv.live])
    change A.granted _ = _
    rw [← hv.uid, hA.granted.1 x hlife, hv.amount]
    simp only [hv.granted_iff hx]
  case permits =>
    rw [hv.granted, hv.held, hv.hist] at hsum
    exact ⟨m, hm, hsum⟩
  case served =>
    intro hq
    exact hr.settled hA (hr.sim.owner_of_quiescent hq) fun t =>
      (hv.role t).trans (Frame.role_idle (hq t))

end Account

/-- Whatever calls overlap in a calm run, what is seen of its actions is what can be seen of the
queue that is served in its own time, and the state shows the one that the queue is in: those that
wait are the requests of the queue, its users hold the permits that guards have, and its counter
holds those that are not in use. At rest, the oldest request has to wait. -/
theorem concurrent_refines (hinit : initial ≤ maxAvailable) {w : List (Sight ℕ)}
    (h : Runs.Steps (Runs.logged Sys.next Sys.sight)
      (fun p act => ∀ s', p.1.next act = some s' → s'.Calm initial) (Sys.init initial, []) (s, w)) :
    ∃ A, AsyncRun maxAvailable (Lender.init maxAvailable initial) w A ∧ s.Shows initial A := by
  obtain ⟨a, A, ha, hrun⟩ := h.invariant
    (I := fun p => ∃ a A, Account initial p.1 a A ∧
      AsyncRun maxAvailable (Lender.init maxAvailable initial) p.2 ⟨A, p.1.guarded⟩)
    (fun p act p' ⟨a, A, ha, hrun⟩ hcalm hn => by
      obtain ⟨hn, hw⟩ := Runs.logged_eq_some.mp hn
      obtain ⟨b, A', hb, ⟨rfl, hheld, hsight⟩ | hmove⟩ := ha.next hn (hcalm _ hn)
      · exact ⟨b, A', hb, by rw [hw, hsight, hheld]; exact hrun⟩
      · exact ⟨b, A', hb, hw ▸ hrun.tail hmove⟩) ⟨_, _, .init hinit, .refl⟩
  exact ⟨_, hrun, ha.shows⟩

end

attribute [local instance] usize64

/-- Of two releases that overlap, the second defers to the first, which then grants the waiter. Its
guard is dropped, an earlier one is forgotten, and the next waiter asks for more than there is. -/
def overlappingSchedule : List (Act Bool) :=
  [.call false (.tryAcquire 1)] ++ Act.steps false 2 ++
    [.acquire (usize64.ptr 0) 5, .call false (.poll (usize64.ptr 0))] ++ Act.steps false 20 ++
    [.call true (.release 3)] ++ Act.steps true 3 ++ [.call false (.release 3)] ++
    Act.steps false 2 ++ Act.steps true 20 ++ [.call false (.poll (usize64.ptr 0))] ++
    Act.steps false 2 ++ [.forget 1, .call true (.dropGuard 0)] ++ Act.steps true 9 ++
    [.acquire (usize64.ptr 1) 9, .call true (.poll (usize64.ptr 1))] ++ Act.steps true 20

def overlapping : Sys Bool × List (Sight ℕ) :=
  Runs.final (Runs.logged Sys.next Sys.sight) overlappingSchedule (Sys.init 1, [])
    (by decide +kernel)

theorem concurrent_refines_overlapping :
    overlapping.2 = [.entered 1 9, .gaveUp 5, .forgot 1, .claimed 5, .finished 0 false, .added 3,
        .added 3, .entered 0 5, .took 1] ∧
      ∃ A, AsyncRun maxAvailable (Lender.init maxAvailable 1) overlapping.2 A ∧
        overlapping.1.Shows 1 A ∧ A.Settled := by
  have hrun : Runs.exec (Runs.logged Sys.next Sys.sight) overlappingSchedule (Sys.init 1, []) =
      some overlapping := Runs.exec_final _
  have hcalm : Runs.checks (Runs.logged Sys.next Sys.sight) (fun p => decide (p.1.Calm 1))
      overlappingSchedule (Sys.init 1, []) = true := by decide +kernel
  have hsteps : Runs.Steps (Runs.logged Sys.next Sys.sight)
      (fun p act => ∀ s', p.1.next act = some s' → s'.Calm 1) (Sys.init 1, [])
      (overlapping.1, overlapping.2) :=
    (Runs.steps_of_checks hrun hcalm).mono fun p act hok s' hn =>
      of_decide_eq_true (hok _ (Runs.logged_eq_some.mpr ⟨hn, rfl⟩))
  obtain ⟨A, hA, hshows⟩ := concurrent_refines (by decide +kernel) hsteps
  have hquiet : overlapping.1.Quiescent := fun t => by cases t <;> rfl
  exact ⟨by decide +kernel, A, hA, hshows, hshows.served hquiet⟩

end WeightedSemaphore
