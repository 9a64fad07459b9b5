import WeightedSemaphore.Lib.Ranking
import WeightedSemaphore.Quiescence
import WeightedSemaphore.Reentrancy
import WeightedSemaphore.StepsToExchange

/-!
# No run goes on without new calls

Four counts of the calls in progress show that every schedule of the threads comes to an end: the
exchanges that are left, the steps outside of `release` up to an exchange that must succeed, the
steps inside of `release` up to the next exchange, and the steps of `wait_cancel` up to parking. A
step lowers one of them and raises only those after it.
-/

namespace WeightedSemaphore

open Function (update update_self update_of_ne)
open AtomicWaker (WaitCancelPc)

section

variable [Usize] {ι : Type}

def Frame.stepsToPark (token : Bool) : Frame ι → ℕ
  | dropFuture _ (.waitCancel .load) => if token then 4 else 2
  | dropFuture _ (.waitCancel .park) => if token then 3 else 1
  | _ => 0

noncomputable def Sys.counts (T : Finset ι) : ℕ → Sys ι → ℕ
  | 0, s => ∑ t ∈ T, (s.frames t).exchanges + s.held.exchanges + s.wakerExchanges
  | 1, s => ∑ t ∈ T, (s.frames t).left s
  | 2, s => ∑ t ∈ T, (s.frames t).stepsToExchange s
  | _, s => ∑ t ∈ T, (s.frames t).stepsToPark (s.parkToken t)

def Sys.IdleOutside (T : Finset ι) (s : Sys ι) : Prop := ∀ t ∉ T, (s.frames t).isIdle = true

variable [DecidableEq ι] {s s' : Sys ι} {t u : ι} {T : Finset ι} {f : Frame ι}
  {a : Protocol.State ι Ptr} {initial : ℕ}

namespace Sys

omit [DecidableEq ι] in
theorem KeepsWords.left_other (hs : Sim s a) (h : s.KeepsWords t s') (hu : u ≠ t)
    (hf : s.frames u = f) : f.left s' = f.left s := by
  have hwaker : ∀ x, f.uses = some x → s'.mem.waker x = s.mem.waker x := by
    intro x hx
    obtain ⟨-, huser⟩ := hs.borrowed hf hx
    refine h.waker x fun ht => hu ?_
    exact Option.some.inj (huser.symm.trans ((hs.loc.users t x).mp ht))
  cases f with
  | tryAcquire n pc => simp only [Frame.left, h.acquire]
  | pollEnter x pc => simp only [Frame.left, h.acquire, hwaker x rfl]
  | pollWaiting x tok pc => simp only [Frame.left, hwaker x rfl]
  | dropFuture x pc => simp only [Frame.left, h.nextCancel, hwaker x rfl]
  | _ => rfl

theorem step_waitCancel {x : Ptr} {pc : WaitCancelPc}
    (hf : s.frames t = .dropFuture x (.waitCancel pc)) (hr : Represents s a)
    (hn : s.step t false = some s') (hkeeps : s.KeepsWords t s') :
    s'.sem = s.sem ∧ s'.mem = s.mem ∧ (∀ u, u ≠ t → s'.parkToken u = s.parkToken u) ∧
      (s'.frames t).left s' = 0 ∧ (s'.frames t).stepsToExchange s' = 0 ∧
      (s'.frames t).stepsToPark (s'.parkToken t) < (s.frames t).stepsToPark (s.parkToken t) := by
  have hexch := hkeeps.exchanges
  obtain ⟨-, hkind⟩ := hr.sim.frame_ok hf
  simp only [step, hf] at hn
  cases pc with
  | load =>
    simp only [dropFuture] at hn
    rcases hkind with hkind | hkind
    · rw [AtomicWaker.waitCancel_cancelling hkind] at hn
      obtain rfl := Option.some.inj hn
      refine ⟨rfl, runWaker_eq rfl, fun u _ => rfl, ?_⟩
      simp only [goto, runWaker, update_self, hf]
      refine ⟨rfl, rfl, ?_⟩
      simp only [Frame.stepsToPark]
      split <;> omega
    · rw [AtomicWaker.waitCancel_cancelled hkind] at hn
      obtain rfl := Option.some.inj hn
      simp [goto, hf, Frame.exchanges, DropPc.exchanges] at hexch
  | park =>
    simp only [dropFuture, Bool.or_false] at hn
    split_ifs at hn with htoken
    obtain rfl := Option.some.inj hn
    refine ⟨rfl, rfl, fun u hu => update_of_ne hu _ _, ?_⟩
    simp only [goto, update_self, hf]
    refine ⟨rfl, rfl, ?_⟩
    simp [Frame.stepsToPark, htoken]

/-- Dropping the waiter ends the call. -/
theorem not_keepsWords_waker {x : Ptr} (hr : Represents s a)
    (hf : s.frames t = .dropFuture x .waker)
    (hn : s.step t false = some s') : ¬ s.KeepsWords t s' := by
  intro hkeeps
  have hexch := hkeeps.exchanges
  obtain ⟨-, hflow⟩ := (s.mem.waker x).drop_spec (s.panicking t) (hr.sim.frame_ok hf).1
  simp only [step, hf, dropFuture, hflow] at hn
  obtain rfl := Option.some.inj hn
  simp [goto, hf, Frame.exchanges, DropPc.exchanges] at hexch

/-- Every step of a thread lowers a count. -/
theorem step_descends (h : Reachable initial s) (hT : s.IdleOutside T)
    (hn : s.next (.step t false) = some s') :
    s'.IdleOutside T ∧ Runs.Descends (counts T) 4 s s' := by
  have hstep : s.step t false = some s' := hn
  obtain ⟨a, hr⟩ := h.represents
  obtain ⟨f', hframes⟩ := step_frames hstep
  have hne : ∀ u, u ≠ t → s'.frames u = s.frames u := fun u hu => by rw [hframes, update_of_ne hu]
  have ht : t ∈ T := by
    by_contra ht
    have hidle := hT t ht
    cases hf : s.frames t with
    | idle ret => simp [step, hf] at hstep
    | _ => simp [hf, Frame.isIdle] at hidle
  refine ⟨fun u hu => ?_, ?_⟩
  · rw [hne u (fun he => hu (he ▸ ht))]
    exact hT u hu
  rcases step_spends hr hstep with hspends | ⟨hkeeps, hwakers⟩
  · refine ⟨0, by omega, ?_, fun j hj => absurd hj (Nat.not_lt_zero j)⟩
    have hchange := Sums.sum_change (f := fun u => (s'.frames u).exchanges)
      (g := fun u => (s.frames u).exchanges) ht fun u _ hu => by rw [hne u hu]
    unfold Spends at hspends
    simp only [counts]
    omega
  have hexch : counts T 0 s' ≤ counts T 0 s := by
    simp only [counts, hkeeps.held, hkeeps.wakerExchanges]
    have hsum := Sums.sum_le_of_change (f := fun u => (s'.frames u).exchanges)
      (g := fun u => (s.frames u).exchanges) ht (fun u hu => by rw [hne u hu]) hkeeps.exchanges.le
    omega
  have hleft (u : ι) (hu : u ≠ t) : (s'.frames u).left s' = (s.frames u).left s := by
    rw [hne u hu]
    exact hkeeps.left_other hr.sim hu rfl
  by_cases hstop : (s.frames t).Stops
  · cases hf : s.frames t with
    | release r ret pc =>
      have hs' : s.release t r ret false pc = s' := by
        simpa only [step, hf, Option.some.injEq] using hstep
      have hl := hwakers r ret pc hf
      refine ⟨2, by omega, ?_, fun j hj => ?_⟩
      · refine Sums.sum_lt_of_change ht (fun u hu => ?_) (hl.stepsToExchange_lt hr hf hs')
        rw [hne u hu]
        refine hl.stepsToExchange_other fun r' ret' p back waiter hw => ?_
        rw [← hs']
        exact Represents.walk_prev hr hf hu hw
      · obtain rfl | rfl : j = 0 ∨ j = 1 := by omega
        · exact hexch
        · refine Sums.sum_le_of_change ht hleft ?_
          have hturns := release_turns hf
          rw [hs'] at hturns
          rw [hturns.stops.left_eq]
          exact Nat.zero_le _
    | dropFuture x pc =>
      cases pc with
      | waitCancel pc =>
        obtain ⟨hsem, hmem, htokens, hleft₀, hsteps₀, hpark⟩ := step_waitCancel hf hr hstep hkeeps
        refine ⟨3, by omega, ?_, fun j hj => ?_⟩
        · refine Sums.sum_lt_of_change ht (fun u hu => ?_) hpark
          rw [hne u hu, htokens u hu]
        · obtain rfl | rfl | rfl : j = 0 ∨ j = 1 ∨ j = 2 := by omega
          · exact hexch
          · exact Sums.sum_le_of_change ht hleft (hleft₀.le.trans (Nat.zero_le _))
          · refine Sums.sum_le_of_change ht (fun u hu => ?_) (hsteps₀.le.trans (Nat.zero_le _))
            rw [hne u hu, Frame.stepsToExchange_congr hsem hmem]
      | waker => exact absurd hkeeps (not_keepsWords_waker hr hf hstep)
      | _ =>
        rw [hf] at hstop
        exact hstop.elim
    | idle ret => simp [step, hf] at hstep
    | panicked => simp [step, hf] at hstep
    | _ =>
      rw [hf] at hstop
      exact hstop.elim
  · refine ⟨1, by omega, ?_, fun j hj => ?_⟩
    · refine Sums.sum_lt_of_change ht hleft ?_
      obtain ⟨s₁, hn₁, hnears⟩ := step_nears hstop
      obtain rfl := Option.some.inj (hn.symm.trans hn₁)
      refine hnears.resolve_left fun hstops => ?_
      have hlt := hstops.exchanges_lt
      have heq := Frame.exchanges_of_not_stops hstop
      rw [hkeeps.exchanges] at hlt
      omega
    · obtain rfl : j = 0 := by omega
      exact hexch

end Sys

/-- Only finitely many threads are in a call. -/
theorem Reachable.idle_outside (h : Reachable initial s) : ∃ T, s.IdleOutside T := by
  induction h with
  | refl => exact ⟨∅, fun t _ => rfl⟩
  | tail act _ _ hn ih =>
    obtain ⟨T, hT⟩ := ih
    rcases Sys.next_performs hn with ⟨t, hperf⟩ | ⟨-, hframes, -⟩
    · obtain ⟨f, hf⟩ := hperf.frames
      refine ⟨insert t T, fun u hu => ?_⟩
      rw [Finset.mem_insert, not_or] at hu
      rw [hf, update_of_ne hu.1]
      exact hT u hu.2
    · exact ⟨T, fun u hu => hframes ▸ hT u hu⟩

theorem Reachable.step_descends (T : Finset ι) (s : Sys ι) (act : Act ι) (s' : Sys ι)
    (hs : Reachable initial s ∧ s.IdleOutside T) (hact : ∃ t, act = .step t false)
    (hn : s.next act = some s') :
    (Reachable initial s' ∧ s'.IdleOutside T) ∧ Runs.Descends (Sys.counts T) 4 s s' := by
  obtain ⟨t, rfl⟩ := hact
  obtain ⟨hwithin, hdesc⟩ := Sys.step_descends hs.1 hs.2 hn
  exact ⟨⟨.tail _ hs.1 trivial hn, hwithin⟩, hdesc⟩

/-- No schedule goes on forever unless new calls begin or exchanges fail spuriously: the calls in
progress cannot keep each other busy. -/
theorem lock_free {f : ℕ → Sys ι} {acts : ℕ → Act ι} (h : Reachable initial (f 0))
    (hrun : Runs.Infinite Sys.next f acts) (n : ℕ) : ∃ i, n ≤ i ∧ ∀ t, acts i ≠ .step t false := by
  have hreach : Reachable initial (f n) := h.trans (hrun.reaches n)
  obtain ⟨T, hT⟩ := hreach.idle_outside
  obtain ⟨i, hi, hact⟩ := hrun.exists_refused (Reachable.step_descends T) ⟨hreach, hT⟩
  exact ⟨i, hi, fun t ht => hact ⟨t, ht⟩⟩

/-- A thread that cannot step is in no call, or it is parked. -/
theorem Reachable.parked_of_stuck (h : Reachable initial s)
    (hstuck : s.next (.step t false) = none) : (s.frames t).isIdle = true ∨ s.Parked t := by
  obtain ⟨s', hrun, hend⟩ := unhindered_returns h t
  obtain rfl : s' = s := hrun.eq_of_halt fun act hact => by rw [hact, hstuck]
  exact hend

theorem Reachable.quiescent_of_stuck (h : Reachable initial s)
    (hstuck : ∀ t, s.next (.step t false) = none) : s.Quiescent := by
  have hfree : ∀ t, (s.frames t).pastLock = false := by
    intro t
    rcases h.parked_of_stuck (hstuck t) with hidle | ⟨x, pc, hf, -⟩
    · cases hf : s.frames t with
      | idle ret => rfl
      | _ => simp [hf, Frame.isIdle] at hidle
    · rw [hf]
      rfl
  exact fun t => (h.parked_of_stuck (hstuck t)).resolve_right (h.not_parked hfree)

theorem Unhindered.uncancelling (ha : Unhindered t s s')
    (hu : (s.frames t).Uncancelling s.mem.waker) :
    (s'.frames t).Uncancelling s'.mem.waker := by
  induction ha with
  | refl => exact hu
  | tail act _ hact hn ih =>
    subst hact
    exact Sys.step_uncancelling hn ih

/-- Wherever the other threads are suspended, a thread that runs alone returns from its call, unless
it cancels a future while another thread owns the release lock. -/
theorem obstruction_free (h : Reachable initial s) (t : ι) :
    (∃ s', Unhindered t s s' ∧ (s'.frames t).isIdle = true) ∨
      ¬ (s.frames t).Uncancelling s.mem.waker ∧ ∃ u, u ≠ t ∧ (s.frames u).pastLock = true := by
  obtain ⟨s', ha, hret | hparked⟩ := unhindered_returns h t
  · exact Or.inl ⟨s', ha, hret⟩
  obtain ⟨x, pc, hf, hwait⟩ := hparked
  refine Or.inr ⟨fun hu => ?_, ?_⟩
  · have := ha.uncancelling hu
    rw [hf] at this
    exact this
  · by_contra hno
    push Not at hno
    refine (ha.reachable h).not_parked (fun u => ?_) ⟨x, pc, hf, hwait⟩
    by_cases hu : u = t
    · rw [hu, hf]
      rfl
    · rw [ha.frames_of_ne hu]
      simpa using hno u hu

/-- Where no thread can step there is no call left, and the semaphore is at rest. Every state can be
run to such an end, by steps of the calls in progress. -/
theorem deadlock_free (h : Reachable initial s) :
    ((∀ t, s.next (.step t false) = none) → s.Quiescent ∧ s.AtRest) ∧
      ∃ s', Runs.Steps Sys.next (fun _ act => ∃ t, act = .step t false) s s' ∧
        s'.Quiescent ∧ s'.AtRest := by
  have hrest {s : Sys ι} (h : Reachable initial s) (hstuck : ∀ t, s.next (.step t false) = none) :
      s.Quiescent ∧ s.AtRest := by
    have hq := h.quiescent_of_stuck hstuck
    obtain ⟨a, hr⟩ := h.represents
    exact ⟨hq, hr.at_rest hq⟩
  refine ⟨hrest h, ?_⟩
  obtain ⟨T, hT⟩ := h.idle_outside
  obtain ⟨s', hrun, hhalt⟩ := Runs.Steps.exists_halt (Reachable.step_descends T) ⟨h, hT⟩
  exact ⟨s', hrun, hrest (h.trans hrun.reaches) fun t => hhalt _ ⟨t, rfl⟩⟩

end

attribute [local instance] usize64

/-- A thread that tries to acquire what the semaphore does not have, over and over. -/
def polling : ℕ → Sys Unit
  | 0 => (Sys.init 0).goto () (.idle .wouldBlock)
  | 1 => (Sys.init 0).goto () (.tryAcquire 1 .load)
  | _ => (Sys.init 0).goto () (.tryAcquire 1 (.loop (Semaphore.new 0).acquire.load))

def pollingAct : ℕ → Act Unit
  | 0 => .call () (.tryAcquire 1)
  | _ => .step () false

theorem polling_goto (s : Sys Unit) (f f' : Frame Unit) :
    some ((s.goto () f).goto () f') = some (s.goto () f') := by
  simp [Sys.goto]

theorem polling_infinite :
    Runs.Infinite Sys.next (fun i => polling (i % 3)) fun i => pollingAct (i % 3) := by
  intro i
  have hcases : i % 3 = 0 ∧ (i + 1) % 3 = 1 ∨ i % 3 = 1 ∧ (i + 1) % 3 = 2 ∨
      i % 3 = 2 ∧ (i + 1) % 3 = 0 := by omega
  rcases hcases with ⟨h, h'⟩ | ⟨h, h'⟩ | ⟨h, h'⟩ <;> simp only [h, h'] <;> exact polling_goto ..

theorem polling_reachable : Reachable 0 (polling 0) := by
  have hcalled : Reachable 0 (polling 1) := .single (.call () (.tryAcquire 1)) trivial rfl
  have hread : Reachable 0 (polling 2) := .tail (.step () false) hcalled trivial (polling_goto ..)
  exact .tail (.step () false) hread trivial (polling_goto ..)

theorem lock_free_polling : ∃ i, 1 ≤ i ∧ ∀ t, pollingAct (i % 3) ≠ .step t false :=
  lock_free (f := fun i => polling (i % 3)) polling_reachable polling_infinite 1

/-- A poll comes upon a release that is suspended with the lock. -/
def overtaking : Sys Bool :=
  Runs.final Sys.next
    ([.call false (.release 1)] ++ Act.steps false 4 ++
      [.acquire (usize64.ptr 0) 1, .call true (.poll (usize64.ptr 0))] ++ Act.steps true 3)
    (Sys.init 0) (by decide +kernel)

theorem obstruction_free_overtaking :
    (overtaking.frames false).pastLock = true ∧
      ∃ s', Unhindered true overtaking s' ∧ (s'.frames true).isIdle = true :=
  ⟨by decide +kernel, (obstruction_free (s := overtaking) (Runs.reaches_final _) true).resolve_right
    fun h => h.1 trivial⟩

/-- A cancellation waits for a release that is suspended in its first pass. -/
def suspended : Sys Bool :=
  Runs.final Sys.next
    ([.acquire (usize64.ptr 0) 2, .call true (.poll (usize64.ptr 0))] ++ Act.steps true 20 ++
      [.call false (.release 1)] ++ Act.steps false 4 ++
      [.call true (.dropFuture (usize64.ptr 0))] ++ Act.steps true 7)
    (Sys.init 0) (by decide +kernel)

theorem deadlock_free_suspended :
    (suspended.next (.step true false)).isNone = true ∧
      ∃ s', Runs.Steps Sys.next (fun _ act => ∃ t, act = .step t false) suspended s' ∧
        s'.Quiescent ∧ s'.AtRest :=
  ⟨by decide +kernel, (deadlock_free (s := suspended) (Runs.reaches_final _)).2⟩

end WeightedSemaphore
