import WeightedSemaphore.Refinement

/-!
# A waiter is never touched after it is given up

The footprint of a step of `release` is the list of waiters whose fields it reads or writes. In
every reachable state these waiters are alive, and neither finished nor cancelled. That the
footprint is complete is a commutation: a step is blind to every waiter outside of it.
-/

namespace WeightedSemaphore

open Function (update)
open Protocol (Inv Life Owner)
open Links

section

variable [Usize] {ι : Type}

/-- The waiters whose fields the next step of `release` reads or writes. -/
def ReleasePc.touches (sem : Semaphore) (mem : Waiters ι) : ReleasePc ι → List Ptr
  | walk _ _ waiter =>
    if waiter = null then []
    else if mem.prev waiter = null then
      if sem.middle = null then [waiter] else [waiter, sem.middle]
    else [waiter, mem.prev waiter]
  | cancel nextCancel =>
    if nextCancel = null then []
    else [nextCancel, mem.prev nextCancel, mem.next nextCancel].filter (· ≠ null)
  | accept _ _ (.unpark _) => []
  | accept waker _ _ => [waker]
  | tryPop => if sem.front = null then [] else [sem.front]
  | finish pop _ => [pop.front]
  | relink pop => if pop.next = null then [] else [pop.next]
  | _ => []

structure Waiter (ι : Type) where
  amount : ℕ
  step : AcquireStep
  waker : AtomicWaker ι
  next : Ptr
  prev : Ptr
  nextCancel : Ptr

def Waiters.put (mem : Waiters ι) (y : Ptr) (w : Waiter ι) : Waiters ι where
  amount := update mem.amount y w.amount
  step := update mem.step y w.step
  waker := update mem.waker y w.waker
  next := update mem.next y w.next
  prev := update mem.prev y w.prev
  nextCancel := update mem.nextCancel y w.nextCancel

def Sys.put (s : Sys ι) (y : Ptr) (w : Waiter ι) : Sys ι := { s with mem := s.mem.put y w }

section Blind

variable {x y : Ptr} {w : Waiter ι} {mem : Waiters ι}

@[simp] theorem Waiters.put_amount (h : x ≠ y) : (mem.put y w).amount x = mem.amount x :=
  Function.update_of_ne h ..

@[simp] theorem Waiters.put_waker (h : x ≠ y) : (mem.put y w).waker x = mem.waker x :=
  Function.update_of_ne h ..

@[simp] theorem Waiters.put_next (h : x ≠ y) : (mem.put y w).next x = mem.next x :=
  Function.update_of_ne h ..

@[simp] theorem Waiters.put_prev (h : x ≠ y) : (mem.put y w).prev x = mem.prev x :=
  Function.update_of_ne h ..

@[simp] theorem Waiters.put_nextCancel (h : x ≠ y) :
    (mem.put y w).nextCancel x = mem.nextCancel x :=
  Function.update_of_ne h ..

variable [DecidableEq ι] {s : Sys ι} {t : ι} {r : Permits} {ret : Cont} {spurious : Bool}

theorem Sys.put_walk {nextCancel back waiter : Ptr}
    (hy : y ∉ (ReleasePc.walk nextCancel back waiter : ReleasePc ι).touches s.sem s.mem) :
    (s.put y w).walk t r ret nextCancel back waiter =
      (s.walk t r ret nextCancel back waiter).put y w := by
  simp only [ReleasePc.touches] at hy
  by_cases hw : waiter = null
  · simp [walk, hw, put, goto]
  · rw [if_neg hw] at hy
    split_ifs at hy with hp hm
    · have hne : waiter ≠ y := by simpa [eq_comm] using hy
      simp [walk, hw, put, goto, hp, hm, hne]
    · obtain ⟨hne, hnm⟩ : waiter ≠ y ∧ s.sem.middle ≠ y := by simpa [eq_comm] using hy
      simp [walk, hw, put, goto, hp, hm, hne, Waiters.put, Function.update_comm hne,
        Function.update_comm hnm]
    · obtain ⟨hne, hnp⟩ : waiter ≠ y ∧ s.mem.prev waiter ≠ y := by simpa [eq_comm] using hy
      simp [walk, hw, put, goto, hp, hne, Waiters.put, Function.update_comm hnp]

theorem Sys.put_cancel {nextCancel : Ptr}
    (hy : y ∉ (ReleasePc.cancel nextCancel : ReleasePc ι).touches s.sem s.mem) :
    (s.put y w).cancel t r ret nextCancel = (s.cancel t r ret nextCancel).put y w := by
  simp only [ReleasePc.touches] at hy
  by_cases hn : nextCancel = null
  · simp [cancel, hn, put, goto]
  · have hne : nextCancel ≠ y := by
      rintro rfl
      simp [hn] at hy
    have hprev : s.mem.prev nextCancel ≠ null → s.mem.prev nextCancel ≠ y := by
      rintro h rfl
      simp [hn, h] at hy
    have hnext : s.mem.next nextCancel ≠ null → s.mem.next nextCancel ≠ y := by
      rintro h rfl
      simp [hn, h] at hy
    by_cases hp : s.mem.prev nextCancel = null
    · by_cases hx : s.mem.next nextCancel = null
      · simp [cancel, hn, put, goto, log, hne, hp, hx, Waiters.put]
      · simp [cancel, hn, put, goto, log, hne, hp, hx, Waiters.put, Function.update_comm (hnext hx)]
    · by_cases hx : s.mem.next nextCancel = null
      · simp [cancel, hn, put, goto, log, hne, hp, hx, Waiters.put, Function.update_comm (hprev hp)]
      · simp [cancel, hn, put, goto, log, hne, hp, hx, Waiters.put, Function.update_comm (hprev hp),
          Function.update_comm (hnext hx)]

omit [DecidableEq ι] in
theorem Sys.put_runWaker {π ρ : Type} {res : AtomicWaker.Step ι π ρ} (h : x ≠ y) :
    (s.put y w).runWaker x res = (s.runWaker x res).put y w := by
  simp [runWaker, put, Waiters.put, Function.update_comm h]

theorem Sys.put_accept {waker nextCancel : Ptr} {pc : AtomicWaker.AcceptCancelPc ι}
    (hy : y ∉ (ReleasePc.accept waker nextCancel pc).touches s.sem s.mem) :
    (s.put y w).accept t r ret spurious waker nextCancel pc =
      (s.accept t r ret spurious waker nextCancel pc).put y w := by
  cases pc with
  | unpark thread => rfl
  | load =>
    have hne : waker ≠ y := by simpa [ReleasePc.touches, eq_comm] using hy
    have hw : (s.put y w).mem.waker waker = s.mem.waker waker := Waiters.put_waker hne
    simp only [accept, hw, put_runWaker hne]
    rfl
  | exchange current =>
    have hne : waker ≠ y := by simpa [ReleasePc.touches, eq_comm] using hy
    have hw : (s.put y w).mem.waker waker = s.mem.waker waker := Waiters.put_waker hne
    simp only [accept, hw, put_runWaker hne]
    split <;> rfl

theorem Sys.put_tryPop (hy : y ∉ (ReleasePc.tryPop : ReleasePc ι).touches s.sem s.mem) :
    (s.put y w).tryPop t r ret = (s.tryPop t r ret).put y w := by
  simp only [ReleasePc.touches] at hy
  by_cases hf : s.sem.front = null
  · simp [tryPop, put, hf, goto]
  · have hne : s.sem.front ≠ y := by simpa [hf, eq_comm] using hy
    simp only [tryPop, put, hf, if_false, Waiters.put_amount hne, Waiters.put_next hne]
    cases r.intoUsize with
    | none => rfl
    | some n => dsimp only; split <;> rfl

theorem Sys.put_finish {pop : Pop} {pc : AtomicWaker.FinishPc} (hne : pop.front ≠ y) :
    (s.put y w).finish t r ret spurious pop pc = (s.finish t r ret spurious pop pc).put y w := by
  have hw : (s.put y w).mem.waker pop.front = s.mem.waker pop.front := Waiters.put_waker hne
  simp only [finish, hw, put_runWaker hne]
  split <;> rfl

theorem Sys.put_relink {pop : Pop}
    (hy : y ∉ (ReleasePc.relink pop : ReleasePc ι).touches s.sem s.mem) :
    (s.put y w).relink t r ret pop = (s.relink t r ret pop).put y w := by
  simp only [ReleasePc.touches] at hy
  by_cases hn : pop.next = null
  · simp [relink, put, hn, goto]
  · have hne : pop.next ≠ y := by simpa [hn, eq_comm] using hy
    simp [relink, put, hn, goto, Waiters.put, Function.update_comm hne]

theorem Sys.put_lockOrElseDefer {current : ReleaseState} :
    (s.put y w).lockOrElseDefer t r ret spurious current =
      (s.lockOrElseDefer t r ret spurious current).put y w := by
  unfold lockOrElseDefer
  cases current <;> dsimp only [put] <;> split <;> cases ret <;> rfl

theorem Sys.put_flip {nextCancel : Ptr} {current : AcquireState} :
    (s.put y w).flip t r ret spurious nextCancel current =
      (s.flip t r ret spurious nextCancel current).put y w := by
  have hsem : (s.put y w).sem = s.sem := rfl
  unfold flip
  cases current with
  | queued back =>
    simp only [hsem]
    by_cases hempty : back = null ∧ s.sem.front = null
    · simp only [if_pos hempty]
      cases s.sem.acquire.cmpxchgWeak (.queued back) (.available r) spurious <;> rfl
    · simp only [if_neg hempty]
      by_cases hback : back = null
      · simp only [if_pos hback]
        rfl
      · simp only [if_neg hback]
        cases s.sem.acquire.cmpxchgWeak (.queued back) (.queued null) spurious <;> rfl
  | available q =>
    simp only [hsem]
    cases s.sem.acquire.cmpxchgWeak (.available q) (.available (q + r)) spurious with
    | none => rfl
    | some acquire => by_cases hf : s.sem.front = null <;> simp only [hf] <;> rfl

theorem Sys.put_tryUnlock {current : ReleaseState} :
    (s.put y w).tryUnlock t r ret spurious current =
      (s.tryUnlock t r ret spurious current).put y w := by
  unfold tryUnlock
  cases current with
  | unlocked q => rfl
  | locked => dsimp only [put]; split <;> cases ret <;> rfl
  | lockedDirty q => dsimp only [put]; split <;> rfl

/-- A step of `release` commutes with overwriting a waiter outside of its footprint. -/
theorem Sys.put_release {pc : ReleasePc ι} (hy : y ∉ pc.touches s.sem s.mem) :
    (s.put y w).release t r ret spurious pc = (s.release t r ret spurious pc).put y w := by
  cases pc with
  | lockLoad => rfl
  | lock current => exact put_lockOrElseDefer
  | swapCancel => rfl
  | flipLoad nextCancel => rfl
  | flip nextCancel current => exact put_flip
  | walk nextCancel back waiter => exact put_walk hy
  | cancel nextCancel => exact put_cancel hy
  | accept waker nextCancel pc => exact put_accept hy
  | tryPop => exact put_tryPop hy
  | finish pop pc => exact put_finish (by simpa [ReleasePc.touches, eq_comm] using hy)
  | wake pop data vtable => rfl
  | relink pop => exact put_relink hy
  | unlockLoad => rfl
  | unlock current => exact put_tryUnlock

end Blind

section Reach

variable {sem : Semaphore} {mem : Waiters ι} {life : Ptr → Life} {linked : List Ptr}
  {o : Owner ι Ptr} {pc : ReleasePc ι} {y : Ptr}

/-- The lock owner only reaches waiters of the linked queue, and the one it is accepting. -/
theorem ReleasePc.Ok.touches (h : pc.Ok sem mem life linked o)
    (htaken : o.phase = .cancel → ∀ x ∈ o.taken, x ∈ linked) (hne : ∀ x ∈ linked, x ≠ null)
    (hy : y ∈ pc.touches sem mem) : y ∈ linked ∨ y ∈ o.phase.accepting := by
  cases pc with
  | walk nextCancel back waiter =>
    obtain ⟨-, -, old, rest, done, rfl, hq, hw, hrest, -, -, -⟩ := h
    left
    simp only [ReleasePc.touches, if_neg hw] at hy
    split_ifs at hy with hp hm
    · obtain rfl : y = waiter := by simpa using hy
      simp
    · have hmid : sem.middle ∈ old := by
        rw [hq.back_eq] at hm ⊢
        exact (last_mem_or null old).resolve_right fun he => hm he.2
      rcases List.mem_pair.mp hy with rfl | rfl
      · simp
      · simp [hmid]
    · have hprev : mem.prev waiter ∈ rest := by
        rw [hrest.head_eq] at hp ⊢
        exact (first_mem_or rest null).resolve_right fun he => hp he.2
      rcases List.mem_pair.mp hy with rfl | rfl
      · simp
      · simp [hprev]
  | cancel nextCancel =>
    obtain ⟨hp, hpath, hlink⟩ := h
    left
    simp only [ReleasePc.touches] at hy
    split_ifs at hy with hn
    · simp at hy
    · have hmem : nextCancel ∈ o.taken := by
        rw [hpath.head_eq] at hn ⊢
        exact (first_mem_or o.taken null).resolve_right fun he => hn he.2
      obtain ⟨l₁, l₂, rfl⟩ := List.append_of_mem (htaken hp nextCancel hmem)
      obtain ⟨hprev, hnext⟩ := Queue.neighbours hlink
      obtain ⟨hy, hnull⟩ := List.mem_filter.mp hy
      have hnull : y ≠ null := by simpa using hnull
      rcases (by simpa using hy : y = nextCancel ∨ y = _ ∨ y = _) with rfl | rfl | rfl
      · simp
      · rw [hprev] at hnull ⊢
        have := (last_mem_or null l₁).resolve_right fun he => hnull he.2
        simp [this]
      · rw [hnext] at hnull ⊢
        have := (first_mem_or l₂ null).resolve_right fun he => hnull he.2
        simp [this]
  | accept waker nextCancel pc =>
    right
    cases pc with
    | unpark thread => simp [ReleasePc.touches] at hy
    | load =>
      obtain rfl : y = waker := by simpa [ReleasePc.touches] using hy
      rw [h.1]
      simp [Protocol.Phase.accepting]
    | exchange current =>
      obtain rfl : y = waker := by simpa [ReleasePc.touches] using hy
      rw [h.1]
      simp [Protocol.Phase.accepting]
  | tryPop =>
    left
    simp only [ReleasePc.touches] at hy
    split_ifs at hy with hf
    · simp at hy
    · obtain rfl : y = sem.front := by simpa using hy
      rw [h.2.front_eq] at hf ⊢
      exact (first_mem_or linked null).resolve_right fun he => hf he.2
  | finish pop pc =>
    left
    obtain rfl : y = pop.front := by simpa [ReleasePc.touches] using hy
    obtain ⟨rest, rfl⟩ := h.2.2.1.1
    simp
  | relink pop =>
    left
    simp only [ReleasePc.touches] at hy
    split_ifs at hy with hf
    · simp at hy
    · obtain rfl : y = pop.next := by simpa using hy
      rw [h.2.1] at hf ⊢
      exact (first_mem_or linked null).resolve_right fun he => hf he.2
  | _ => simp [ReleasePc.touches] at hy

end Reach

section Theorem

variable [DecidableEq ι] {s : Sys ι} {t : ι} {r : Permits} {ret : Cont} {pc : ReleasePc ι}
  {initial : ℕ}

/-- In every reachable state, what a thread inside `release` is about to touch is alive, waits in
the queue and was not given up; and nothing else has a part in that step. -/
theorem release_touches_no_given_up (h : Reachable initial s)
    (hf : s.frames t = .release r ret pc) :
    (∀ y ∈ pc.touches s.sem s.mem, y ∈ s.live ∧ s.mem.step y = .waiting ∧
        (∀ p, (s.mem.waker y).state.load ≠ .finished p) ∧
        (s.mem.waker y).state.load ≠ .cancelled ∧
        ¬ History.GivenUp s.ghost.hist (s.ghost.uid y)) ∧
      ∀ y ∉ pc.touches s.sem s.mem, ∀ (w : Waiter ι) (spurious : Bool),
        (s.put y w).release t r ret spurious pc = (s.release t r ret spurious pc).put y w := by
  refine ⟨fun y hy => ?_, fun y hy w spurious => Sys.put_release hy⟩
  obtain ⟨a, hs, hi, hh⟩ := h.represents
  have hlocks : pc.locks = false := by
    cases pc <;> first | rfl | simp [ReleasePc.touches] at hy
  obtain ⟨o, ho, -, -, -, hpc⟩ := hs.owner_of hi hf hlocks
  have htaken : o.phase = .cancel → ∀ x ∈ o.taken, x ∈ a.linked := fun hp =>
    hi.marked.taken_linked o ho (by simp [hp, Protocol.Phase.Flipped])
  have hlife : a.life y = .queued ∨ a.life y = .cancelling := by
    rcases hpc.touches htaken (hs.ne_null hi) hy with hl | hacc
    · exact hi.queue.life_mem y (by simp [Protocol.State.queue, hl])
    · exact Or.inr (hi.accepting_life (by rwa [Protocol.accepting_of_owner ho]))
  have hgiven : ¬ History.GivenUp s.ghost.hist (s.ghost.uid y) := by
    rw [← hs.view.hist, ← hs.view.uid]
    refine hh.given_up y ?_
    rcases hlife with hl | hl <;> simp [hl, Protocol.Life.Fresh]
  rw [hs.view.life] at hlife
  obtain ⟨hlive, hstep, -, hk⟩ := Sys.lifeOf_reachable (s := s) (x := y) rfl (by tauto)
  refine ⟨hlive, hstep, fun p hp => ?_, fun hc => ?_, hgiven⟩
  · simp [← hk, AtomicWaker.kind, hp, Waker.State.kind, Waker.Kind.life] at hlife
  · simp [← hk, AtomicWaker.kind, hc, Waker.State.kind, Waker.Kind.life] at hlife

end Theorem

end

attribute [local instance] usize64

/-- The front of two waiters is finished, and its successor's `prev` still names it. -/
def relinking : Sys Bool :=
  Runs.final Sys.next
    ([.acquire (usize64.ptr 0) 1, .call false (.poll (usize64.ptr 0))] ++ Act.steps false 20 ++
      [.acquire (usize64.ptr 1) 1, .call true (.poll (usize64.ptr 1))] ++ Act.steps true 20 ++
      [.call false (.release 1)] ++ Act.steps false 12)
    (Sys.init 0) (by decide +kernel)

theorem release_touches_no_given_up_relinking :
    relinking.mem.prev (usize64.ptr 1) = usize64.ptr 0 ∧
      .finished 0 false ∈ relinking.ghost.hist ∧
      ¬ History.GivenUp relinking.ghost.hist (relinking.ghost.uid (usize64.ptr 1)) := by
  have hf : relinking.frames false = .release (Permits.new 0) .caller
      (.relink ⟨usize64.ptr 0, 1, usize64.ptr 1, some 1⟩) := rfl
  have hr : Reachable 0 relinking := Runs.reaches_final _
  have hy := (release_touches_no_given_up hr hf).1 (usize64.ptr 1) (by decide +kernel)
  exact ⟨by decide +kernel, by decide +kernel, hy.2.2.2.2⟩

end WeightedSemaphore
