import WeightedSemaphore.Alone
import WeightedSemaphore.QueueFreeState

/-!
# Alone, a release call comes to its end

Alone in `release`, a thread fails at most one exchange, the one whose expected value others have
changed before. The account of the work of the lock owner then bounds the steps that it takes.
-/

namespace WeightedSemaphore

open Function (update update_self update_of_ne)
open AtomicWaker (FinishPc AcceptCancelPc WaitCancelPc)
open Waker (State)

variable [Usize] {ι : Type}

def ReleasePc.Fresh (s : Sys ι) : ReleasePc ι → Prop
  | lock current => s.sem.release.load = current
  | flip _ current => s.sem.acquire.load = current
  | accept waker _ (.exchange current) => (s.mem.waker waker).state.load = current
  | finish pop (.test current) => (s.mem.waker pop.front).state.load = current
  | finish pop (.loadVtable current _) => (s.mem.waker pop.front).state.load = current
  | finish pop (.exchange current _ _) => (s.mem.waker pop.front).state.load = current
  | unlock current => s.sem.release.load = current
  | _ => True

def Frame.Fresh (s : Sys ι) : Frame ι → Prop
  | release _ _ pc => pc.Fresh s
  | _ => True

omit [Usize] in
theorem Atomic.load_ne_of_none {T : Type} [Packable T] {a : Atomic T} {current val : T}
    (h : a.cmpxchgWeak current val false = none) : a.load ≠ current := by
  intro hload
  rw [cmpxchgWeak_of_load hload] at h
  cases h

variable [DecidableEq ι] {s s' : Sys ι} {t : ι} {r : Permits} {ret : Cont} {pc : ReleasePc ι}
  {f : Frame ι}

structure Sys.Turns (s : Sys ι) (t : ι) (d : Deed) (s' : Sys ι) : Prop where
  stays : (∃ r ret pc, s'.frames t = .release r ret pc) ∨ (s'.frames t).Ends
  fresh : (s.frames t).Fresh s → (s'.frames t).Fresh s'
  retried : d = .retried → ¬ (s.frames t).Fresh s ∧ (s'.frames t).Fresh s'

namespace Sys.Turns

omit [DecidableEq ι] in
theorem of_frame (hf : s.frames t = .release r ret pc) (hf' : s'.frames t = f)
    (hstays : (∃ r ret pc, f = .release r ret pc) ∨ f.Ends) (hfresh : pc.Fresh s → f.Fresh s')
    (hretried : pc.deed s f = .retried → ¬ pc.Fresh s ∧ f.Fresh s') :
    s.Turns t (pc.deed s (s'.frames t)) s' := by
  rw [hf']
  refine ⟨by rwa [hf'], ?_, ?_⟩
  · rwa [hf, hf']
  · rwa [hf, hf']

omit [DecidableEq ι] in
theorem onward (hf : s.frames t = .release r ret pc) (hf' : s'.frames t = f)
    (hstays : (∃ r ret pc, f = .release r ret pc) ∨ f.Ends) (hfresh : f.Fresh s')
    (hd : pc.deed s f ≠ .retried) : s.Turns t (pc.deed s (s'.frames t)) s' :=
  of_frame hf hf' hstays (fun _ => hfresh) fun h => absurd h hd

omit [DecidableEq ι] in
theorem retry (hf : s.frames t = .release r ret pc) (hf' : s'.frames t = f)
    (hstays : (∃ r ret pc, f = .release r ret pc) ∨ f.Ends) (hfresh : f.Fresh s')
    (hold : ¬ pc.Fresh s) : s.Turns t (pc.deed s (s'.frames t)) s' :=
  of_frame hf hf' hstays (fun _ => hfresh) fun _ => ⟨hold, hfresh⟩

end Sys.Turns

namespace Sys

/-- The return from `release`. -/
theorem afterRelease_turns (hf : s.frames t = .release r ret pc)
    (hd : ∀ f : Frame ι, f.Ends → pc.deed s f ≠ .retried) :
    s.Turns t (pc.deed s ((s'.afterRelease t ret).frames t)) (s'.afterRelease t ret) := by
  cases ret <;>
    exact .onward hf (update_self ..) (Or.inr trivial) trivial (hd _ trivial)

theorem lockOrElseDefer_turns {current : ReleaseState}
    (hf : s.frames t = .release r ret (.lock current)) :
    s.Turns t ((ReleasePc.lock current).deed s
      ((s.lockOrElseDefer t r ret false current).frames t))
      (s.lockOrElseDefer t r ret false current) := by
  have hends : ∀ f : Frame ι, f.Ends → (ReleasePc.lock current).deed s f ≠ .retried := by
    intro f hend
    cases f with
    | release r ret pc => cases hend
    | _ => simp [ReleasePc.deed]
  cases current with
  | unlocked available =>
    simp only [lockOrElseDefer]
    cases hx : s.sem.release.cmpxchgWeak (.unlocked available) .locked false with
    | some release =>
      exact .onward hf (update_self ..) (Or.inl ⟨_, _, _, rfl⟩) trivial (by simp [ReleasePc.deed])
    | none =>
      exact .retry hf (update_self ..) (Or.inl ⟨_, _, _, rfl⟩) rfl (Atomic.load_ne_of_none hx)
  | locked =>
    simp only [lockOrElseDefer]
    cases hx : s.sem.release.cmpxchgWeak .locked (.lockedDirty r) false with
    | some release => exact afterRelease_turns hf hends
    | none =>
      exact .retry hf (update_self ..) (Or.inl ⟨_, _, _, rfl⟩) rfl (Atomic.load_ne_of_none hx)
  | lockedDirty available =>
    simp only [lockOrElseDefer]
    cases hx : s.sem.release.cmpxchgWeak (.lockedDirty available) (.lockedDirty (available + r))
        false with
    | some release => exact afterRelease_turns hf hends
    | none =>
      exact .retry hf (update_self ..) (Or.inl ⟨_, _, _, rfl⟩) rfl (Atomic.load_ne_of_none hx)

theorem flip_turns {nextCancel : Ptr} {current : AcquireState}
    (hf : s.frames t = .release r ret (.flip nextCancel current)) :
    s.Turns t ((ReleasePc.flip nextCancel current).deed s
      ((s.flip t r ret false nextCancel current).frames t))
      (s.flip t r ret false nextCancel current) := by
  have honward {s₁ : Sys ι} {f : Frame ι} (hf₁ : s₁.frames t = f)
      (hstays : (∃ r ret pc, f = .release r ret pc) ∨ f.Ends) (hfresh : f.Fresh s₁)
      (hd : (ReleasePc.flip nextCancel current).deed s f = .plain) :
      s.Turns t ((ReleasePc.flip nextCancel current).deed s (s₁.frames t)) s₁ :=
    .onward hf hf₁ hstays hfresh (by simp [hd])
  have hretry (hload : s.sem.acquire.load ≠ current) :
      s.Turns t ((ReleasePc.flip nextCancel current).deed s
        ((s.goto t (.release r ret (.flip nextCancel s.sem.acquire.load))).frames t))
        (s.goto t (.release r ret (.flip nextCancel s.sem.acquire.load))) :=
    .retry hf (update_self ..) (Or.inl ⟨_, _, _, rfl⟩) rfl hload
  cases current with
  | available available =>
    simp only [flip]
    cases hx : s.sem.acquire.cmpxchgWeak (.available available) (.available (available + r))
        false with
    | some acquire =>
      dsimp only
      split_ifs
      · exact honward (update_self ..) (Or.inl ⟨_, _, _, rfl⟩) trivial rfl
      · exact honward (update_self ..) (Or.inr trivial) trivial rfl
    | none => exact hretry (Atomic.load_ne_of_none hx)
  | queued back =>
    simp only [flip]
    split_ifs
    · cases hx : s.sem.acquire.cmpxchgWeak (.queued back) (.available r) false with
      | some acquire => exact honward (update_self ..) (Or.inl ⟨_, _, _, rfl⟩) trivial rfl
      | none => exact hretry (Atomic.load_ne_of_none hx)
    · exact honward (update_self ..) (Or.inl ⟨_, _, _, rfl⟩) trivial rfl
    · cases hx : s.sem.acquire.cmpxchgWeak (.queued back) (.queued null) false with
      | some acquire => exact honward (update_self ..) (Or.inl ⟨_, _, _, rfl⟩) trivial rfl
      | none => exact hretry (Atomic.load_ne_of_none hx)

theorem accept_turns {waker nextCancel : Ptr} {pc : AcceptCancelPc ι}
    (hf : s.frames t = .release r ret (.accept waker nextCancel pc)) :
    s.Turns t ((ReleasePc.accept waker nextCancel pc).deed s
      ((s.accept t r ret false waker nextCancel pc).frames t))
      (s.accept t r ret false waker nextCancel pc) := by
  cases pc with
  | load =>
    refine .onward hf (update_self ..) (Or.inl ⟨_, _, _, rfl⟩) ?_ (by simp [ReleasePc.deed])
    simp [Frame.Fresh, ReleasePc.Fresh, accept, goto, runWaker, AtomicWaker.acceptCancel]
  | exchange current =>
    have hpanic {s₁ : Sys ι} : s.Turns t ((ReleasePc.accept waker nextCancel
        (.exchange current)).deed s ((s₁.goto t .panicked).frames t)) (s₁.goto t .panicked) :=
      .onward hf (update_self ..) (Or.inr trivial) trivial (by simp [ReleasePc.deed])
    cases current with
    | cancelling =>
      simp only [accept, AtomicWaker.acceptCancel]
      cases (s.mem.waker waker).thread with
      | none => exact hpanic
      | some thread =>
        cases hx : (s.mem.waker waker).state.cmpxchgWeak .cancelling .cancelled false with
        | some state =>
          exact .onward hf (update_self ..) (Or.inl ⟨_, _, _, rfl⟩) trivial
            (by simp [ReleasePc.deed])
        | none =>
          refine .retry hf (update_self ..) (Or.inl ⟨_, _, _, rfl⟩) ?_ (Atomic.load_ne_of_none hx)
          simp [Frame.Fresh, ReleasePc.Fresh, goto, runWaker]
    | _ => exact hpanic
  | unpark thread =>
    exact .onward hf (update_self ..) (Or.inl ⟨_, _, _, rfl⟩) trivial (by simp [ReleasePc.deed])

theorem tryPop_turns (hf : s.frames t = .release r ret .tryPop) :
    s.Turns t ((ReleasePc.tryPop : ReleasePc ι).deed s ((s.tryPop t r ret).frames t))
      (s.tryPop t r ret) := by
  have hunlock : s.Turns t ((ReleasePc.tryPop : ReleasePc ι).deed s
      ((s.goto t (.release r ret .unlockLoad)).frames t))
      (s.goto t (.release r ret .unlockLoad)) := by
    refine .onward hf (update_self ..) (Or.inl ⟨_, _, _, rfl⟩) trivial ?_
    simp only [ReleasePc.deed]
    split <;> simp
  have hfinish {pop : Pop} : s.Turns t ((ReleasePc.tryPop : ReleasePc ι).deed s
      ((s.goto t (.release r ret (.finish pop .load))).frames t))
      (s.goto t (.release r ret (.finish pop .load))) :=
    .onward hf (update_self ..) (Or.inl ⟨_, _, _, rfl⟩) trivial (by simp [ReleasePc.deed])
  simp only [tryPop]
  split_ifs
  · exact hunlock
  · split
    · split_ifs
      · exact hunlock
      · exact hfinish
    · exact hfinish

theorem finish_turns {pop : Pop} {pc : FinishPc}
    (hf : s.frames t = .release r ret (.finish pop pc)) :
    s.Turns t ((ReleasePc.finish pop pc).deed s ((s.finish t r ret false pop pc).frames t))
      (s.finish t r ret false pop pc) := by
  cases pc with
  | load =>
    refine .onward hf (update_self ..) (Or.inl ⟨_, _, _, rfl⟩) ?_ (by simp [ReleasePc.deed])
    simp [Frame.Fresh, ReleasePc.Fresh, finish, goto, logToken, runWaker, AtomicWaker.finish]
  | test current =>
    have hpanic {s₁ : Sys ι} : s.Turns t ((ReleasePc.finish pop (.test current)).deed s
        ((s₁.goto t .panicked).frames t)) (s₁.goto t .panicked) :=
      .onward hf (update_self ..) (Or.inr trivial) trivial (by simp [ReleasePc.deed])
    cases current with
    | pending seq =>
      refine .of_frame hf (update_self ..) (Or.inl ⟨_, _, _, rfl⟩) (fun hfresh => ?_)
        fun h => absurd h (by simp [ReleasePc.deed])
      simpa [Frame.Fresh, ReleasePc.Fresh, finish, goto, runWaker, AtomicWaker.finish] using hfresh
    | storing seq =>
      simp only [finish, AtomicWaker.finish]
      cases hx : (s.mem.waker pop.front).state.cmpxchgWeak (.storing seq)
          (.finished pop.releasable.isNone) false with
      | some state =>
        exact .onward hf (update_self ..) (Or.inl ⟨_, _, _, rfl⟩) trivial (by simp [ReleasePc.deed])
      | none =>
        refine .retry hf (update_self ..) (Or.inl ⟨_, _, _, rfl⟩) ?_ (Atomic.load_ne_of_none hx)
        simp [Frame.Fresh, ReleasePc.Fresh, goto, logToken, runWaker]
    | cancelling =>
      exact .onward hf (update_self ..) (Or.inl ⟨_, _, _, rfl⟩) trivial (by simp [ReleasePc.deed])
    | _ => exact hpanic
  | loadVtable current data =>
    refine .of_frame hf (update_self ..) (Or.inl ⟨_, _, _, rfl⟩) (fun hfresh => ?_)
      fun h => absurd h (by simp [ReleasePc.deed])
    simpa [Frame.Fresh, ReleasePc.Fresh, finish, goto, runWaker, AtomicWaker.finish] using hfresh
  | exchange current data vtable =>
    simp only [finish, AtomicWaker.finish]
    cases hx : (s.mem.waker pop.front).state.cmpxchgWeak current
        (.finished pop.releasable.isNone) false with
    | some state =>
      exact .onward hf (update_self ..) (Or.inl ⟨_, _, _, rfl⟩) trivial (by simp [ReleasePc.deed])
    | none =>
      refine .retry hf (update_self ..) (Or.inl ⟨_, _, _, rfl⟩) ?_ (Atomic.load_ne_of_none hx)
      simp [Frame.Fresh, ReleasePc.Fresh, goto, logToken, runWaker]

theorem tryUnlock_turns {current : ReleaseState}
    (hf : s.frames t = .release r ret (.unlock current)) :
    s.Turns t ((ReleasePc.unlock current).deed s ((s.tryUnlock t r ret false current).frames t))
      (s.tryUnlock t r ret false current) := by
  cases current with
  | unlocked available =>
    exact .onward hf (update_self ..) (Or.inr trivial) trivial (by simp [ReleasePc.deed])
  | locked =>
    simp only [tryUnlock]
    cases hx : s.sem.release.cmpxchgWeak .locked (.unlocked r) false with
    | some release =>
      refine afterRelease_turns hf fun f hend => ?_
      cases f with
      | release r ret pc => cases hend
      | _ => simp [ReleasePc.deed]
    | none =>
      exact .retry hf (update_self ..) (Or.inl ⟨_, _, _, rfl⟩) rfl (Atomic.load_ne_of_none hx)
  | lockedDirty available =>
    simp only [tryUnlock]
    cases hx : s.sem.release.cmpxchgWeak (.lockedDirty available) .locked false with
    | some release =>
      exact .onward hf (update_self ..) (Or.inl ⟨_, _, _, rfl⟩) trivial (by simp [ReleasePc.deed])
    | none =>
      exact .retry hf (update_self ..) (Or.inl ⟨_, _, _, rfl⟩) rfl (Atomic.load_ne_of_none hx)

theorem release_turns (hf : s.frames t = .release r ret pc) :
    s.Turns t (pc.deed s ((s.release t r ret false pc).frames t)) (s.release t r ret false pc) := by
  have honward {s₁ : Sys ι} {r₁ : Permits} {pc₁ : ReleasePc ι}
      (hf₁ : s₁.frames t = .release r₁ ret pc₁) (hfresh : pc₁.Fresh s₁)
      (hd : pc.deed s (.release r₁ ret pc₁) ≠ .retried) :
      s.Turns t (pc.deed s (s₁.frames t)) s₁ :=
    .onward hf hf₁ (Or.inl ⟨_, _, _, rfl⟩) hfresh hd
  cases pc with
  | lockLoad => exact honward (update_self ..) rfl (by simp [ReleasePc.deed])
  | lock current => exact lockOrElseDefer_turns hf
  | swapCancel => exact honward (update_self ..) trivial (by simp [ReleasePc.deed])
  | flipLoad nextCancel => exact honward (update_self ..) rfl (by simp [ReleasePc.deed])
  | flip nextCancel current => exact flip_turns hf
  | walk nextCancel back waiter =>
    have hd : ∀ f : Frame ι, (ReleasePc.walk nextCancel back waiter).deed s f ≠ .retried := by
      intro f
      simp only [ReleasePc.deed]
      split <;> simp
    simp only [release, walk]
    split_ifs <;> exact honward (update_self ..) trivial (hd _)
  | cancel nextCancel =>
    have hd : ∀ f : Frame ι, (ReleasePc.cancel nextCancel).deed s f ≠ .retried := by
      intro f
      simp only [ReleasePc.deed]
      split <;> simp
    simp only [release, cancel]
    split_ifs <;> exact honward (update_self ..) trivial (hd _)
  | accept waker nextCancel pc => exact accept_turns hf
  | tryPop => exact tryPop_turns hf
  | finish pop pc => exact finish_turns hf
  | wake pop data vtable => exact honward (update_self ..) trivial (by simp [ReleasePc.deed])
  | relink pop => exact honward (update_self ..) trivial (by simp [ReleasePc.deed])
  | unlockLoad => exact honward (update_self ..) rfl (by simp [ReleasePc.deed])
  | unlock current => exact tryUnlock_turns hf

end Sys

omit [DecidableEq ι] in
theorem ReleasePc.deed_ne_called (pc : ReleasePc ι) (f : Frame ι) : pc.deed s f ≠ .called := by
  unfold deed
  repeat' split
  all_goals simp

variable {initial : ℕ} {w : List Deed}

/-- `k` exchanges may still fail, and none if the expected value is up to date. -/
theorem release_ends_of_budget (k n : ℕ)
    (h : Runs.Reaches (Runs.logged Sys.next Sys.deed) (Sys.init initial, []) (s, w))
    (hf : s.frames t = .release r ret pc) (hfresh : k = 0 → (s.frames t).Fresh s)
    (hn : 44 * w.count .called + 11 * w.count .retried + 11 * k ≤ w.length + n) :
    ∃ s', Unhindered t s s' ∧ (s'.frames t).Ends := by
  induction n using Nat.strong_induction_on generalizing s w r ret pc k with
  | _ n ih =>
    have hstep : s.next (.step t false) = some (s.release t r ret false pc) := Sys.next_release hf
    have hturns := Sys.release_turns hf
    generalize hs₁ : s.release t r ret false pc = s₁ at hstep hturns
    have hdeed : s.deed (.step t false) s₁ = some (pc.deed s (s₁.frames t)) := by
      simp only [Sys.deed, hf]
    generalize hd : pc.deed s (s₁.frames t) = d at hturns hdeed
    have hlogged :
        Runs.Reaches (Runs.logged Sys.next Sys.deed) (Sys.init initial, []) (s₁, d :: w) :=
      .tail (.step t false) h trivial (Runs.logged_eq_some.mpr ⟨hstep, by rw [hdeed]; rfl⟩)
    have hcalled : (d :: w).count .called = w.count .called :=
      List.count_cons_of_ne (hd ▸ pc.deed_ne_called (s₁.frames t))
    have hlength := (boundedWork_of_run hlogged).length
    rw [hcalled, List.length_cons] at hlength
    rcases hturns.stays with ⟨r₁, ret₁, pc₁, hf₁⟩ | hend
    · by_cases hretried : d = .retried
      · -- the word is up to date now, so that this was the last failure but `k - 1`
        obtain ⟨hold, hnew⟩ := hturns.retried hretried
        have hk : k ≠ 0 := fun hk => hold (hfresh hk)
        have hcount : (d :: w).count .retried = w.count .retried + 1 := by
          rw [hretried, List.count_cons_self]
        obtain ⟨s', hrun, hend⟩ := ih (n - 1) (by omega) (k - 1) hlogged hf₁ (fun _ => hnew)
          (by rw [hcalled, hcount, List.length_cons]; omega)
        exact ⟨s', .head _ rfl hstep hrun, hend⟩
      · have hcount : (d :: w).count .retried = w.count .retried :=
          List.count_cons_of_ne hretried
        obtain ⟨s', hrun, hend⟩ := ih (n - 1) (by omega) k hlogged hf₁
          (fun hk => hturns.fresh (hfresh hk)) (by rw [hcalled, hcount, List.length_cons]; omega)
        exact ⟨s', .head _ rfl hstep hrun, hend⟩
    · exact ⟨s₁, .single _ rfl hstep, hend⟩

theorem release_ends (h : Reachable initial s) (hf : s.frames t = .release r ret pc) :
    ∃ s', Unhindered t s s' ∧ (s'.frames t).Ends := by
  obtain ⟨w, hw⟩ := h.exists_log Sys.deed []
  exact release_ends_of_budget 1 (44 * w.count .called + 11 * w.count .retried + 11) hw hf
    (fun hk => absurd hk one_ne_zero) (by omega)

theorem Unhindered.reachable (h : Reachable initial s) (ha : Unhindered t s s') :
    Reachable initial s' :=
  Runs.Steps.trans h ha.reaches

theorem Unhindered.frames_of_ne {u : ι} (ha : Unhindered t s s') (hu : u ≠ t) :
    s'.frames u = s.frames u := by
  induction ha with
  | refl => rfl
  | tail act _ hact hn ih =>
    subst hact
    obtain ⟨f, hf⟩ := Sys.step_frames hn
    rw [hf, update_of_ne hu, ih]

/-- The thread waits in `wait_cancel` and cannot go on, unless it wakes spuriously. -/
def Sys.Parked (s : Sys ι) (t : ι) : Prop :=
  ∃ a pc, s.frames t = .dropFuture a (.waitCancel pc) ∧
    ((s.mem.waker a).state.load = .cancelling ∨ pc = .park ∧ s.parkToken t = false)

theorem waker_returns {a : Ptr} (h : Reachable initial s) (hf : s.frames t = .dropFuture a .waker) :
    ∃ s', Unhindered t s s' ∧ (s'.frames t).isIdle = true := by
  have hstep : s.next (.step t false) = s.dropFuture t a false .waker := by
    simp only [Sys.next, Sys.step, hf]
  simp only [Sys.dropFuture] at hstep
  split at hstep
  · have hreach : Reachable initial _ := .tail _ h trivial hstep
    exact absurd (update_self ..) (hreach.not_panicked t)
  · refine ⟨_, .single _ rfl hstep, ?_⟩
    simp [Sys.goto, Frame.isIdle]

theorem cancelled_returns {a : Ptr} (h : Reachable initial s)
    (hf : s.frames t = .dropFuture a (.waitCancel .load))
    (hne : (s.mem.waker a).state.load ≠ .cancelling) :
    ∃ s', Unhindered t s s' ∧ (s'.frames t).isIdle = true := by
  have hstep : s.next (.step t false) = s.dropFuture t a false (.waitCancel .load) := by
    simp only [Sys.next, Sys.step, hf]
  simp only [Sys.dropFuture, AtomicWaker.waitCancel] at hstep
  cases hload : (s.mem.waker a).state.load with
  | cancelling => exact absurd hload hne
  | cancelled =>
    rw [hload] at hstep
    have hreach : Reachable initial _ := .tail _ h trivial hstep
    obtain ⟨s', hrun, hidle⟩ := waker_returns hreach (update_self ..)
    exact ⟨s', .head _ rfl hstep hrun, hidle⟩
  | _ =>
    rw [hload] at hstep
    have hreach : Reachable initial _ := .tail _ h trivial hstep
    exact absurd (update_self ..) (hreach.not_panicked t)

/-- After `release`, a call returns or waits for the acceptance of a cancellation. -/
theorem ended_returns (h : Reachable initial s) (hend : (s.frames t).Ends) :
    ∃ s', Unhindered t s s' ∧ ((s'.frames t).isIdle = true ∨ s'.Parked t) := by
  cases hf : s.frames t with
  | idle ret => exact ⟨s, .refl, Or.inl (by rw [hf]; rfl)⟩
  | panicked => exact absurd hf (h.not_panicked t)
  | dropFuture a pc =>
    rw [hf] at hend
    cases pc with
    | waker =>
      obtain ⟨s', hrun, hidle⟩ := waker_returns h hf
      exact ⟨s', hrun, Or.inl hidle⟩
    | waitCancel pc =>
      by_cases hload : (s.mem.waker a).state.load = .cancelling
      · exact ⟨s, .refl, Or.inr ⟨a, pc, hf, Or.inl hload⟩⟩
      · cases pc with
        | load =>
          obtain ⟨s', hrun, hidle⟩ := cancelled_returns h hf hload
          exact ⟨s', hrun, Or.inl hidle⟩
        | park =>
          cases htoken : s.parkToken t with
          | false => exact ⟨s, .refl, Or.inr ⟨a, .park, hf, Or.inr ⟨rfl, htoken⟩⟩⟩
          | true =>
            have hstep : s.next (.step t false) =
                some ({ s with parkToken := update s.parkToken t false }.goto t
                  (.dropFuture a (.waitCancel .load))) := by
              simp only [Sys.next, Sys.step, hf, Sys.dropFuture, htoken, Bool.true_or, if_true]
            have hreach : Reachable initial _ := .tail _ h trivial hstep
            obtain ⟨s', hrun, hidle⟩ := cancelled_returns hreach (update_self ..) hload
            exact ⟨s', .head _ rfl hstep hrun, Or.inl hidle⟩
    | _ => cases hend
  | _ =>
    rw [hf] at hend
    cases hend

/-- A thread that runs alone returns from its call, unless it waits for the acceptance of a
cancellation. -/
theorem unhindered_returns (h : Reachable initial s) (t : ι) :
    ∃ s', Unhindered t s s' ∧ ((s'.frames t).isIdle = true ∨ s'.Parked t) := by
  obtain ⟨s₁, hrun₁, hstop⟩ := unhindered_stops s t
  have h₁ := hrun₁.reachable h
  have hended : ∃ s₂, Unhindered t s₁ s₂ ∧ (s₂.frames t).Ends := by
    cases hf : s₁.frames t with
    | release r ret pc => exact release_ends h₁ hf
    | _ =>
      rw [hf] at hstop
      exact ⟨s₁, .refl, hf ▸ hstop⟩
  obtain ⟨s₂, hrun₂, hend⟩ := hended
  obtain ⟨s₃, hrun₃, hret⟩ := ended_returns (hrun₂.reachable h₁) hend
  exact ⟨s₃, (hrun₁.trans hrun₂).trans hrun₃, hret⟩

end WeightedSemaphore
