import WeightedSemaphore.Deeds

/-!
# Every action is the deed of one thread

For each method, the frame that follows, the deed that leads there and the release word are related
by `Sys.Performs`.
-/

namespace WeightedSemaphore

open Function (update)
open AtomicWaker (FinishPc AcceptCancelPc)

variable [Usize] {ι : Type}

theorem Frame.rank_le (f : Frame ι) : f.rank ≤ 10 := by
  cases f with
  | dropFuture a pc => cases pc <;> simp [rank]
  | release r ret pc =>
    cases pc with
    | accept waker nextCancel pc => cases pc <;> simp [rank, ReleasePc.rank]
    | finish pop pc => cases pc <;> simp [rank, ReleasePc.rank]
    | _ => simp [rank, ReleasePc.rank]
  | _ => simp [rank]

theorem Frame.locks_le (f : Frame ι) : f.locks ≤ 1 := by
  cases f with
  | dropFuture a pc => cases pc <;> simp [locks]
  | release r ret pc => cases pc <;> simp [locks]
  | _ => simp [locks]

theorem Frame.pushes_le (f : Frame ι) : f.pushes ≤ 1 := by
  cases f <;> simp [pushes]

theorem Sys.held_eq {s : Sys ι} {v : ReleaseState} (h : s.sem.release = .new v) :
    s.held = v.held := by
  rw [held, h, Atomic.load_new, ReleaseState.held_canon]

variable [DecidableEq ι] {s s' : Sys ι} {t : ι} {d : Option Deed} {f f' : Frame ι}
  {spurious : Bool} {r : Permits} {ret : Cont}

theorem Sys.Performs.of_frame (hf : s.frames t = f) (hf' : s'.frames = update s.frames t f')
    (hd : f.Does d f') (hm : Stage.Moves f.stage s.held d f'.stage s'.held) :
    s.Performs t d s' := by
  have ht : s'.frames t = f' := by rw [hf', Function.update_self]
  exact ⟨⟨f', hf'⟩, by rw [hf, ht]; exact hd, by rw [hf, ht]; exact hm⟩

/-- A step outside of `release` that leaves the release word alone. -/
theorem Sys.Performs.outside (hf : s.frames t = f) (hf' : s'.frames = update s.frames t f')
    (hrel : s'.sem.release = s.sem.release) (hst : f.stage = .outside) (hst' : f'.stage = .outside)
    (hrank : f'.rank ≤ f.rank) (hlocks : f'.locks ≤ f.locks) (hpushes : f'.pushes ≤ f.pushes) :
    s.Performs t none s' := by
  refine .of_frame hf hf' ⟨by simpa using hrank, by simpa using hlocks,
    by simpa [Deed.pushes] using hpushes⟩ ?_
  rw [hst, hst', Sys.held, Sys.held, hrel]
  exact .enter _ _ (Or.inl rfl)

theorem Sys.Performs.ends (hf : s.frames t = f) (hf' : s'.frames = update s.frames t f')
    (hrel : s'.sem.release = s.sem.release) (hst : f.stage = .outside) (hs : f'.Spent) :
    s.Performs t none s' := by
  obtain ⟨hr, hl, hp, hst'⟩ := hs
  exact .outside hf hf' hrel hst hst' (by omega) (by omega) (by omega)

theorem performs_tryAcquire {amount : ℕ} {pc : TryAcquirePc}
    (hf : s.frames t = .tryAcquire amount pc) :
    s.Performs t none (s.tryAcquire t amount spurious pc) := by
  cases pc with
  | load => exact .ends hf rfl rfl rfl ⟨rfl, rfl, rfl, rfl⟩
  | loop current =>
    cases current with
    | queued back => exact .ends hf rfl rfl rfl ⟨rfl, rfl, rfl, rfl⟩
    | available q =>
      simp only [Sys.tryAcquire]
      cases q.intoUsize with
      | none => exact .ends hf rfl rfl rfl ⟨rfl, rfl, rfl, rfl⟩
      | some n =>
        dsimp only
        split_ifs
        · exact .ends hf rfl rfl rfl ⟨rfl, rfl, rfl, rfl⟩
        · split <;> exact .ends hf rfl rfl rfl ⟨rfl, rfl, rfl, rfl⟩

theorem performs_pollWaiting {a : Ptr} {tok : ℕ} {pc : AtomicWaker.PollPc}
    (hf : s.frames t = .pollWaiting a tok pc) :
    s.Performs t none (s.pollWaiting t a tok spurious pc) := by
  simp only [Sys.pollWaiting]
  split <;> exact .ends hf rfl rfl rfl ⟨rfl, rfl, rfl, rfl⟩

theorem performs_pollEnter {a : Ptr} {pc : EnterPc} (hf : s.frames t = .pollEnter a pc) :
    s.Performs t (s.deed (.step t spurious) (s.pollEnter t a spurious pc))
      (s.pollEnter t a spurious pc) := by
  cases pc with
  | load =>
    simp only [Sys.deed, hf]
    exact .outside hf rfl rfl rfl rfl le_rfl le_rfl le_rfl
  | loop current =>
    simp only [Sys.deed, hf]
    cases current with
    | queued back => exact .outside hf rfl rfl rfl rfl le_rfl le_rfl le_rfl
    | available q =>
      simp only [Sys.pollEnter]
      cases q.intoUsize with
      | none => exact .ends hf rfl rfl rfl ⟨rfl, rfl, rfl, rfl⟩
      | some n =>
        dsimp only
        split_ifs
        · split
          · exact .ends hf rfl rfl rfl ⟨rfl, rfl, rfl, rfl⟩
          · exact .outside hf rfl rfl rfl rfl le_rfl le_rfl le_rfl
        · exact .outside hf rfl rfl rfl rfl le_rfl le_rfl le_rfl
  | poll current available back tok pc =>
    simp only [Sys.deed, hf, Sys.pollEnter]
    split
    · exact .outside hf rfl rfl rfl rfl le_rfl le_rfl le_rfl
    · exact .outside hf rfl rfl rfl rfl le_rfl le_rfl le_rfl
    · exact .ends hf rfl rfl rfl ⟨rfl, rfl, rfl, rfl⟩
    · exact .ends hf rfl rfl rfl ⟨rfl, rfl, rfl, rfl⟩
  | push current available back =>
    simp only [Sys.deed, hf, Sys.pollEnter]
    cases s.sem.acquire.cmpxchgWeak current (.queued a) spurious with
    | none =>
      simp only [Sys.goto, Function.update_self]
      exact .outside hf rfl rfl rfl rfl le_rfl le_rfl le_rfl
    | some acquire =>
      simp only [Sys.goto, Function.update_self]
      refine .of_frame hf rfl ⟨?_, ?_, ?_⟩ (.enter _ _ ?_)
      · exact le_rfl
      · exact le_rfl
      · exact le_rfl
      · exact Or.inr (Or.inr (Or.inr (Or.inr ⟨_, rfl⟩)))

theorem performs_dropFuture {a : Ptr} {pc : DropPc} (hf : s.frames t = .dropFuture a pc)
    (h : s.dropFuture t a spurious pc = some s') : s.Performs t none s' := by
  cases pc with
  | startCancel pc =>
    simp only [Sys.dropFuture] at h
    split at h <;> obtain rfl := Option.some.inj h
    · exact .outside hf rfl rfl rfl rfl le_rfl le_rfl le_rfl
    · exact .outside hf rfl rfl rfl rfl le_rfl le_rfl le_rfl
    · exact .ends hf rfl rfl rfl ⟨rfl, rfl, rfl, rfl⟩
    · exact .outside hf rfl rfl rfl rfl le_rfl le_rfl le_rfl
    · exact .ends hf rfl rfl rfl ⟨rfl, rfl, rfl, rfl⟩
  | loadCancel =>
    obtain rfl := Option.some.inj h
    exact .outside hf rfl rfl rfl rfl le_rfl le_rfl le_rfl
  | pushCancel current =>
    simp only [Sys.dropFuture] at h
    split at h <;> obtain rfl := Option.some.inj h <;>
      exact .outside hf rfl rfl rfl rfl le_rfl le_rfl le_rfl
  | waitCancel pc =>
    cases pc with
    | load =>
      simp only [Sys.dropFuture] at h
      split at h <;> obtain rfl := Option.some.inj h <;>
        exact .ends hf rfl rfl rfl ⟨rfl, rfl, rfl, rfl⟩
    | park =>
      simp only [Sys.dropFuture] at h
      split_ifs at h
      obtain rfl := Option.some.inj h
      exact .ends hf rfl rfl rfl ⟨rfl, rfl, rfl, rfl⟩
  | waker =>
    simp only [Sys.dropFuture] at h
    split at h <;> obtain rfl := Option.some.inj h <;>
      exact .ends hf rfl rfl rfl ⟨rfl, rfl, rfl, rfl⟩

theorem performs_call {c : Call} (hidle : (s.frames t).isIdle = true)
    (h : s.call t c = some s') : s.Performs t (some .called) s' := by
  have hst₀ : (s.frames t).stage = .outside := by
    cases hf : s.frames t <;> simp only [hf, Frame.isIdle, reduceCtorEq] at hidle
    rfl
  suffices ∃ f, s'.frames = update s.frames t f ∧ s'.sem = s.sem ∧ f.stage = .outside by
    obtain ⟨f, hf, hsem, hst⟩ := this
    have hr := f.rank_le
    have hl := f.locks_le
    have hp := f.pushes_le
    refine .of_frame rfl hf ⟨?_, ?_, ?_⟩ ?_
    · simp [Deed.charged]
      omega
    · simp
      omega
    · change f.pushes + 0 ≤ (s.frames t).pushes + 1
      omega
    · rw [hst₀, hst, Sys.held, Sys.held, hsem]
      exact .enter _ _ (Or.inr (Or.inl rfl))
  cases c with
  | poll a =>
    simp only [Sys.call] at h
    split_ifs at h
    cases hst : s.mem.step a <;> rw [hst] at h <;> obtain rfl := Option.some.inj h <;>
      exact ⟨_, rfl, rfl, rfl⟩
  | dropFuture a =>
    simp only [Sys.call] at h
    split_ifs at h
    cases hst : s.mem.step a <;> rw [hst] at h <;> obtain rfl := Option.some.inj h <;>
      exact ⟨_, rfl, rfl, rfl⟩
  | tryAcquire amount =>
    obtain rfl := Option.some.inj h
    exact ⟨_, rfl, rfl, rfl⟩
  | release amount =>
    obtain rfl := Option.some.inj h
    exact ⟨_, rfl, rfl, rfl⟩
  | poison =>
    obtain rfl := Option.some.inj h
    exact ⟨_, rfl, rfl, rfl⟩
  | dropGuard i =>
    simp only [Sys.call] at h
    split at h
    · cases h
    · split_ifs at h <;> obtain rfl := Option.some.inj h <;> exact ⟨_, rfl, rfl, rfl⟩

/-- A step of `release` past the lock, with the deed that its two frames show. -/
theorem Sys.Performs.turn {pc : ReleasePc ι} (hf : s.frames t = .release r ret pc)
    (hf' : s'.frames = update s.frames t f') {d : Deed} (hd : pc.deed s f' = d)
    (hrank : f'.rank + 1 ≤ pc.rank + 11 * [d].countP Deed.charged)
    (hlocks : f'.locks = 0) (hpushes : f'.pushes = 0)
    (hd₁ : [d].countP (fun d => d = .locked ∨ d = .deferred) = 0) (hd₂ : Deed.pushes [d] = [])
    (hm : Stage.Moves pc.stage s.held (some d) f'.stage s'.held) :
    s.Performs t (some (pc.deed s (s'.frames t))) s' := by
  rw [hf', Function.update_self, hd]
  refine .of_frame hf hf' ⟨hrank, ?_, ?_⟩ hm
  · simp only [Option.toList_some, hd₁, hlocks]
    omega
  · simp only [Option.toList_some, hd₂, hpushes]
    simp

/-- The return from `release`, by which the frame becomes one without rights. -/
theorem Sys.afterRelease_frame (s : Sys ι) (t : ι) (ret : Cont) :
    ∃ f, (s.afterRelease t ret).frames = update s.frames t f ∧ f.Spent ∧ f ≠ .panicked ∧
      (s.afterRelease t ret).held = s.held ∧ ∀ r ret pc, f ≠ .release r ret pc := by
  cases ret <;> exact ⟨_, rfl, ⟨rfl, rfl, rfl, rfl⟩, by simp, rfl, by simp⟩

theorem performs_lock {current : ReleaseState} (hf : s.frames t = .release r ret (.lock current)) :
    s.Performs t (some ((ReleasePc.lock current).deed s
      ((s.lockOrElseDefer t r ret spurious current).frames t)))
      (s.lockOrElseDefer t r ret spurious current) := by
  have hretry : s.Performs t (some ((ReleasePc.lock current).deed s
      ((s.goto t (.release r ret (.lock s.sem.release.load))).frames t)))
      (s.goto t (.release r ret (.lock s.sem.release.load))) := by
    rw [show (s.goto t _).frames t = _ from Function.update_self ..]
    exact .of_frame hf rfl ⟨Nat.le_of_ble_eq_true rfl, le_rfl, le_rfl⟩
      (.enter _ _ (by simp [ReleasePc.deed]))
  have hdefer {val : ReleaseState} (hheld : s.held ≠ .free) (hval : val.held = .dirty) :
      s.Performs t (some ((ReleasePc.lock current).deed s
        ((({ s with sem.release := .new val } : Sys ι).afterRelease t ret).frames t)))
        (({ s with sem.release := .new val } : Sys ι).afterRelease t ret) := by
    obtain ⟨f, hf', ⟨hr, hl, hp, hst⟩, -, hsame, hne⟩ :=
      Sys.afterRelease_frame ({ s with sem.release := .new val } : Sys ι) t ret
    have hd : (ReleasePc.lock current).deed s f = .deferred := by
      cases f <;> first | rfl | exact absurd rfl (hne _ _ _)
    rw [hf', Function.update_self, hd]
    refine .of_frame hf hf' ⟨?_, ?_, ?_⟩ ?_
    · rw [hr]
      exact Nat.le_of_ble_eq_true rfl
    · rw [hl]
      exact le_rfl
    · rw [hp]
      exact le_rfl
    · rw [hst]
      exact .defer _ _ hheld (hsame.trans ((Sys.held_eq rfl).trans hval))
  cases current with
  | unlocked q =>
    simp only [Sys.lockOrElseDefer]
    cases hc : s.sem.release.cmpxchgWeak (.unlocked q) .locked spurious with
    | none => exact hretry
    | some release =>
      obtain ⟨hold, rfl, -⟩ := Atomic.cmpxchgWeak_eq_some hc
      simp only [Sys.goto, Function.update_self]
      exact .of_frame hf rfl ⟨Nat.le_of_ble_eq_true rfl, le_rfl, le_rfl⟩
        (.lock _ _ (Sys.held_eq hold) (Sys.held_eq (v := .locked) rfl))
  | locked =>
    simp only [Sys.lockOrElseDefer]
    cases hc : s.sem.release.cmpxchgWeak .locked (.lockedDirty r) spurious with
    | none => exact hretry
    | some release =>
      obtain ⟨hold, rfl, -⟩ := Atomic.cmpxchgWeak_eq_some hc
      exact hdefer (by simp [Sys.held_eq hold, ReleaseState.held]) rfl
  | lockedDirty q =>
    simp only [Sys.lockOrElseDefer]
    cases hc : s.sem.release.cmpxchgWeak (.lockedDirty q) (.lockedDirty (q + r)) spurious with
    | none => exact hretry
    | some release =>
      obtain ⟨hold, rfl, -⟩ := Atomic.cmpxchgWeak_eq_some hc
      exact hdefer (by simp [Sys.held_eq hold, ReleaseState.held]) rfl

theorem performs_unlock {current : ReleaseState}
    (hf : s.frames t = .release r ret (.unlock current)) :
    s.Performs t (some ((ReleasePc.unlock current).deed s
      ((s.tryUnlock t r ret spurious current).frames t)))
      (s.tryUnlock t r ret spurious current) := by
  cases current with
  | unlocked q =>
    exact .turn hf rfl rfl (Nat.le_of_ble_eq_true rfl) rfl rfl rfl rfl
      (.leave _ _ _ (Or.inl rfl) (Or.inl rfl))
  | locked =>
    simp only [Sys.tryUnlock]
    cases hc : s.sem.release.cmpxchgWeak .locked (.unlocked r) spurious with
    | none =>
      exact .turn hf rfl rfl (Nat.le_of_ble_eq_true rfl) rfl rfl rfl rfl
        (.leave _ _ _ (Or.inr rfl) (Or.inr rfl))
    | some release =>
      obtain ⟨hold, rfl, -⟩ := Atomic.cmpxchgWeak_eq_some hc
      obtain ⟨f, hf', ⟨hr, hl, hp, hst⟩, hpanic, hsame, hne⟩ :=
        Sys.afterRelease_frame ({ s with sem.release := .new (.unlocked r) } : Sys ι) t ret
      refine .turn hf hf' (d := .unlocked) ?_ ?_ hl hp rfl rfl ?_
      · cases f <;> first | rfl | exact absurd rfl (hne _ _ _) | exact absurd rfl hpanic
      · rw [hr]
        exact Nat.le_of_ble_eq_true rfl
      · rw [hst]
        exact .unlock _ _ (Sys.held_eq hold) (hsame.trans (Sys.held_eq (v := .unlocked r) rfl))
  | lockedDirty q =>
    simp only [Sys.tryUnlock]
    cases hc : s.sem.release.cmpxchgWeak (.lockedDirty q) .locked spurious with
    | none =>
      exact .turn hf rfl rfl (Nat.le_of_ble_eq_true rfl) rfl rfl rfl rfl
        (.leave _ _ _ (Or.inr rfl) (Or.inr rfl))
    | some release =>
      obtain ⟨hold, rfl, -⟩ := Atomic.cmpxchgWeak_eq_some hc
      exact .turn hf rfl rfl (Nat.le_of_ble_eq_true rfl) rfl rfl rfl rfl
        (.relock _ _ (Sys.held_eq hold) (Sys.held_eq (v := .locked) rfl))

theorem performs_flip {nextCancel : Ptr} {current : AcquireState}
    (hf : s.frames t = .release r ret (.flip nextCancel current)) :
    s.Performs t (some ((ReleasePc.flip nextCancel current).deed s
      ((s.flip t r ret spurious nextCancel current).frames t)))
      (s.flip t r ret spurious nextCancel current) := by
  have hwork (d : Deed) (st : Stage) (hst : st ≠ .coming) (hd : d = .plain ∨ d = .retried) :
      Stage.Moves .popping s.held (some d) st s.held := .work _ _ _ hst (by tauto)
  simp only [Sys.flip]
  cases current with
  | available q =>
    dsimp only
    split
    · split_ifs
      · exact .turn hf rfl rfl (Nat.le_of_ble_eq_true rfl) rfl rfl rfl rfl
          (hwork .plain .popping (by decide) (Or.inl rfl))
      · exact .turn hf rfl rfl (Nat.le_of_ble_eq_true rfl) rfl rfl rfl rfl
          (hwork .plain .outside (by decide) (Or.inl rfl))
    · exact .turn hf rfl rfl (Nat.le_of_ble_eq_true rfl) rfl rfl rfl rfl
        (hwork .retried .popping (by decide) (Or.inr rfl))
  | queued back =>
    dsimp only
    split_ifs
    · split
      · exact .turn hf rfl rfl (Nat.le_of_ble_eq_true rfl) rfl rfl rfl rfl
          (hwork .plain .popping (by decide) (Or.inl rfl))
      · exact .turn hf rfl rfl (Nat.le_of_ble_eq_true rfl) rfl rfl rfl rfl
          (hwork .retried .popping (by decide) (Or.inr rfl))
    · exact .turn hf rfl rfl (Nat.le_of_ble_eq_true rfl) rfl rfl rfl rfl
        (hwork .plain .popping (by decide) (Or.inl rfl))
    · split
      · exact .turn hf rfl rfl (Nat.le_of_ble_eq_true rfl) rfl rfl rfl rfl
          (hwork .plain .popping (by decide) (Or.inl rfl))
      · exact .turn hf rfl rfl (Nat.le_of_ble_eq_true rfl) rfl rfl rfl rfl
          (hwork .retried .popping (by decide) (Or.inr rfl))

theorem performs_accept {waker nextCancel : Ptr} {pc : AcceptCancelPc ι}
    (hf : s.frames t = .release r ret (.accept waker nextCancel pc)) :
    s.Performs t (some ((ReleasePc.accept waker nextCancel pc).deed s
      ((s.accept t r ret spurious waker nextCancel pc).frames t)))
      (s.accept t r ret spurious waker nextCancel pc) := by
  have hwork (d : Deed) (hd : d = .plain ∨ d = .retried) :
      Stage.Moves .popping s.held (some d) .popping s.held := .work _ _ _ (by decide) (by tauto)
  have hpanic : Stage.Moves .popping s.held (some .plain) .outside s.held :=
    .work _ _ _ (by decide) (Or.inl rfl)
  cases pc with
  | load =>
    exact .turn hf rfl rfl (Nat.le_of_ble_eq_true rfl) rfl rfl rfl rfl (hwork .plain (Or.inl rfl))
  | unpark thread =>
    exact .turn hf rfl rfl (Nat.le_of_ble_eq_true rfl) rfl rfl rfl rfl (hwork .plain (Or.inl rfl))
  | exchange current =>
    cases current with
    | cancelling =>
      cases hthread : (s.mem.waker waker).thread with
      | none =>
        simp only [Sys.accept, AtomicWaker.acceptCancel, hthread]
        exact .turn hf rfl rfl (Nat.le_of_ble_eq_true rfl) rfl rfl rfl rfl hpanic
      | some thread =>
        cases hc : (s.mem.waker waker).state.cmpxchgWeak .cancelling .cancelled spurious with
        | none =>
          simp only [Sys.accept, AtomicWaker.acceptCancel, hthread, hc]
          exact .turn hf rfl rfl (Nat.le_of_ble_eq_true rfl) rfl rfl rfl rfl
            (hwork .retried (Or.inr rfl))
        | some state =>
          simp only [Sys.accept, AtomicWaker.acceptCancel, hthread, hc]
          exact .turn hf rfl rfl (Nat.le_of_ble_eq_true rfl) rfl rfl rfl rfl
            (hwork .plain (Or.inl rfl))
    | _ => exact .turn hf rfl rfl (Nat.le_of_ble_eq_true rfl) rfl rfl rfl rfl hpanic

theorem performs_tryPop (hf : s.frames t = .release r ret .tryPop) :
    s.Performs t (some ((ReleasePc.tryPop : ReleasePc ι).deed s ((s.tryPop t r ret).frames t)))
      (s.tryPop t r ret) := by
  simp only [Sys.tryPop]
  by_cases hnull : s.sem.front = null
  · rw [if_pos hnull]
    exact .turn hf rfl (if_pos hnull) (Nat.le_of_ble_eq_true rfl) rfl rfl rfl rfl
      (.work _ _ .leaving (by decide) (Or.inl rfl))
  · rw [if_neg hnull]
    split
    · split_ifs
      · exact .turn hf rfl (if_neg hnull) (Nat.le_of_ble_eq_true rfl) rfl rfl rfl rfl (.refuse _)
      · exact .turn hf rfl rfl (Nat.le_of_ble_eq_true rfl) rfl rfl rfl rfl
          (.work _ _ .popping (by decide) (Or.inl rfl))
    · exact .turn hf rfl rfl (Nat.le_of_ble_eq_true rfl) rfl rfl rfl rfl
        (.work _ _ .popping (by decide) (Or.inl rfl))

theorem performs_finish {pop : Pop} {pc : FinishPc}
    (hf : s.frames t = .release r ret (.finish pop pc)) :
    s.Performs t (some ((ReleasePc.finish pop pc).deed s
      ((s.finish t r ret spurious pop pc).frames t))) (s.finish t r ret spurious pop pc) := by
  have hwork (d : Deed) (hd : d = .plain ∨ d = .retried ∨ ∃ u, d = .popped u) :
      Stage.Moves .popping s.held (some d) .popping s.held := .work _ _ _ (by decide) (by tauto)
  cases pc with
  | load =>
    exact .turn hf rfl rfl (Nat.le_of_ble_eq_true rfl) rfl rfl rfl rfl (hwork .plain (Or.inl rfl))
  | test current =>
    cases current with
    | pending seq =>
      exact .turn hf rfl rfl (Nat.le_of_ble_eq_true rfl) rfl rfl rfl rfl
        (hwork .plain (Or.inl rfl))
    | storing seq =>
      cases hc : (s.mem.waker pop.front).state.cmpxchgWeak (.storing seq)
        (.finished pop.releasable.isNone) spurious with
      | none =>
        simp only [Sys.finish, AtomicWaker.finish, hc]
        exact .turn hf rfl rfl (Nat.le_of_ble_eq_true rfl) rfl rfl rfl rfl
          (hwork .retried (Or.inr (Or.inl rfl)))
      | some state =>
        simp only [Sys.finish, AtomicWaker.finish, hc]
        exact .turn hf rfl rfl (Nat.le_of_ble_eq_true rfl) rfl rfl rfl rfl
          (hwork (.popped _) (Or.inr (Or.inr ⟨_, rfl⟩)))
    | cancelling =>
      exact .turn hf rfl rfl (Nat.le_of_ble_eq_true rfl) rfl rfl rfl rfl (.refuse _)
    | _ =>
      exact .turn hf rfl rfl (Nat.le_of_ble_eq_true rfl) rfl rfl rfl rfl
        (.work _ _ .outside (by decide) (Or.inl rfl))
  | loadVtable current data =>
    exact .turn hf rfl rfl (Nat.le_of_ble_eq_true rfl) rfl rfl rfl rfl (hwork .plain (Or.inl rfl))
  | exchange current data vtable =>
    cases hc : (s.mem.waker pop.front).state.cmpxchgWeak current
      (.finished pop.releasable.isNone) spurious with
    | none =>
      simp only [Sys.finish, AtomicWaker.finish, hc]
      exact .turn hf rfl rfl (Nat.le_of_ble_eq_true rfl) rfl rfl rfl rfl
        (hwork .retried (Or.inr (Or.inl rfl)))
    | some state =>
      simp only [Sys.finish, AtomicWaker.finish, hc]
      exact .turn hf rfl rfl (Nat.le_of_ble_eq_true rfl) rfl rfl rfl rfl
        (hwork (.popped _) (Or.inr (Or.inr ⟨_, rfl⟩)))

theorem performs_release {pc : ReleasePc ι} (hf : s.frames t = .release r ret pc) :
    s.Performs t (some (pc.deed s ((s.release t r ret spurious pc).frames t)))
      (s.release t r ret spurious pc) := by
  have hplain : Stage.Moves .popping s.held (some .plain) .popping s.held :=
    .work _ _ _ (by decide) (Or.inl rfl)
  cases pc with
  | lockLoad =>
    simp only [Sys.release, Sys.goto, Function.update_self]
    exact .of_frame hf rfl ⟨Nat.le_of_ble_eq_true rfl, le_rfl, le_rfl⟩
      (.enter _ _ (by simp [ReleasePc.deed]))
  | lock current => exact performs_lock hf
  | swapCancel =>
    exact .turn hf rfl rfl (Nat.le_of_ble_eq_true rfl) rfl rfl rfl rfl (.pass _)
  | flipLoad nextCancel =>
    exact .turn hf rfl rfl (Nat.le_of_ble_eq_true rfl) rfl rfl rfl rfl hplain
  | flip nextCancel current => exact performs_flip hf
  | walk nextCancel back waiter =>
    simp only [Sys.release, Sys.walk]
    by_cases hnull : waiter = null
    · rw [if_pos hnull]
      exact .turn hf rfl (if_pos hnull) (Nat.le_of_ble_eq_true rfl) rfl rfl rfl rfl hplain
    · rw [if_neg hnull]
      split_ifs <;>
        exact .turn hf rfl (if_neg hnull) (Nat.le_of_ble_eq_true rfl) rfl rfl rfl rfl
          (.work _ _ .popping (by decide) (Or.inr (Or.inr (Or.inl ⟨_, rfl⟩))))
  | cancel nextCancel =>
    simp only [Sys.release, Sys.cancel]
    by_cases hnull : nextCancel = null
    · rw [if_pos hnull]
      exact .turn hf rfl (if_pos hnull) (Nat.le_of_ble_eq_true rfl) rfl rfl rfl rfl hplain
    · rw [if_neg hnull]
      exact .turn hf rfl (if_neg hnull) (Nat.le_of_ble_eq_true rfl) rfl rfl rfl rfl
        (.work _ _ .popping (by decide) (Or.inr (Or.inr (Or.inr (Or.inl ⟨_, rfl⟩)))))
  | accept waker nextCancel pc => exact performs_accept hf
  | tryPop => exact performs_tryPop hf
  | finish pop pc => exact performs_finish hf
  | wake pop data vtable =>
    exact .turn hf rfl rfl (Nat.le_of_ble_eq_true rfl) rfl rfl rfl rfl hplain
  | relink pop => exact .turn hf rfl rfl (Nat.le_of_ble_eq_true rfl) rfl rfl rfl rfl hplain
  | unlockLoad =>
    exact .turn hf rfl rfl (Nat.le_of_ble_eq_true rfl) rfl rfl rfl rfl
      (.leave _ _ _ (Or.inr rfl) (Or.inl rfl))
  | unlock current => exact performs_unlock hf

theorem Sys.step_performs (h : s.next (.step t spurious) = some s') :
    s.Performs t (s.deed (.step t spurious) s') s' := by
  simp only [Sys.next, Sys.step] at h
  cases hf : s.frames t with
  | idle ret => simp [hf] at h
  | panicked => simp [hf] at h
  | tryAcquire amount pc =>
    rw [hf] at h
    obtain rfl := Option.some.inj h
    simpa only [Sys.deed, hf] using performs_tryAcquire hf
  | pollEnter a pc =>
    rw [hf] at h
    obtain rfl := Option.some.inj h
    exact performs_pollEnter hf
  | pollWaiting a tok pc =>
    rw [hf] at h
    obtain rfl := Option.some.inj h
    simpa only [Sys.deed, hf] using performs_pollWaiting hf
  | release r ret pc =>
    rw [hf] at h
    obtain rfl := Option.some.inj h
    simpa only [Sys.deed, hf] using performs_release hf
  | dropFuture a pc =>
    rw [hf] at h
    simpa only [Sys.deed, hf] using performs_dropFuture hf h

/-- Every action is the deed of one thread, or touches neither a frame nor the lock. -/
theorem Sys.next_performs {act : Act ι} (h : s.next act = some s') :
    (∃ t, s.Performs t (s.deed act s') s') ∨
      s.deed act s' = none ∧ s'.frames = s.frames ∧ s'.held = s.held := by
  cases act with
  | call t c =>
    simp only [Sys.next] at h
    split_ifs at h with hidle
    exact Or.inl ⟨t, performs_call hidle h⟩
  | step t spurious => exact Or.inl ⟨t, Sys.step_performs h⟩
  | acquire a amount =>
    simp only [Sys.next, Sys.acquire] at h
    split_ifs at h
    obtain rfl := Option.some.inj h
    exact Or.inr ⟨rfl, rfl, rfl⟩
  | forget i =>
    simp only [Sys.next, Sys.forget] at h
    split at h
    · cases h
    · obtain rfl := Option.some.inj h
      exact Or.inr ⟨rfl, rfl, rfl⟩
  | setPanicking t panicking =>
    simp only [Sys.next] at h
    split_ifs at h
    obtain rfl := Option.some.inj h
    exact Or.inr ⟨rfl, rfl, rfl⟩

end WeightedSemaphore
