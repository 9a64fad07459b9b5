import WeightedSemaphore.Machine

/-!
# Guards that a step does not see

The guards of a semaphore are the property of its users. No step reads them but the drop of a guard
and `forget`, so a run goes on in the same way when there are more of them.
-/

namespace WeightedSemaphore

variable [Usize] {ι : Type} [DecidableEq ι]

namespace Sys

def more (s : Sys ι) (gs : List SemaphoreGuard) : Sys ι := { s with guards := s.guards ++ gs }

section

omit [DecidableEq ι]

variable (s : Sys ι) (gs : List SemaphoreGuard)

@[simp] theorem more_sem : (s.more gs).sem = s.sem := rfl
@[simp] theorem more_mem : (s.more gs).mem = s.mem := rfl
@[simp] theorem more_frames : (s.more gs).frames = s.frames := rfl
@[simp] theorem more_parkToken : (s.more gs).parkToken = s.parkToken := rfl
@[simp] theorem more_panicking : (s.more gs).panicking = s.panicking := rfl
@[simp] theorem more_live : (s.more gs).live = s.live := rfl
@[simp] theorem more_user : (s.more gs).user = s.user := rfl
@[simp] theorem more_ghost : (s.more gs).ghost = s.ghost := rfl

variable {s} in
theorem guards_more {i : ℕ} {guard : SemaphoreGuard} (h : s.guards[i]? = some guard) :
    (s.more gs).guards[i]? = some guard ∧
      (s.more gs).guards.eraseIdx i = s.guards.eraseIdx i ++ gs := by
  obtain ⟨hi, -⟩ := List.getElem?_eq_some_iff.mp h
  refine ⟨?_, List.eraseIdx_append_of_lt_length hi gs⟩
  rw [more, List.getElem?_append_left hi, h]

end

variable {s : Sys ι} {gs : List SemaphoreGuard} {t : ι} {b : Bool}

theorem tryAcquire_more {n : ℕ} {pc : TryAcquirePc} :
    (s.more gs).tryAcquire t n b pc = (s.tryAcquire t n b pc).more gs := by
  unfold tryAcquire
  simp only [more_sem]
  repeat' split
  all_goals rfl

theorem pollEnter_more {a : Ptr} {pc : EnterPc} :
    (s.more gs).pollEnter t a b pc = (s.pollEnter t a b pc).more gs := by
  unfold pollEnter
  simp only [more_sem, more_mem, more_ghost]
  split
  · rfl
  · rfl
  · split
    · rfl
    · next n _ =>
      change (if s.mem.amount a ≤ n then _ else _) = _
      by_cases hn : s.mem.amount a ≤ n
      · rw [if_pos hn, if_pos hn]
        split <;> rfl
      · rw [if_neg hn, if_neg hn]
        rfl
  · split <;> rfl
  · split <;> rfl

theorem pollWaiting_more {a : Ptr} {tok : ℕ} {pc : AtomicWaker.PollPc} :
    (s.more gs).pollWaiting t a tok b pc = (s.pollWaiting t a tok b pc).more gs := by
  unfold pollWaiting
  simp only [more_mem]
  split <;> rfl

theorem lockOrElseDefer_more {r : Permits} {ret : Cont} {current : ReleaseState} :
    (s.more gs).lockOrElseDefer t r ret b current =
      (s.lockOrElseDefer t r ret b current).more gs := by
  unfold lockOrElseDefer
  simp only [more_sem]
  cases current <;> cases ret <;> (dsimp only; split <;> rfl)

theorem flip_more {r : Permits} {ret : Cont} {p : Ptr} {current : AcquireState} :
    (s.more gs).flip t r ret b p current = (s.flip t r ret b p current).more gs := by
  unfold flip
  simp only [more_sem]
  cases current with
  | available q =>
    dsimp only
    split
    · by_cases hf : s.sem.front = null <;> simp only [hf, if_true, if_false] <;> rfl
    · rfl
  | queued back =>
    by_cases hb : back = null
    · by_cases hf : s.sem.front = null
      · simp only [hb, hf, and_self, if_true]
        split <;> rfl
      · simp only [hb, hf, and_false, if_true, if_false]
        rfl
    · simp only [hb, false_and, if_false]
      split <;> rfl

theorem walk_more {r : Permits} {ret : Cont} {p back x : Ptr} :
    (s.more gs).walk t r ret p back x = (s.walk t r ret p back x).more gs := by
  unfold walk
  simp only [more_sem, more_mem]
  by_cases hx : x = null
  · simp only [hx, if_true]
    rfl
  · by_cases hp : s.mem.prev x = null
    · by_cases hm : s.sem.middle = null <;> simp only [hx, hp, hm, if_true, if_false] <;> rfl
    · simp only [hx, hp, if_false]
      rfl

theorem cancel_more {r : Permits} {ret : Cont} {p : Ptr} :
    (s.more gs).cancel t r ret p = (s.cancel t r ret p).more gs := by
  unfold cancel
  by_cases hp : p = null <;> simp only [hp, if_true, if_false] <;> rfl

theorem tryPop_more {r : Permits} {ret : Cont} :
    (s.more gs).tryPop t r ret = (s.tryPop t r ret).more gs := by
  unfold tryPop
  simp only [more_sem, more_mem]
  by_cases hf : s.sem.front = null
  · simp only [hf, if_true]
    rfl
  · simp only [hf, if_false]
    cases r.intoUsize with
    | none => rfl
    | some n =>
      by_cases hn : n < s.mem.amount s.sem.front <;> simp only [hn, if_true, if_false] <;> rfl

theorem release_more {r : Permits} {ret : Cont} {pc : ReleasePc ι} :
    (s.more gs).release t r ret b pc = (s.release t r ret b pc).more gs := by
  cases pc with
  | lock current => exact lockOrElseDefer_more
  | flip p current => exact flip_more
  | walk p back x => exact walk_more
  | cancel p => exact cancel_more
  | accept w p pc =>
    simp only [release, accept, more_mem]
    split <;> rfl
  | tryPop => exact tryPop_more
  | finish pop pc =>
    simp only [release, finish, more_mem]
    split <;> rfl
  | unlock current =>
    simp only [release, tryUnlock, more_sem]
    cases current <;> cases ret <;> (dsimp only; try split) <;> rfl
  | _ => rfl

theorem dropFuture_more {a : Ptr} {pc : DropPc} :
    (s.more gs).dropFuture t a b pc = (s.dropFuture t a b pc).map (·.more gs) := by
  cases pc with
  | startCancel pc =>
    simp only [dropFuture, more_mem]
    split <;> rfl
  | loadCancel => rfl
  | pushCancel current =>
    simp only [dropFuture, more_sem]
    split <;> rfl
  | waitCancel pc =>
    cases pc with
    | load =>
      simp only [dropFuture, more_mem]
      split <;> rfl
    | park =>
      by_cases hp : (s.parkToken t || b) = true <;>
        simp only [dropFuture, more_parkToken, hp, if_true] <;> rfl
  | waker =>
    simp only [dropFuture, more_mem, more_panicking]
    split <;> rfl

theorem call_more {c : Call} {s' : Sys ι} (h : s.call t c = some s') :
    (s.more gs).call t c = some (s'.more gs) := by
  cases c with
  | poll a =>
    by_cases hl : a ∈ s.live ∧ s.user a = none
    · obtain ⟨hlive, huser⟩ := hl
      simp only [call, more_live, more_user, more_mem, hlive, huser, and_self, if_true] at h ⊢
      cases hst : s.mem.step a <;> rw [hst] at h <;> obtain rfl := Option.some.inj h <;> rfl
    · simp [call, hl] at h
  | dropFuture a =>
    by_cases hl : a ∈ s.live ∧ s.user a = none
    · obtain ⟨hlive, huser⟩ := hl
      simp only [call, more_live, more_user, more_mem, hlive, huser, and_self, if_true] at h ⊢
      cases hst : s.mem.step a <;> rw [hst] at h <;> obtain rfl := Option.some.inj h <;> rfl
    · simp [call, hl] at h
  | dropGuard i =>
    simp only [call] at h ⊢
    cases hg : s.guards[i]? with
    | none => simp [hg] at h
    | some guard =>
      obtain ⟨hget, herase⟩ := guards_more gs hg
      rw [hg] at h
      rw [hget, herase]
      cases hp : !guard.panicking && s.panicking t <;>
        simp only [more_panicking, hp, if_true, Bool.false_eq_true, if_false] at h ⊢ <;>
        obtain rfl := Option.some.inj h <;> rfl
  | _ =>
    obtain rfl := Option.some.inj h
    rfl

theorem step_more : (s.more gs).step t b = (s.step t b).map (·.more gs) := by
  simp only [step, more_frames]
  cases s.frames t with
  | idle ret => rfl
  | panicked => rfl
  | tryAcquire n pc => exact congrArg some tryAcquire_more
  | pollEnter a pc => exact congrArg some pollEnter_more
  | pollWaiting a tok pc => exact congrArg some pollWaiting_more
  | release r ret pc => exact congrArg some release_more
  | dropFuture a pc => exact dropFuture_more

/-- Further guards are in nobody's way. -/
theorem next_more {act : Act ι} {s' : Sys ι} (h : s.next act = some s') :
    (s.more gs).next act = some (s'.more gs) := by
  cases act with
  | call u c =>
    by_cases hi : (s.frames u).isIdle = true
    · simp only [next, more_frames, hi, if_true] at h ⊢
      exact call_more h
    · simp [next, hi] at h
  | step u spurious =>
    change (s.more gs).step u spurious = _
    rw [step_more, show s.step u spurious = some s' from h]
    rfl
  | acquire a amount =>
    by_cases hl : a ∉ s.live ∧ a ≠ null
    · obtain ⟨hlive, hne⟩ := hl
      simp only [next, acquire, more_live, hlive, hne, not_false_eq_true, ne_eq, and_self,
        if_true] at h ⊢
      obtain rfl := Option.some.inj h
      rfl
    · simp only [next, acquire, if_neg hl] at h
      cases h
  | forget i =>
    simp only [next, forget] at h ⊢
    cases hg : s.guards[i]? with
    | none => simp [hg] at h
    | some guard =>
      obtain ⟨hget, herase⟩ := guards_more gs hg
      rw [hg] at h
      rw [hget, herase]
      obtain rfl := Option.some.inj h
      rfl
  | setPanicking u p =>
    by_cases hi : (s.frames u).isIdle = true
    · simp only [next, more_frames, hi, if_true] at h ⊢
      obtain rfl := Option.some.inj h
      rfl
    · simp [next, hi] at h

/-- A step adds guards, and none goes away. -/
theorem step_guards {s' : Sys ι} (h : s.step t b = some s') : ∃ gs, s'.guards = gs ++ s.guards := by
  have hs : s = ({ s with guards := [] } : Sys ι).more s.guards := rfl
  rw [hs, step_more] at h
  obtain ⟨u, -, rfl⟩ := Option.map_eq_some_iff.mp h
  exact ⟨u.guards, rfl⟩

theorem call_guards {c : Call} {s' : Sys ι} (h : s.call t c = some s')
    (hdrop : ∀ i, c ≠ .dropGuard i) : s'.guards = s.guards := by
  cases c with
  | poll a =>
    simp only [call] at h
    split_ifs at h
    split at h <;> obtain rfl := Option.some.inj h <;> rfl
  | dropFuture a =>
    simp only [call] at h
    split_ifs at h
    split at h <;> obtain rfl := Option.some.inj h <;> rfl
  | dropGuard i => exact absurd rfl (hdrop i)
  | _ =>
    obtain rfl := Option.some.inj h
    rfl

end Sys

end WeightedSemaphore
