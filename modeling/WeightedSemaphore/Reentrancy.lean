import WeightedSemaphore.Parking

/-!
# Calls from inside of `wake`

`finish` calls the user's `wake` while the release lock is held, and `wake` may call the semaphore
again. The thread `(t, d)` stands for the calls of thread `t` at depth `d`: while the call at depth
`d` is in `wake`, it is suspended, and calls at depth `d + 1` run. The threads of the transition
system are scheduled accordingly, so that all that holds of its runs holds here.

A nested call of `release` defers. A nested destructor that has to cancel its future waits for the
lock owner, which is suspended below it. Without such destructors, every call can be continued until
it returns.
-/

namespace WeightedSemaphore

open Function (update update_self update_of_ne)
open AtomicWaker (WaitCancelPc)
open Waker (State)

section

variable [Usize] {ι : Type}

def Frame.waking : Frame ι → Bool
  | release _ _ (.wake _ _ _) => true
  | _ => false

theorem Frame.pastLock_of_waking {f : Frame ι} (h : f.waking = true) :
    f.pastLock = true := by
  cases f with
  | release r ret pc => cases pc <;> first | rfl | cases h
  | _ => cases h

theorem Frame.isIdle_of_waking {f : Frame ι} (h : f.waking = true) : f.isIdle = false := by
  cases f with
  | idle ret => cases h
  | _ => rfl

/-- A waker is handled by the user of its future, or by the lock owner outside of `wake`. -/
theorem Frame.uses_of_handles {f : Frame ι} {x : Ptr} (h : f.handles = some x) :
    f.uses = some x ∨ f.pastLock = true ∧ f.waking = false := by
  cases f with
  | release r ret pc =>
    cases pc with
    | accept waker nextCancel pc => exact Or.inr ⟨rfl, rfl⟩
    | finish pop pc => exact Or.inr ⟨rfl, rfl⟩
    | _ => cases h
  | pollEnter a pc => exact Or.inl h
  | pollWaiting a tok pc => exact Or.inl h
  | dropFuture a pc => exact Or.inl h
  | _ => cases h

theorem Sys.ne_call_of_busy [DecidableEq ι] {s s' : Sys ι} {t : ι} {act : Act ι}
    (h : s.next act = some s') (hbusy : (s.frames t).isIdle = false) (c : Call) :
    act ≠ .call t c := by
  rintro rfl
  simp [Sys.next, hbusy] at h

/-- The call cancels no future: one that it drops is at rest, or finished already. -/
def Frame.Uncancelling (waker : Ptr → AtomicWaker ι) : Frame ι → Prop
  | dropFuture a (.startCancel .load) => ∃ p, (waker a).kind = .finished p
  | dropFuture _ (.startCancel (.exchange current)) => ∃ p, current = .finished p
  | dropFuture _ .waker => True
  | dropFuture _ _ => False
  | release _ (.cancelling _) _ => False
  | _ => True

theorem Frame.Uncancelling.congr {f : Frame ι} {waker waker' : Ptr → AtomicWaker ι}
    (h : f.Uncancelling waker)
    (hw : ∀ a p, f.uses = some a → (waker a).kind = .finished p → (waker' a).kind = .finished p) :
    f.Uncancelling waker' := by
  cases f with
  | dropFuture a pc =>
    cases pc with
    | startCancel pc =>
      cases pc with
      | load =>
        obtain ⟨p, hp⟩ := h
        exact ⟨p, hw a p rfl hp⟩
      | exchange current => exact h
    | _ => exact h
  | release r ret pc => cases ret <;> exact h
  | _ => exact h

section

variable [DecidableEq ι] {s s' : Sys ι} {t : ι} {b : Bool}

/-- A call that cancels no future comes to cancel none. -/
theorem Sys.step_uncancelling (h : s.step t b = some s')
    (hu : (s.frames t).Uncancelling s.mem.waker) : (s'.frames t).Uncancelling s'.mem.waker := by
  unfold step at h
  cases hf : s.frames t with
  | idle r => simp [hf] at h
  | panicked => simp [hf] at h
  | tryAcquire n pc =>
    rw [hf] at h
    obtain rfl := Option.some.inj h
    obtain ⟨f, hframes, hnext, -⟩ := tryAcquire_next s t n b pc
    rw [hframes, update_self]
    cases f with
    | dropFuture a pc' => cases pc <;> simp [TryAcquirePc.Next] at hnext
    | release r ret pc' => cases pc <;> simp [TryAcquirePc.Next] at hnext
    | _ => trivial
  | pollEnter a pc =>
    rw [hf] at h
    obtain rfl := Option.some.inj h
    obtain ⟨f, hframes, hnext, -⟩ := pollEnter_next s t a b pc
    rw [hframes, update_self]
    cases f with
    | dropFuture a pc' => cases pc <;> simp [EnterPc.Next] at hnext
    | release r ret pc' =>
      cases ret with
      | cancelling a => cases pc <;> simp [EnterPc.Next] at hnext
      | _ => trivial
    | _ => trivial
  | pollWaiting a tok pc =>
    rw [hf] at h
    obtain rfl := Option.some.inj h
    obtain ⟨f, hframes, hnext⟩ := pollWaiting_next s t a tok b pc
    rw [hframes, update_self]
    cases f with
    | dropFuture a pc' => simp at hnext
    | release r ret pc' => simp at hnext
    | _ => trivial
  | release r ret pc =>
    rw [hf] at h hu
    obtain rfl := Option.some.inj h
    obtain ⟨f, hframes, hafter⟩ := release_next s t r ret b pc
    rw [hframes, update_self]
    cases f with
    | dropFuture a pc' =>
      cases pc' with
      | waker => trivial
      | waitCancel pc' =>
        cases pc' with
        | load =>
          obtain rfl : ret = .cancelling a := hafter
          exact hu.elim
        | park => exact hafter.elim
      | _ => exact hafter.elim
    | release r' ret' pc' =>
      obtain rfl : ret' = ret := hafter
      cases ret' with
      | cancelling a => exact hu.elim
      | _ => trivial
    | _ => trivial
  | dropFuture a pc =>
    rw [hf] at h hu
    cases pc with
    | startCancel pc =>
      cases pc with
      | load =>
        obtain ⟨p, hp⟩ := hu
        obtain rfl := Option.some.inj h
        have hload := State.kind_eq_finished hp
        simp [goto, Frame.Uncancelling, AtomicWaker.startCancel, hload]
      | exchange current =>
        obtain ⟨p, rfl⟩ := hu
        cases p <;> obtain rfl := Option.some.inj h <;> simp [goto, Frame.Uncancelling]
    | waker =>
      simp only [dropFuture] at h
      split at h <;> obtain rfl := Option.some.inj h <;> simp [goto, Frame.Uncancelling]
    | _ => exact hu.elim

end

namespace Nested

/-- A call at depth `d + 1` begins inside of the `wake` at depth `d`, by a thread that is still
unwinding if it was. A call is suspended while a nested one runs. -/
def enabled (s : Sys (ι × ℕ)) : Act (ι × ℕ) → Bool
  | .call (_, 0) _ => true
  | .call (t, d + 1) _ =>
    (s.frames (t, d)).waking && (!s.panicking (t, d) || s.panicking (t, d + 1))
  | .step (t, d) _ => (s.frames (t, d + 1)).isIdle
  | _ => true

variable [DecidableEq ι]

def next (s : Sys (ι × ℕ)) (act : Act (ι × ℕ)) : Option (Sys (ι × ℕ)) :=
  if enabled s act then s.next act else none

/-- Nested calls drop no future that is queued and not finished. -/
def Gentle (s : Sys (ι × ℕ)) : Act (ι × ℕ) → Prop
  | .call (_, _ + 1) (.dropFuture a) =>
    s.mem.step a = .waiting → ∃ poisoned, (s.mem.waker a).state.load = .finished poisoned
  | _ => True

/-- The call waits in `wait_cancel` for the owner of the release lock, which is suspended below. -/
def Stranded (s : Sys (ι × ℕ)) (k : ι × ℕ) : Prop :=
  ∃ outer a pc, outer < k.2 ∧ (s.frames (k.1, outer)).pastLock = true ∧
    s.frames k = .dropFuture a (.waitCancel pc) ∧ (s.mem.waker a).state.load = .cancelling

variable {s s' : Sys (ι × ℕ)} {act : Act (ι × ℕ)} {k : ι × ℕ} {t : ι} {d initial : ℕ} {b : Bool}

theorem next_eq_some : next s act = some s' ↔ enabled s act = true ∧ s.next act = some s' := by
  unfold next
  split_ifs with h <;> simp [h]

theorem reaches {ok : Sys (ι × ℕ) → Act (ι × ℕ) → Prop} (h : Runs.Steps next ok s s') :
    Runs.Reaches Sys.next s s' := by
  induction h with
  | refl => exact .refl
  | tail act _ _ hn ih => exact .tail act ih trivial (next_eq_some.mp hn).2

/-- Nested calls are in progress only on top of a call that is in `wake`. -/
def Stacked (s : Sys (ι × ℕ)) : Prop :=
  ∀ t d, (s.frames (t, d + 1)).isIdle = false → (s.frames (t, d)).waking = true

theorem Stacked.next (h : Stacked s) (hn : Nested.next s act = some s') : Stacked s' := by
  obtain ⟨hen, hn⟩ := next_eq_some.mp hn
  intro t d hbusy
  have hne : (t, d) ≠ (t, d + 1) := by simp
  by_cases hinner : (∃ c, act = .call (t, d + 1) c) ∨ ∃ b, act = .step (t, d + 1) b
  · have hwaking : (s.frames (t, d)).waking = true := by
      rcases hinner with ⟨c, rfl⟩ | ⟨b, rfl⟩
      · exact (Bool.and_eq_true_iff.mp hen).1
      · refine h t d ?_
        cases hf : s.frames (t, d + 1) with
        | idle ret => simp [Sys.next, Sys.step, hf] at hn
        | _ => rfl
    rw [Sys.next_frames_of_ne hn]
    · exact hwaking
    · rintro c rfl
      rcases hinner with ⟨c', h⟩ | ⟨b, h⟩
      · exact hne (Act.call.inj h).1
      · cases h
    · rintro b rfl
      rcases hinner with ⟨c', h⟩ | ⟨b, h⟩
      · cases h
      · exact hne (Act.step.inj h).1
  · rw [not_or, not_exists, not_exists] at hinner
    rw [Sys.next_frames_of_ne hn hinner.1 hinner.2] at hbusy
    have hwaking := h t d hbusy
    rw [Sys.next_frames_of_ne hn (Sys.ne_call_of_busy hn (Frame.isIdle_of_waking hwaking))]
    · exact hwaking
    · rintro b rfl
      rw [show (s.frames (t, d + 1)).isIdle = true from hen] at hbusy
      cases hbusy

theorem stacked_of_run {ok : Sys (ι × ℕ) → Act (ι × ℕ) → Prop}
    (h : Runs.Steps next ok (Sys.init initial) s) : Stacked s :=
  h.invariant (I := Stacked) (fun _ _ _ hI _ hn => hI.next hn) fun t d hbusy => by
    rw [show ((Sys.init initial).frames (t, d + 1)).isIdle = true from rfl] at hbusy
    cases hbusy

def Tame (s : Sys (ι × ℕ)) : Prop :=
  ∀ t d, (s.frames (t, d + 1)).Uncancelling s.mem.waker

theorem Tame.next {a : Protocol.State (ι × ℕ) Ptr} (h : Tame s) (hr : Represents s a)
    (hok : Gentle s act) (hn : Nested.next s act = some s') : Tame s' := by
  obtain ⟨hen, hn⟩ := next_eq_some.mp hn
  intro t d
  cases act with
  | call u c =>
    simp only [Sys.next] at hn
    split_ifs at hn with hidle
    obtain ⟨f, hf, -⟩ := Sys.call_next hn
    obtain ⟨hw, -, hbegins⟩ := Sys.call_begins hn
    by_cases hu : (t, d + 1) = u
    · subst hu
      cases hf' : s'.frames (t, d + 1) with
      | dropFuture a pc =>
        rw [hf'] at hbegins
        cases pc with
        | startCancel pc =>
          cases pc with
          | load =>
            obtain ⟨rfl, hwaiting⟩ := hbegins
            obtain ⟨p, hp⟩ := hok hwaiting
            refine ⟨p, ?_⟩
            rw [hw, AtomicWaker.kind, hp]
            rfl
          | exchange current => exact hbegins.elim
        | waker => trivial
        | _ => exact hbegins.elim
      | release r ret pc =>
        rw [hf'] at hbegins
        cases ret with
        | cancelling a => exact hbegins.elim
        | _ => trivial
      | _ => trivial
    · rw [hf, update_of_ne hu, hw]
      exact h t d
  | step u b =>
    by_cases hu : (t, d + 1) = u
    · subst hu
      exact Sys.step_uncancelling hn (h t d)
    · obtain ⟨f, hf⟩ := Sys.step_frames hn
      rw [hf, update_of_ne hu]
      exact (h t d).congr fun x p hx hp => finished_kept hr hn hu hx hp
  | _ =>
    rw [Sys.next_frames_of_ne hn (by simp) (by simp)]
    refine (h t d).congr fun x p hx hp => ?_
    rw [(Sys.next_untouched hn (by simp) (hr.sim.borrowed rfl hx).1).1]
    exact hp

theorem tame_of_run (h : Runs.Steps next Gentle (Sys.init initial) s) : Tame s := by
  refine h.invariant_reached (I := Tame) (fun _ _ _ hs hI hok hn => ?_) ?_
  · obtain ⟨a, hr⟩ := Reachable.represents (reaches hs)
    exact hI.next hr hok hn
  · intro t d
    trivial

omit [DecidableEq ι] in
theorem Tame.not_stranded (h : Tame s) (k : ι × ℕ) : ¬ Stranded s k := by
  rintro ⟨outer, a, pc, hlt, -, hwait, -⟩
  obtain ⟨t, d⟩ := k
  cases d with
  | zero => exact absurd hlt (Nat.not_lt_zero outer)
  | succ d =>
    have := h t d
    rw [hwait] at this
    exact this

abbrev Continues (s s' : Sys (ι × ℕ)) : Prop :=
  Runs.Steps next (fun _ act => ∃ k, act = .step k false) s s'

theorem Continues.gentle (h : Runs.Steps next Gentle (Sys.init initial) s) (hc : Continues s s') :
    Runs.Steps next Gentle (Sys.init initial) s' := by
  refine h.trans (hc.mono fun s act hact => ?_)
  obtain ⟨k, rfl⟩ := hact
  trivial

theorem continues_of_alone (hidle : (s.frames (t, d + 1)).isIdle = true)
    (ha : Unhindered (t, d) s s') : Continues s s' := by
  induction ha with
  | refl => exact .refl
  | tail act hrun hact hn ih =>
    subst hact
    have hne : (t, d + 1) ≠ (t, d) := by simp
    have hen : enabled _ (.step (t, d) false) = true :=
      (congrArg Frame.isIdle (Unhindered.frames_of_ne hrun hne)).trans hidle
    exact .tail _ ih ⟨_, rfl⟩ (next_eq_some.mpr ⟨hen, hn⟩)

omit [DecidableEq ι] in
theorem Stacked.idle_above (h : Stacked s) (hlock : (s.frames (t, d)).pastLock = false) :
    (s.frames (t, d + 1)).isIdle = true := by
  by_contra hbusy
  rw [Frame.pastLock_of_waking (h t d (by simpa using hbusy))] at hlock
  cases hlock

/-- A call with nothing nested in it returns, unless it waits for another lock owner. -/
theorem returns_of_free (h : Reachable initial s)
    (hidle : (s.frames (t, d + 1)).isIdle = true)
    (hfree : ∀ u, u ≠ (t, d) → (s.frames u).pastLock = false) :
    ∃ s', Continues s s' ∧ (s'.frames (t, d)).isIdle = true ∧
      ∀ u, u ≠ (t, d) → s'.frames u = s.frames u := by
  obtain ⟨s', ha, hret⟩ := unhindered_returns h (t, d)
  refine ⟨s', continues_of_alone hidle ha, hret.resolve_right fun hparked => ?_,
    fun u hu => ha.frames_of_ne hu⟩
  refine (ha.reachable h).not_parked (fun u => ?_) hparked
  by_cases hu : u = (t, d)
  · obtain ⟨a, pc, hf, -⟩ := hparked
    rw [hu, hf]
    rfl
  · rw [ha.frames_of_ne hu]
    exact hfree u hu

/-- The lock owner, and what is nested in its `wake`, can return. -/
theorem frees_lock (h : Runs.Steps next Gentle (Sys.init initial) s) :
    ∃ s', Continues s s' ∧ ∀ u, (s'.frames u).pastLock = false := by
  by_cases hlock : ∃ u, (s.frames u).pastLock = true
  · obtain ⟨⟨t, d⟩, howner⟩ := hlock
    obtain ⟨a, hr⟩ := Reachable.represents (reaches h)
    have hother : ∀ u, u ≠ (t, d) → (s.frames u).pastLock = false := by
      intro u hu
      by_contra hpast
      exact hu (hr.pastLock_unique (by simpa using hpast) howner)
    -- the call nested in the owner's `wake` goes first
    have habove : (s.frames (t, d + 2)).isIdle = true :=
      (stacked_of_run h).idle_above (hother _ (by simp))
    obtain ⟨s₁, ha, hret⟩ := unhindered_returns (reaches h) (t, d + 1)
    have hc₁ : Continues s s₁ := continues_of_alone habove ha
    have hidle : (s₁.frames (t, d + 1)).isIdle = true := by
      refine hret.resolve_right fun hparked => ?_
      obtain ⟨x, pc, hf, -⟩ := hparked
      have := tame_of_run (hc₁.gentle h) t d
      rw [hf] at this
      exact this
    have hother₁ : ∀ u, u ≠ (t, d) → (s₁.frames u).pastLock = false := by
      intro u hu
      by_cases hnested : u = (t, d + 1)
      · rw [hnested]
        cases hf : s₁.frames (t, d + 1) with
        | idle ret => rfl
        | _ => rw [hf] at hidle; cases hidle
      · rw [ha.frames_of_ne hnested]
        exact hother u hu
    obtain ⟨s₂, hc₂, hidle₂, hsame⟩ := returns_of_free (reaches (hc₁.gentle h)) hidle hother₁
    refine ⟨s₂, hc₁.trans hc₂, fun u => ?_⟩
    by_cases hu : u = (t, d)
    · rw [hu]
      cases hf : s₂.frames (t, d) with
      | idle ret => rfl
      | _ => rw [hf] at hidle₂; cases hidle₂
    · rw [hsame u hu]
      exact hother₁ u hu
  · refine ⟨s, .refl, fun u => ?_⟩
    by_contra hpast
    exact hlock ⟨u, by simpa using hpast⟩

/-- Waking can be re-entered: as long as `wake` drops no future that is queued and not finished, no
thread is stranded, and the calls in progress, nested or not, can be continued until any of them
returns. -/
theorem wake_reentrant (h : Runs.Steps next Gentle (Sys.init initial) s) :
    (∀ k, ¬ Stranded s k) ∧ ∀ k, ∃ s', Continues s s' ∧ (s'.frames k).isIdle = true := by
  refine ⟨(tame_of_run h).not_stranded, ?_⟩
  rintro ⟨t, d⟩
  obtain ⟨s₁, hc₁, hfree⟩ := frees_lock h
  have h₁ := hc₁.gentle h
  have hidle := (stacked_of_run h₁).idle_above (hfree (t, d))
  obtain ⟨s₂, hc₂, hret, -⟩ := returns_of_free (reaches h₁) hidle fun u _ => hfree u
  exact ⟨s₂, hc₁.trans hc₂, hret⟩

/-! ## A nested destructor that cancels -/

omit [DecidableEq ι] in
theorem Stacked.waking_below (h : Stacked s) {outer : ℕ} (hlt : outer < d)
    (hbusy : (s.frames (t, d)).isIdle = false) : (s.frames (t, outer)).waking = true := by
  induction d with
  | zero => omega
  | succ d ih =>
    have hwaking := h t d hbusy
    by_cases houter : outer = d
    · rw [houter]
      exact hwaking
    · exact ih (by omega) (Frame.isIdle_of_waking hwaking)

/-- The thread that is stranded stays so: the lock owner cannot go on before it returns. -/
theorem Stranded.next {a : Protocol.State (ι × ℕ) Ptr} (h : Stranded s k) (hst : Stacked s)
    (hr : Represents s a) (hn : Nested.next s act = some s') : Stranded s' k := by
  obtain ⟨t, inner⟩ := k
  obtain ⟨outer, x, pc, hlt, howner, hwait, hload⟩ := h
  obtain ⟨hen, hn⟩ := next_eq_some.mp hn
  have hbusy : (s.frames (t, inner)).isIdle = false := by rw [hwait]; rfl
  have hwaking : (s.frames (t, outer)).waking = true := hst.waking_below hlt hbusy
  have habove : (s.frames (t, outer + 1)).isIdle = false := by
    by_cases hinner : outer + 1 = inner
    · rw [hinner]
      exact hbusy
    · have hlt' : outer + 1 < inner := Nat.lt_of_le_of_ne hlt hinner
      exact Frame.isIdle_of_waking (hst.waking_below hlt' hbusy)
  have houter : s'.frames (t, outer) = s.frames (t, outer) := by
    refine Sys.next_frames_of_ne hn (Sys.ne_call_of_busy hn (Frame.isIdle_of_waking hwaking)) ?_
    rintro b rfl
    rw [show (s.frames (t, outer + 1)).isIdle = true from hen] at habove
    cases habove
  suffices ∃ pc, s'.frames (t, inner) = .dropFuture x (.waitCancel pc) ∧
      (s'.mem.waker x).state.load = .cancelling by
    obtain ⟨pc', hwait', hload'⟩ := this
    exact ⟨outer, x, pc', hlt, houter ▸ howner, hwait', hload'⟩
  have hlive : x ∈ s.live := (hr.sim.borrowed hwait rfl).1
  cases act with
  | step u b =>
    by_cases hu : u = (t, inner)
    · subst hu
      simp only [Sys.next, Sys.step, hwait] at hn
      cases pc with
      | load =>
        simp only [Sys.dropFuture, AtomicWaker.waitCancel, hload] at hn
        obtain rfl := Option.some.inj hn
        exact ⟨.park, update_self .., by simp [Sys.goto, Sys.runWaker, hload]⟩
      | park =>
        simp only [Sys.dropFuture] at hn
        split_ifs at hn
        obtain rfl := Option.some.inj hn
        exact ⟨.load, update_self .., hload⟩
    · have hframe : s'.frames (t, inner) = s.frames (t, inner) :=
        Sys.next_frames_of_ne hn (by simp) (fun b' h => hu (Act.step.inj h).1)
      have hhandles : (s.frames u).handles ≠ some x := by
        intro hx
        rcases Frame.uses_of_handles hx with huses | ⟨hpast, hawake⟩
        · exact hu (hr.sim.loc.user_eq huses (by rw [hwait]; rfl))
        · rw [hr.pastLock_unique hpast howner, hwaking] at hawake
          cases hawake
      exact ⟨pc, hframe.trans hwait, (Sys.step_spares hn hhandles).waker ▸ hload⟩
  | _ =>
    refine ⟨pc, ?_, ?_⟩
    · exact (Sys.next_frames_of_ne hn (Sys.ne_call_of_busy hn hbusy) (by simp)).trans hwait
    · rw [(Sys.next_untouched hn (by simp) hlive).1]
      exact hload

theorem stranded_forever (h : Runs.Reaches next (Sys.init initial) s) (hk : Stranded s k)
    (hrun : Runs.Reaches next s s') : Stranded s' k := by
  refine hrun.invariant_reached (I := fun s => Stranded s k) (fun s₁ act s₂ hs hI _ hn => ?_) hk
  have h₁ : Runs.Reaches next (Sys.init initial) s₁ := h.trans hs
  obtain ⟨a, hr⟩ := Reachable.represents (reaches h₁)
  exact hI.next (stacked_of_run h₁) hr hn

end Nested

end

attribute [local instance] usize64

namespace Nested

def wakingFirst : List (Act (Bool × ℕ)) :=
  [.acquire (usize64.ptr 0) 1, .acquire (usize64.ptr 1) 1,
    .call (false, 0) (.poll (usize64.ptr 0))] ++ Act.steps (false, 0) 20 ++
  [.call (false, 0) (.poll (usize64.ptr 1))] ++ Act.steps (false, 0) 20 ++
  [.call (false, 0) (.release 1)] ++ Act.steps (false, 0) 11

def stranded : Sys (Bool × ℕ) :=
  Runs.final next
    (wakingFirst ++ [.call (false, 1) (.dropFuture (usize64.ptr 1))] ++ Act.steps (false, 1) 7)
    (Sys.init 0) (by decide +kernel)

/-- A destructor called from inside of `wake` waits for the lock owner below it, and never
returns. -/
theorem nested_cancel_stranded :
    Runs.Reaches next (Sys.init 0) stranded ∧ Stranded stranded (false, 1) ∧
      ∀ s', Runs.Reaches next stranded s' → (s'.frames (false, 1)).isIdle = false := by
  have hrun : Runs.Reaches next (Sys.init 0) stranded := Runs.reaches_final _
  have hk : Stranded stranded (false, 1) :=
    ⟨0, usize64.ptr 1, .park, Nat.one_pos, by decide +kernel, rfl, by decide +kernel⟩
  refine ⟨hrun, hk, fun s' hs => ?_⟩
  obtain ⟨outer, a, pc, -, -, hwait, -⟩ := stranded_forever hrun hk hs
  rw [hwait]
  rfl

/-- Another thread cancels the second waiter, and is parked; `wake` has released two permits, and
drops the future of the first waiter. -/
def reenteredSchedule : List (Act (Bool × ℕ)) :=
  wakingFirst ++ [.call (true, 0) (.dropFuture (usize64.ptr 1))] ++ Act.steps (true, 0) 7 ++
    [.call (false, 1) (.release 2)] ++ Act.steps (false, 1) 2 ++
    [.call (false, 1) (.dropFuture (usize64.ptr 0))] ++ Act.steps (false, 1) 2

def reentered : Sys (Bool × ℕ) :=
  Runs.final next reenteredSchedule (Sys.init 0) (by decide +kernel)

def gentle (s : Sys (Bool × ℕ)) : Act (Bool × ℕ) → Bool
  | .call (_, _ + 1) (.dropFuture a) =>
    match (s.mem.waker a).state.load with
    | .finished _ => true
    | _ => false
  | _ => true

theorem gentle_of_test {s : Sys (Bool × ℕ)} {act : Act (Bool × ℕ)} (h : gentle s act = true) :
    Gentle s act := by
  cases act with
  | call k c =>
    obtain ⟨t, d⟩ := k
    cases d with
    | zero => trivial
    | succ d =>
      cases c with
      | dropFuture a =>
        intro _
        simp only [gentle] at h
        split at h
        · next p hload => exact ⟨p, hload⟩
        · cases h
      | _ => trivial
  | _ => trivial

theorem wake_reentrant_reentered :
    (reentered.frames (false, 0)).waking = true ∧ (reentered.frames (false, 1)).isIdle = false ∧
      (reentered.frames (true, 0)).isIdle = false ∧
      ∃ s', Continues reentered s' ∧ (s'.frames (true, 0)).isIdle = true := by
  have hexec : Runs.exec next reenteredSchedule (Sys.init 0) = some reentered :=
    Runs.exec_final _
  have hrun : Runs.Steps next (fun s act => gentle s act = true) (Sys.init 0) reentered :=
    Runs.steps_of_admits hexec (by decide +kernel)
  exact ⟨by decide +kernel, by decide +kernel, by decide +kernel,
    (wake_reentrant (hrun.mono fun _ _ => gentle_of_test)).2 (true, 0)⟩

end Nested

end WeightedSemaphore
