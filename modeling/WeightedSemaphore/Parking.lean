import WeightedSemaphore.Cancellation
import WeightedSemaphore.Completion

/-!
# A parked thread is unparked

`accept_cancel` exchanges the state of the waker before it unparks the thread. So a thread that is
parked although its cancellation has been accepted has its token, or the lock owner is about to give
it. When no thread is past the lock, nobody is parked for good.
-/

namespace WeightedSemaphore

open Function (update update_self update_of_ne)
open AtomicWaker (FinishPc AcceptCancelPc WaitCancelPc)
open Waker (State)

variable [Usize] {ι : Type}

def Frame.handles : Frame ι → Option Ptr
  | pollEnter a _ => some a
  | pollWaiting a _ _ => some a
  | release _ _ (.accept waker _ _) => some waker
  | release _ _ (.finish pop _) => some pop.front
  | dropFuture a _ => some a
  | _ => none

theorem Frame.handles_idle {f : Frame ι} (h : f.isIdle = true) : f.handles = none := by
  cases f with
  | idle ret => rfl
  | _ => cases h

def Frame.Begins (step : Ptr → AcquireStep) (c : Call) : Frame ι → Prop
  | idle _ => True
  | tryAcquire _ .load => True
  | pollEnter _ .load => True
  | pollWaiting _ _ .load => True
  | release _ .caller .lockLoad => True
  | dropFuture a (.startCancel .load) => c = .dropFuture a ∧ step a = .waiting
  | dropFuture _ .waker => True
  | _ => False

variable [DecidableEq ι] {s s' : Sys ι} {t u : ι} {b : Bool} {x : Ptr}

/-- What a step of `t` leaves alone: another waker, and the tokens of the other threads. -/
structure Sys.Spares (s : Sys ι) (t : ι) (x : Ptr) (s' : Sys ι) : Prop where
  waker : s'.mem.waker x = s.mem.waker x
  token : ∀ u, u ≠ t → s.parkToken u = true → s'.parkToken u = true

namespace Sys

theorem afterRelease_spares (s₁ : Sys ι) (ret : Cont) (hw : s₁.mem.waker = s.mem.waker)
    (htoken : s₁.parkToken = s.parkToken) : s.Spares t x (s₁.afterRelease t ret) := by
  cases ret <;> exact ⟨congrFun hw x, fun u _ hu => (congrFun htoken u).trans hu⟩

theorem release_spares {r : Permits} {ret : Cont} {pc : ReleasePc ι}
    (hx : (Frame.release r ret pc).handles ≠ some x) :
    s.Spares t x (s.release t r ret b pc) := by
  have hsame {s₁ : Sys ι} (hw : s₁.mem.waker = s.mem.waker)
      (htoken : s₁.parkToken = s.parkToken) : s.Spares t x s₁ :=
    ⟨congrFun hw x, fun u _ hu => (congrFun htoken u).trans hu⟩
  cases pc with
  | lock current =>
    simp only [release, lockOrElseDefer]
    cases current <;> dsimp only <;> split
    all_goals first
      | exact hsame rfl rfl
      | exact afterRelease_spares _ _ rfl rfl
  | flip nextCancel current =>
    simp only [release, flip]
    repeat' split
    all_goals exact hsame rfl rfl
  | walk nextCancel back waiter =>
    simp only [release, walk]
    split_ifs <;> exact hsame rfl rfl
  | cancel nextCancel =>
    simp only [release, cancel]
    split_ifs <;> exact hsame rfl rfl
  | accept waker nextCancel pc =>
    have hne : x ≠ waker := fun h => hx (congrArg some h.symm)
    simp only [release, accept]
    split
    · exact ⟨update_of_ne hne _ _, fun u _ hu => hu⟩
    · exact ⟨update_of_ne hne _ _, fun u _ hu => hu⟩
    · next thread _ =>
      refine ⟨rfl, fun u _ hu => ?_⟩
      by_cases hut : u = thread
      · exact hut ▸ update_self ..
      · exact (update_of_ne hut _ _).trans hu
    · exact ⟨update_of_ne hne _ _, fun u _ hu => hu⟩
  | tryPop =>
    simp only [release, tryPop]
    split_ifs
    · exact hsame rfl rfl
    · split
      · split_ifs <;> exact hsame rfl rfl
      · exact hsame rfl rfl
  | finish pop pc =>
    have hne : x ≠ pop.front := fun h => hx (congrArg some h.symm)
    simp only [release, finish]
    split <;> exact ⟨update_of_ne hne _ _, fun u _ hu => hu⟩
  | unlock current =>
    simp only [release, tryUnlock]
    cases current with
    | unlocked q => exact hsame rfl rfl
    | locked =>
      dsimp only
      split
      · exact afterRelease_spares _ _ rfl rfl
      · exact hsame rfl rfl
    | lockedDirty q => dsimp only; split <;> exact hsame rfl rfl
  | _ => exact hsame rfl rfl

theorem dropFuture_spares {a : Ptr} {pc : DropPc} (hne : x ≠ a)
    (h : s.dropFuture t a b pc = some s') : s.Spares t x s' := by
  cases pc with
  | startCancel pc =>
    simp only [dropFuture] at h
    split at h <;> obtain rfl := Option.some.inj h <;>
      exact ⟨update_of_ne hne _ _, fun u _ hu => hu⟩
  | loadCancel =>
    obtain rfl := Option.some.inj h
    exact ⟨rfl, fun u _ hu => hu⟩
  | pushCancel current =>
    simp only [dropFuture] at h
    split at h <;> obtain rfl := Option.some.inj h <;> exact ⟨rfl, fun u _ hu => hu⟩
  | waitCancel pc =>
    cases pc with
    | load =>
      simp only [dropFuture] at h
      split at h <;> obtain rfl := Option.some.inj h <;>
        exact ⟨update_of_ne hne _ _, fun u _ hu => hu⟩
    | park =>
      simp only [dropFuture] at h
      split_ifs at h
      obtain rfl := Option.some.inj h
      exact ⟨rfl, fun u hut hu => (update_of_ne hut _ _).trans hu⟩
  | waker =>
    simp only [dropFuture] at h
    split at h <;> obtain rfl := Option.some.inj h <;>
      exact ⟨update_of_ne hne _ _, fun u _ hu => hu⟩

theorem step_spares (h : s.step t b = some s') (hx : (s.frames t).handles ≠ some x) :
    s.Spares t x s' := by
  unfold step at h
  cases hf : s.frames t with
  | idle r => simp [hf] at h
  | panicked => simp [hf] at h
  | tryAcquire n pc =>
    rw [hf] at h
    obtain rfl := Option.some.inj h
    unfold tryAcquire
    repeat' split
    all_goals exact ⟨rfl, fun u _ hu => hu⟩
  | pollEnter a pc =>
    rw [hf] at h hx
    obtain rfl := Option.some.inj h
    have hne : x ≠ a := fun h => hx (congrArg some h.symm)
    unfold pollEnter
    dsimp only
    repeat' split
    all_goals first
      | exact ⟨rfl, fun u _ hu => hu⟩
      | exact ⟨update_of_ne hne _ _, fun u _ hu => hu⟩
  | pollWaiting a tok pc =>
    rw [hf] at h hx
    obtain rfl := Option.some.inj h
    have hne : x ≠ a := fun h => hx (congrArg some h.symm)
    unfold pollWaiting
    dsimp only
    split <;> exact ⟨update_of_ne hne _ _, fun u _ hu => hu⟩
  | release r ret pc =>
    rw [hf] at h hx
    obtain rfl := Option.some.inj h
    exact release_spares hx
  | dropFuture a pc =>
    rw [hf] at h hx
    exact dropFuture_spares (fun h => hx (congrArg some h.symm)) h

theorem call_begins {c : Call} (h : s.call t c = some s') :
    s'.mem.waker = s.mem.waker ∧ s'.parkToken = s.parkToken ∧
      (s'.frames t).Begins s.mem.step c := by
  have hbegins {s₁ : Sys ι} {f : Frame ι} (hf : s₁.frames t = f) (hb : f.Begins s.mem.step c) :
      (s₁.frames t).Begins s.mem.step c := hf ▸ hb
  cases c with
  | poll a =>
    simp only [call] at h
    split_ifs at h
    cases hst : s.mem.step a <;> rw [hst] at h <;> obtain rfl := Option.some.inj h <;>
      exact ⟨rfl, rfl, hbegins (update_self ..) trivial⟩
  | dropFuture a =>
    simp only [call] at h
    split_ifs at h
    cases hst : s.mem.step a <;> rw [hst] at h <;> obtain rfl := Option.some.inj h
    · exact ⟨rfl, rfl, hbegins (update_self ..) trivial⟩
    · exact ⟨rfl, rfl, hbegins (update_self ..) ⟨rfl, hst⟩⟩
    · exact ⟨rfl, rfl, hbegins (update_self ..) trivial⟩
  | dropGuard i =>
    simp only [call] at h
    split at h
    · cases h
    · split_ifs at h <;> obtain rfl := Option.some.inj h <;>
        exact ⟨rfl, rfl, hbegins (update_self ..) trivial⟩
  | _ =>
    obtain rfl := Option.some.inj h
    exact ⟨rfl, rfl, hbegins (update_self ..) trivial⟩

/-- What is not a step of a thread touches no waker in use, and no token. -/
theorem next_untouched {act : Act ι} (hn : s.next act = some s') (hact : ∀ t b, act ≠ .step t b)
    (hx : x ∈ s.live) : s'.mem.waker x = s.mem.waker x ∧ s'.parkToken = s.parkToken := by
  cases act with
  | call t c =>
    simp only [next] at hn
    split_ifs at hn
    obtain ⟨hw, htoken, -⟩ := call_begins hn
    exact ⟨congrFun hw x, htoken⟩
  | step t b => exact absurd rfl (hact t b)
  | acquire y n =>
    simp only [next, acquire] at hn
    split_ifs at hn with hy
    obtain rfl := Option.some.inj hn
    have hne : x ≠ y := fun h => hy.1 (h ▸ hx)
    exact ⟨update_of_ne hne _ _, rfl⟩
  | forget i =>
    simp only [next, forget] at hn
    split at hn
    · cases hn
    · obtain rfl := Option.some.inj hn
      exact ⟨rfl, rfl⟩
  | setPanicking t p =>
    simp only [next] at hn
    split_ifs at hn
    obtain rfl := Option.some.inj hn
    exact ⟨rfl, rfl⟩

/-- A thread parks when it has read that its cancellation is not accepted yet. -/
theorem step_parks (h : s.step t b = some s')
    (hf' : s'.frames t = .dropFuture x (.waitCancel .park)) :
    (s'.mem.waker x).kind = .cancelling := by
  unfold step at h
  cases hf : s.frames t with
  | idle r => simp [hf] at h
  | panicked => simp [hf] at h
  | tryAcquire n pc =>
    rw [hf] at h
    obtain rfl := Option.some.inj h
    obtain ⟨f, hframes, hnext, -⟩ := tryAcquire_next s t n b pc
    rw [hframes, update_self] at hf'
    subst hf'
    cases pc <;> simp [TryAcquirePc.Next] at hnext
  | pollEnter a pc =>
    rw [hf] at h
    obtain rfl := Option.some.inj h
    obtain ⟨f, hframes, hnext, -⟩ := pollEnter_next s t a b pc
    rw [hframes, update_self] at hf'
    subst hf'
    cases pc <;> simp [EnterPc.Next] at hnext
  | pollWaiting a tok pc =>
    rw [hf] at h
    obtain rfl := Option.some.inj h
    obtain ⟨f, hframes, hnext⟩ := pollWaiting_next s t a tok b pc
    rw [hframes, update_self] at hf'
    subst hf'
    simp at hnext
  | release r ret pc =>
    rw [hf] at h
    obtain rfl := Option.some.inj h
    obtain ⟨f, hframes, hafter⟩ := release_next s t r ret b pc
    rw [hframes, update_self] at hf'
    subst hf'
    exact hafter.elim
  | dropFuture a pc =>
    rw [hf] at h
    cases pc with
    | startCancel pc =>
      simp only [dropFuture] at h
      split at h <;> obtain rfl := Option.some.inj h <;> simp [goto] at hf'
    | loadCancel =>
      obtain rfl := Option.some.inj h
      simp [goto] at hf'
    | pushCancel current =>
      simp only [dropFuture] at h
      split at h <;> obtain rfl := Option.some.inj h <;> simp [goto] at hf'
    | waitCancel pc =>
      cases pc with
      | load =>
        simp only [dropFuture, AtomicWaker.waitCancel] at h
        cases hload : (s.mem.waker a).state.load with
        | cancelling =>
          rw [hload] at h
          obtain rfl := Option.some.inj h
          obtain rfl : a = x := by simpa [goto] using hf'
          simp [goto, runWaker, AtomicWaker.kind, hload, State.kind]
        | _ =>
          rw [hload] at h
          obtain rfl := Option.some.inj h
          simp [goto] at hf'
      | park =>
        simp only [dropFuture] at h
        split_ifs at h
        obtain rfl := Option.some.inj h
        simp [goto] at hf'
    | waker =>
      simp only [dropFuture] at h
      split at h <;> obtain rfl := Option.some.inj h <;> simp [goto] at hf'

end Sys

def Sys.Wakes (s : Sys ι) (t : ι) (a : Ptr) : Prop :=
  s.parkToken t = true ∨
    ∃ u r ret nextCancel, s.frames u = .release r ret (.accept a nextCancel (.unpark t))

def Sys.Unparks (s : Sys ι) : Prop :=
  ∀ t a, s.frames t = .dropFuture a (.waitCancel .park) → (s.mem.waker a).kind = .cancelled →
    s.Wakes t a

variable {a : Protocol.State ι Ptr}

omit [DecidableEq ι] in
theorem Sys.Wakes.spared (h : s.Wakes t x) (hframes : ∀ v, v ≠ u → s'.frames v = s.frames v)
    (hne : t ≠ u) (hx : (s.frames u).handles ≠ some x) (hs : s.Spares u x s') : s'.Wakes t x := by
  rcases h with htoken | ⟨v, r, ret, nextCancel, hv⟩
  · exact Or.inl (hs.token t hne htoken)
  · have hvu : v ≠ u := by
      rintro rfl
      rw [hv] at hx
      exact hx rfl
    exact Or.inr ⟨v, r, ret, nextCancel, (hframes v hvu).trans hv⟩

omit [DecidableEq ι] in
/-- Before its exchange, `accept_cancel` finds a waiter whose cancellation has begun. -/
theorem accept_kind (hr : Represents s a) {r : Permits} {ret : Cont} {nextCancel : Ptr}
    {pc : AcceptCancelPc ι} (hu : s.frames u = .release r ret (.accept x nextCancel pc))
    (hpc : ∀ thread, pc ≠ .unpark thread) :
    x ∈ s.live ∧ (s.mem.waker x).kind = .cancelling ∧
      (pc = .load ∨ pc = .exchange .cancelling) := by
  obtain ⟨o, ho, hot, hrole, hreleasable, hok⟩ := hr.sim.owner_of hr.inv hu rfl
  have hphase : o.phase = .accept x ∧ (pc = .load ∨ pc = .exchange .cancelling) := by
    cases pc with
    | unpark thread => exact absurd rfl (hpc thread)
    | _ => exact ⟨hok.1, hok.2.1⟩
  have hlife : a.life x = .cancelling := hr.inv.accepting_life
    (by simp [Protocol.accepting_of_owner ho, hphase.1, Protocol.Phase.accepting])
  obtain ⟨hlive, -, -, hkind⟩ := Sys.lifeOf_reachable
    ((hr.sim.view.life x).symm.trans hlife) (by simp)
  exact ⟨hlive, Waker.Kind.life_eq_cancelling hkind, hphase.2⟩

/-- A step of the lock owner in `accept_cancel`. -/
theorem wakes_of_accept (hr : Represents s a) {r : Permits} {ret : Cont} {nextCancel : Ptr}
    {pc : AcceptCancelPc ι} (hu : s.frames u = .release r ret (.accept x nextCancel pc))
    (ht : s.frames t = .dropFuture x (.waitCancel .park))
    (hold : (s.mem.waker x).kind = .cancelled → s.Wakes t x)
    (hk : ((s.accept u r ret b x nextCancel pc).mem.waker x).kind = .cancelled) :
    (s.accept u r ret b x nextCancel pc).Wakes t x := by
  by_cases hunpark : ∃ thread, pc = .unpark thread
  · obtain ⟨thread, rfl⟩ := hunpark
    refine Or.inl ?_
    change update s.parkToken thread true t = true
    rcases hold hk with htoken | ⟨v, r', ret', nextCancel', hv⟩
    · by_cases hthread : t = thread
      · rw [hthread, update_self]
      · rwa [update_of_ne hthread]
    · have hvu : v = u := hr.pastLock_unique (by rw [hv]; rfl) (by rw [hu]; rfl)
      rw [hvu, hu] at hv
      cases hv
      exact update_self ..
  · obtain ⟨hlive, hkind, hpc⟩ := accept_kind hr hu fun thread h => hunpark ⟨thread, h⟩
    -- the thread handle is that of the thread that waits
    obtain ⟨thread, hthread, huser⟩ := hr.sim.loc.thread x hlive hkind
    have hut := (hr.sim.loc.users t x).mp (by rw [ht]; rfl)
    obtain rfl : thread = t := Option.some.inj (huser.symm.trans hut)
    rcases AtomicWaker.acceptCancel_spec b hkind hthread hpc with ⟨hw, hflow⟩ | ⟨hw, hflow⟩
    · simp only [Sys.accept, hflow, Sys.goto, Sys.runWaker, update_self, hw, hkind] at hk
      cases hk
    · refine Or.inr ⟨u, r, ret, nextCancel, ?_⟩
      simp only [Sys.accept, hflow, Sys.goto, update_self]

/-- `finish` leaves a waker alone whose cancellation has begun. -/
theorem finish_spares (hr : Represents s a) {r : Permits} {ret : Cont} {pop : Pop} {pc : FinishPc}
    (hu : s.frames u = .release r ret (.finish pop pc))
    (hk : (s.mem.waker pop.front).kind = .cancelling ∨
      (s.mem.waker pop.front).kind = .cancelled ∨ ∃ p, (s.mem.waker pop.front).kind = .finished p) :
    s.Spares u pop.front (s.finish u r ret b pop pc) := by
  obtain ⟨o, ho, hot, hrole, hreleasable, hok⟩ := hr.sim.owner_of hr.inv hu rfl
  have hspec := (s.mem.waker pop.front).finish_spec pop.releasable.isNone b hok.2.2.2.1
  have hsame {f : Frame ι} {s₁ : Sys ι} (hw : s₁.mem = (s.runWaker pop.front
      ((s.mem.waker pop.front).finish pop.releasable.isNone b pc)).mem)
      (hwaker : ((s.mem.waker pop.front).finish pop.releasable.isNone b pc).waker =
        s.mem.waker pop.front) (htoken : s₁.parkToken = s.parkToken) :
      s.Spares u pop.front (s₁.goto u f) := by
    refine ⟨?_, fun v _ hv => (congrFun htoken v).trans hv⟩
    change s₁.mem.waker pop.front = _
    rw [hw]
    exact (update_self ..).trans hwaker
  simp only [Sys.finish]
  split
  · next hflow =>
    rw [hflow] at hspec
    exact hsame rfl hspec.1 rfl
  · next pc' _ hflow =>
    rw [hflow] at hspec
    cases pc' <;> exact hsame rfl hspec.1 rfl
  · next hflow =>
    rw [hflow] at hspec
    exact hsame rfl hspec.1 rfl
  · next hflow =>
    rw [hflow] at hspec
    rcases hspec.1 with hp | hp <;> simp [hp] at hk
  · next hflow =>
    rw [hflow] at hspec
    rcases hspec.1 with hp | hp <;> simp [hp] at hk
  · next hflow =>
    rw [hflow] at hspec
    exact hspec.elim

/-- A waiter that is finished stays so while its future is borrowed, whatever others do. -/
theorem finished_kept (hr : Represents s a) (h : s.step u b = some s') (hut : t ≠ u)
    (ht : (s.frames t).uses = some x) {p : Bool} (hk : (s.mem.waker x).kind = .finished p) :
    (s'.mem.waker x).kind = .finished p := by
  by_cases hx : (s.frames u).handles = some x
  · have hother : (s.frames u).uses ≠ some x := fun hu => hut (hr.sim.loc.user_eq ht hu)
    cases hf : s.frames u with
    | release r ret pc =>
      rw [hf] at hx
      have hn : s' = s.release u r ret b pc := by
        simpa only [Sys.step, hf, Option.some.injEq, eq_comm] using h
      cases pc with
      | accept waker nextCancel pc =>
        obtain rfl : waker = x := Option.some.inj hx
        by_cases hunpark : ∃ thread, pc = .unpark thread
        · obtain ⟨thread, rfl⟩ := hunpark
          rw [hn]
          exact hk
        · rw [(accept_kind hr hf fun thread h => hunpark ⟨thread, h⟩).2.1] at hk
          cases hk
      | finish pop pc =>
        obtain rfl : pop.front = x := Option.some.inj hx
        rw [hn]
        exact (finish_spares hr hf (Or.inr (Or.inr ⟨p, hk⟩))).waker ▸ hk
      | _ => cases hx
    | idle r => rw [hf] at hx; cases hx
    | panicked => rw [hf] at hx; cases hx
    | tryAcquire n pc => rw [hf] at hx; cases hx
    | _ => rw [hf] at hx hother; exact absurd hx hother
  · exact (Sys.step_spares h hx).waker ▸ hk

/-- A step of a thread that leaves a parked one parked. -/
theorem wakes_of_step (hr : Represents s a) (h : s.step u b = some s') (hut : t ≠ u)
    (ht : s.frames t = .dropFuture x (.waitCancel .park))
    (hold : (s.mem.waker x).kind = .cancelled → s.Wakes t x)
    (hk : (s'.mem.waker x).kind = .cancelled) : s'.Wakes t x := by
  have hframes : ∀ v, v ≠ u → s'.frames v = s.frames v := by
    obtain ⟨f, hf⟩ := Sys.step_frames h
    intro v hv
    rw [hf, update_of_ne hv]
  have hspared (hsp : s.Spares u x s') (hx : (s.frames u).handles ≠ some x) : s'.Wakes t x :=
    (hold (hsp.waker ▸ hk)).spared hframes hut hx hsp
  by_cases hx : (s.frames u).handles = some x
  · have hother : (s.frames u).uses ≠ some x := fun hu =>
      hut (hr.sim.loc.user_eq (by rw [ht]; rfl) hu)
    cases hf : s.frames u with
    | release r ret pc =>
      rw [hf] at hx
      have hn : s' = s.release u r ret b pc := by
        simpa only [Sys.step, hf, Option.some.injEq, eq_comm] using h
      cases pc with
      | accept waker nextCancel pc =>
        obtain rfl : waker = x := Option.some.inj hx
        rw [hn] at hk ⊢
        exact wakes_of_accept hr hf ht hold hk
      | finish pop pc =>
        obtain rfl : pop.front = x := Option.some.inj hx
        have hsp : s.Spares u pop.front s' := by
          rw [hn]
          exact finish_spares hr hf ((hr.sim.frame_ok ht).2.imp_right Or.inl)
        rcases hold (hsp.waker ▸ hk) with htoken | ⟨v, r', ret', nextCancel, hv⟩
        · exact Or.inl (hsp.token t hut htoken)
        · have hvu : v ≠ u := by
            rintro rfl
            rw [hv] at hf
            cases hf
          exact Or.inr ⟨v, r', ret', nextCancel, (hframes v hvu).trans hv⟩
      | _ => cases hx
    | idle r => rw [hf] at hx; cases hx
    | panicked => rw [hf] at hx; cases hx
    | tryAcquire n pc => rw [hf] at hx; cases hx
    | _ => rw [hf] at hx hother; exact absurd hx hother
  · exact hspared (Sys.step_spares h hx) hx

theorem Sys.Unparks.next (hr : Represents s a) (h : s.Unparks) {act : Act ι}
    (hn : s.next act = some s') : s'.Unparks := by
  intro t x ht' hk'
  cases act with
  | call u c =>
    simp only [Sys.next] at hn
    split_ifs at hn with hidle
    obtain ⟨f, hf, -⟩ := Sys.call_next hn
    obtain ⟨hw, htoken, hbegins⟩ := Sys.call_begins hn
    by_cases htu : t = u
    · rw [← htu, ht'] at hbegins
      exact hbegins.elim
    · have ht : s.frames t = .dropFuture x (.waitCancel .park) := by
        rwa [hf, update_of_ne htu] at ht'
      rw [hw] at hk'
      refine (h t x ht hk').spared (fun v hv => by rw [hf, update_of_ne hv]) htu ?_
        ⟨congrFun hw x, fun v _ hv => (congrFun htoken v).trans hv⟩
      rw [Frame.handles_idle hidle]
      simp
  | step u b =>
    by_cases htu : t = u
    · subst htu
      rw [Sys.step_parks hn ht'] at hk'
      cases hk'
    · have ht : s.frames t = .dropFuture x (.waitCancel .park) := by
        obtain ⟨f, hf⟩ := Sys.step_frames hn
        rwa [hf, update_of_ne htu] at ht'
      exact wakes_of_step hr hn htu ht (h t x ht) hk'
  | _ =>
    have hframes : ∀ v, s'.frames v = s.frames v := fun v =>
      Sys.next_frames_of_ne hn (by simp) (by simp)
    rw [hframes] at ht'
    have hlive : x ∈ s.live := (hr.sim.borrowed ht' rfl).1
    obtain ⟨hw, htokens⟩ := Sys.next_untouched hn (by simp) hlive
    rw [hw] at hk'
    rcases h t x ht' hk' with htoken | ⟨v, r, ret, nextCancel, hv⟩
    · exact Or.inl ((congrFun htokens t).trans htoken)
    · exact Or.inr ⟨v, r, ret, nextCancel, (hframes v).trans hv⟩

variable {initial : ℕ}

theorem Reachable.unparks (h : Reachable initial s) : s.Unparks := by
  refine Runs.Steps.invariant_reached (I := Sys.Unparks) (fun s act s' hs hI _ hn => ?_) ?_ h
  · obtain ⟨a, hr⟩ := Reachable.represents hs
    exact hI.next hr hn
  · intro t x ht
    cases ht

/-- When no thread is past the lock, nobody waits for the acceptance of a cancellation. -/
theorem Reachable.not_parked (h : Reachable initial s)
    (hfree : ∀ u, (s.frames u).pastLock = false) : ¬ s.Parked t := by
  rintro ⟨x, pc, ht, hwait⟩
  obtain ⟨a, hr⟩ := h.represents
  have hcancelling : (s.mem.waker x).state.load ≠ .cancelling := by
    intro hload
    obtain ⟨hrole, hlife⟩ := hr.sim.waiting ht hload
    obtain ⟨o, ho, -⟩ := hr.inv.waiting hrole hlife
    obtain ⟨r, ret, pcu, hu, hlocks, -⟩ := hr.sim.owner_role ho
    have := hfree o.thread
    rw [hu, Frame.pastLock, hlocks] at this
    cases this
  obtain ⟨rfl, htoken⟩ := hwait.resolve_left hcancelling
  have hkind : (s.mem.waker x).kind = .cancelled := by
    refine (hr.sim.frame_ok ht).2.resolve_left fun hk => ?_
    exact hcancelling (State.kind_eq_cancelling hk)
  rcases h.unparks t x ht hkind with hset | ⟨u, r, ret, nextCancel, hu⟩
  · rw [htoken] at hset
    cases hset
  · have := hfree u
    rw [hu] at this
    cases this

end WeightedSemaphore
