import WeightedSemaphore.Exchanges
import WeightedSemaphore.Parking

/-!
# The exchanges of a call in `release`

A step of `release` that spends no exchanges changes neither a waker nor a word of the semaphore: it
fails an exchange, adds a next edge, or leads to the next access.
-/

namespace WeightedSemaphore

open Function (update update_self update_of_ne update_eq_self)
open AtomicWaker (FinishPc AcceptCancelPc)
open Waker (State Kind)

variable [Usize] {ι : Type}

/-- A step of `release` that changes neither the words nor the wakers. -/
structure Sys.KeepsWakers (s : Sys ι) (t : ι) (d : Deed) (s' : Sys ι) : Prop extends
    s.KeepsWords t s' where
  wakers : s'.mem.waker = s.mem.waker
  deed : d.charged = true → d = .retried ∨ ∃ u, d = .visited u

variable {s s' : Sys ι} {t : ι} {r : Permits} {ret : Cont} {pc : ReleasePc ι} {f : Frame ι}

theorem Sys.KeepsWakers.of_frame (hf : s.frames t = .release r ret pc) (hf' : s'.frames t = f)
    (hacquire : s'.sem.acquire = s.sem.acquire) (hrelease : s'.sem.release = s.sem.release)
    (hnext : s'.sem.nextCancel = s.sem.nextCancel) (hlive : s'.live = s.live)
    (hexch : f.exchanges = pc.exchanges) (hwaker : s'.mem.waker = s.mem.waker)
    (hdeed : (pc.deed s f).charged = true →
      pc.deed s f = .retried ∨ ∃ u, pc.deed s f = .visited u) :
    s.KeepsWakers t (pc.deed s (s'.frames t)) s' where
  toKeepsWords := .of_frame hf hf' hacquire hrelease hnext hlive hexch hwaker
  wakers := hwaker
  deed := by rwa [hf']

variable [DecidableEq ι] {spurious : Bool} {a : Protocol.State ι Ptr}

def Sys.SpendsOrKeeps (s : Sys ι) (t : ι) (pc : ReleasePc ι) (s' : Sys ι) : Prop :=
  s.Spends t s' ∨ s.KeepsWakers t (pc.deed s (s'.frames t)) s'

namespace Sys

theorem SpendsOrKeeps.goto {r' : Permits} {pc' : ReleasePc ι} (hf : s.frames t = .release r ret pc)
    (hexch : pc'.exchanges = pc.exchanges)
    (hdeed : (pc.deed s (.release r' ret pc')).charged = true →
      pc.deed s (.release r' ret pc') = .retried ∨
        ∃ u, pc.deed s (.release r' ret pc') = .visited u) :
    s.SpendsOrKeeps t pc (s.goto t (.release r' ret pc')) :=
  Or.inr (.of_frame hf (update_self ..) rfl rfl rfl rfl hexch rfl hdeed)

omit [DecidableEq ι] in
theorem SpendsOrKeeps.spend (hf : s.frames t = .release r ret pc) (hf' : s'.frames t = f)
    (hheld : s'.held.exchanges ≤ s.held.exchanges) (hlive : s'.live = s.live)
    (hwaker : s'.mem.waker = s.mem.waker) (h : f.exchanges < pc.exchanges) :
    s.SpendsOrKeeps t pc s' :=
  Or.inl (.of_frame hf hf' hlive.subset (fun b => by rw [hwaker])
    (Nat.add_lt_add_of_lt_of_le h hheld))

omit [DecidableEq ι] in
/-- The exchange that finishes or cancels a waiter. -/
theorem SpendsOrKeeps.settle {a : Ptr} {w : AtomicWaker ι} (hf : s.frames t = .release r ret pc)
    (hf' : s'.frames t = f) (ha : a ∈ s.live) (hlive : s'.live = s.live)
    (hrelease : s'.sem.release = s.sem.release) (hwaker : s'.mem.waker = update s.mem.waker a w)
    (h : f.exchanges + w.kind.exchanges < pc.exchanges + (s.mem.waker a).kind.exchanges) :
    s.SpendsOrKeeps t pc s' :=
  Or.inl (.of_waker hf hf' ha hlive (by rw [held, held, hrelease]) hwaker h)

theorem afterRelease_exchanges : ((s.afterRelease t ret).frames t).exchanges ≤ 2 := by
  cases ret <;> simp [afterRelease, goto, setUser, Frame.exchanges, DropPc.exchanges]

/-- The return from `release` pays for a release word that gets dirty. -/
theorem SpendsOrKeeps.afterRelease (hf : s.frames t = .release r ret pc) (hlive : s'.live = s.live)
    (hwaker : s'.mem.waker = s.mem.waker)
    (h : 2 + s'.held.exchanges < pc.exchanges + s.held.exchanges) :
    s.SpendsOrKeeps t pc (s'.afterRelease t ret) := by
  have hexch : ((s'.afterRelease t ret).frames t).exchanges ≤ 2 := afterRelease_exchanges
  have hheld : (s'.afterRelease t ret).held = s'.held := by cases ret <;> rfl
  refine Or.inl (.of_frame hf rfl ?_ (fun b => ?_) ?_)
  · cases ret <;> exact hlive.subset
  · rw [← hwaker]
    cases ret <;> exact le_rfl
  · rw [hheld]
    change _ < pc.exchanges + _
    omega

theorem lockOrElseDefer_spendsOrKeeps {current : ReleaseState}
    (hf : s.frames t = .release r ret (.lock current)) :
    s.SpendsOrKeeps t (.lock current) (s.lockOrElseDefer t r ret spurious current) := by
  have hretry : s.SpendsOrKeeps t (.lock current)
      (s.goto t (.release r ret (.lock s.sem.release.load))) :=
    .goto hf rfl fun _ => Or.inl rfl
  cases current with
  | unlocked available =>
    simp only [lockOrElseDefer]
    cases hx : s.sem.release.cmpxchgWeak (.unlocked available) .locked spurious with
    | some release =>
      obtain ⟨hold, rfl, -⟩ := Atomic.cmpxchgWeak_eq_some hx
      refine .spend hf (update_self ..) ?_ rfl rfl (Nat.lt_succ_self 7)
      rw [held_eq rfl, held_eq hold]
      exact le_rfl
    | none => exact hretry
  | locked =>
    simp only [lockOrElseDefer]
    cases hx : s.sem.release.cmpxchgWeak .locked (.lockedDirty r) spurious with
    | some release =>
      obtain ⟨hold, rfl, -⟩ := Atomic.cmpxchgWeak_eq_some hx
      refine .afterRelease hf rfl rfl ?_
      rw [held_eq rfl, held_eq hold]
      simp [ReleasePc.exchanges, ReleaseState.held, Held.exchanges]
    | none => exact hretry
  | lockedDirty available =>
    simp only [lockOrElseDefer]
    cases hx : s.sem.release.cmpxchgWeak (.lockedDirty available) (.lockedDirty (available + r))
        spurious with
    | some release =>
      obtain ⟨hold, rfl, -⟩ := Atomic.cmpxchgWeak_eq_some hx
      refine .afterRelease hf rfl rfl ?_
      rw [held_eq rfl, held_eq hold]
      simp [ReleasePc.exchanges, ReleaseState.held, Held.exchanges]
    | none => exact hretry

theorem flip_spendsOrKeeps {nextCancel : Ptr} {current : AcquireState}
    (hf : s.frames t = .release r ret (.flip nextCancel current)) :
    s.SpendsOrKeeps t (.flip nextCancel current) (s.flip t r ret spurious nextCancel current) := by
  have hretry : s.SpendsOrKeeps t (.flip nextCancel current)
      (s.goto t (.release r ret (.flip nextCancel s.sem.acquire.load))) :=
    .goto hf rfl fun _ => Or.inl rfl
  cases current with
  | available available =>
    simp only [flip]
    split
    · split_ifs
      · exact .spend hf (update_self ..) le_rfl rfl rfl (Nat.lt_succ_self 5)
      · exact .spend hf (update_self ..) le_rfl rfl rfl (Nat.succ_pos 5)
    · exact hretry
  | queued back =>
    simp only [flip]
    split_ifs
    · split
      · exact .spend hf (update_self ..) le_rfl rfl rfl (Nat.lt_succ_self 5)
      · exact hretry
    · exact .spend hf (update_self ..) le_rfl rfl rfl (Nat.lt_succ_self 5)
    · split
      · exact .spend hf (update_self ..) le_rfl rfl rfl (Nat.lt_succ_self 5)
      · exact hretry

theorem walk_spendsOrKeeps {nextCancel back waiter : Ptr}
    (hf : s.frames t = .release r ret (.walk nextCancel back waiter)) :
    s.SpendsOrKeeps t (.walk nextCancel back waiter) (s.walk t r ret nextCancel back waiter) := by
  have hdeed : ∀ f : Frame ι, ((ReleasePc.walk nextCancel back waiter).deed s f).charged = true →
      (ReleasePc.walk nextCancel back waiter).deed s f = .retried ∨
        ∃ u, (ReleasePc.walk nextCancel back waiter).deed s f = .visited u := by
    intro f hcharged
    simp only [ReleasePc.deed] at hcharged ⊢
    split_ifs at hcharged ⊢
    · cases hcharged
    · exact Or.inr ⟨_, rfl⟩
  simp only [walk]
  split_ifs <;> exact Or.inr (.of_frame hf (update_self ..) rfl rfl rfl rfl rfl rfl (hdeed _))

theorem cancel_spendsOrKeeps {nextCancel : Ptr}
    (hf : s.frames t = .release r ret (.cancel nextCancel)) :
    s.SpendsOrKeeps t (.cancel nextCancel) (s.cancel t r ret nextCancel) := by
  simp only [cancel]
  by_cases hnull : nextCancel = null
  · rw [if_pos hnull]
    exact .goto hf rfl (by simp [ReleasePc.deed, hnull, Deed.charged])
  · rw [if_neg hnull]
    exact .spend hf (update_self ..) le_rfl rfl rfl (by simp [Frame.exchanges, ReleasePc.exchanges])

theorem accept_spendsOrKeeps {waker nextCancel : Ptr} {pc : AcceptCancelPc ι}
    (hf : s.frames t = .release r ret (.accept waker nextCancel pc))
    (hlive : (∀ thread, pc ≠ .unpark thread) → waker ∈ s.live) :
    s.SpendsOrKeeps t (.accept waker nextCancel pc)
      (s.accept t r ret spurious waker nextCancel pc) := by
  cases pc with
  | load =>
    exact Or.inr (.of_frame hf (update_self ..) rfl rfl rfl rfl rfl (update_eq_self ..)
      (by simp [ReleasePc.deed, Deed.charged]))
  | exchange current =>
    have hpanic {s₁ : Sys ι} (hheld : s₁.held = s.held) (hlive₁ : s₁.live = s.live)
        (hwaker : s₁.mem.waker = s.mem.waker) :
        s.SpendsOrKeeps t (.accept waker nextCancel (.exchange current)) (s₁.goto t .panicked) :=
      .spend hf (update_self ..) (congrArg Held.exchanges hheld).le hlive₁ hwaker (Nat.succ_pos 2)
    cases current with
    | cancelling =>
      simp only [accept, AtomicWaker.acceptCancel]
      cases (s.mem.waker waker).thread with
      | none => exact hpanic rfl rfl (update_eq_self ..)
      | some thread =>
        cases hx : (s.mem.waker waker).state.cmpxchgWeak .cancelling .cancelled spurious with
        | some state =>
          obtain ⟨hkind, rfl⟩ := AtomicWaker.kind_of_cmpxchgWeak hx
          refine .settle hf (update_self ..) (hlive (by simp)) rfl rfl rfl ?_
          rw [hkind, AtomicWaker.kind, Atomic.load_new, State.kind_canon]
          exact Nat.lt_succ_self 5
        | none =>
          exact Or.inr (.of_frame hf (update_self ..) rfl rfl rfl rfl rfl (update_eq_self ..)
            fun _ => Or.inl rfl)
    | _ => exact hpanic rfl rfl (update_eq_self ..)
  | unpark thread =>
    exact Or.inr (.of_frame hf (update_self ..) rfl rfl rfl rfl rfl rfl
      (by simp [ReleasePc.deed, Deed.charged]))

theorem tryPop_spendsOrKeeps (hf : s.frames t = .release r ret .tryPop) :
    s.SpendsOrKeeps t .tryPop (s.tryPop t r ret) := by
  have hunlock : s.SpendsOrKeeps t .tryPop (s.goto t (.release r ret .unlockLoad)) := by
    refine .goto hf rfl ?_
    simp only [ReleasePc.deed]
    split_ifs <;> simp [Deed.charged]
  have hfinish {pop : Pop} :
      s.SpendsOrKeeps t .tryPop (s.goto t (.release r ret (.finish pop .load))) :=
    .goto hf rfl (by simp [ReleasePc.deed, Deed.charged])
  simp only [tryPop]
  split_ifs
  · exact hunlock
  · split
    · split_ifs
      · exact hunlock
      · exact hfinish
    · exact hfinish

theorem finish_spendsOrKeeps {pop : Pop} {pc : FinishPc}
    (hf : s.frames t = .release r ret (.finish pop pc)) (hok : pc.Ok)
    (hlive : pop.front ∈ s.live) :
    s.SpendsOrKeeps t (.finish pop pc) (s.finish t r ret spurious pop pc) := by
  have hkeep {s₁ : Sys ι} {f : Frame ι} (hf₁ : s₁.frames t = f) (hsem : s₁.sem = s.sem)
      (hlive₁ : s₁.live = s.live) (hwaker : s₁.mem.waker = s.mem.waker)
      (hexch : f.exchanges = (ReleasePc.finish pop pc : ReleasePc ι).exchanges)
      (hdeed : ((ReleasePc.finish pop pc).deed s f).charged = true →
        (ReleasePc.finish pop pc).deed s f = .retried) : s.SpendsOrKeeps t (.finish pop pc) s₁ :=
    Or.inr (.of_frame hf hf₁ (by rw [hsem]) (by rw [hsem]) (by rw [hsem]) hlive₁ hexch hwaker
      fun h => Or.inl (hdeed h))
  have hfinish {s₁ : Sys ι} {f : Frame ι} {current : State} {state : Atomic State}
      (hx : (s.mem.waker pop.front).state.cmpxchgWeak current (.finished pop.releasable.isNone)
        spurious = some state) (hk : current.kind.exchanges = 4) (hf₁ : s₁.frames t = f)
      (hlive₁ : s₁.live = s.live) (hrelease : s₁.sem.release = s.sem.release)
      (hwaker : s₁.mem.waker = update s.mem.waker pop.front
        { s.mem.waker pop.front with state := state }) (hexch : f.exchanges = 5) :
      s.SpendsOrKeeps t (.finish pop pc) s₁ := by
    obtain ⟨hkind, rfl⟩ := AtomicWaker.kind_of_cmpxchgWeak hx
    refine .settle hf hf₁ hlive hlive₁ hrelease hwaker ?_
    rw [hkind, hk, hexch]
    simp [ReleasePc.exchanges, State.kind, Kind.exchanges]
  cases pc with
  | load =>
    exact hkeep (update_self ..) rfl rfl (update_eq_self ..) rfl
      (by simp [ReleasePc.deed, Deed.charged])
  | test current =>
    cases current with
    | pending seq =>
      exact hkeep (update_self ..) rfl rfl (update_eq_self ..) rfl
        (by simp [ReleasePc.deed, Deed.charged])
    | storing seq =>
      simp only [finish, AtomicWaker.finish]
      cases hx : (s.mem.waker pop.front).state.cmpxchgWeak (.storing seq)
          (.finished pop.releasable.isNone) spurious with
      | some state => exact hfinish hx rfl (update_self ..) rfl rfl rfl rfl
      | none => exact hkeep (update_self ..) rfl rfl (update_eq_self ..) rfl fun _ => rfl
    | cancelling =>
      exact hkeep (update_self ..) rfl rfl (update_eq_self ..) rfl
        (by simp [ReleasePc.deed, Deed.charged])
    | finished p => simp [FinishPc.Ok, AtomicWaker.Reachable, State.kind] at hok
    | cancelled => simp [FinishPc.Ok, AtomicWaker.Reachable, State.kind] at hok
  | loadVtable current data =>
    exact hkeep (update_self ..) rfl rfl (update_eq_self ..) rfl
      (by simp [ReleasePc.deed, Deed.charged])
  | exchange current data vtable =>
    simp only [finish, AtomicWaker.finish]
    cases hx : (s.mem.waker pop.front).state.cmpxchgWeak current
        (.finished pop.releasable.isNone) spurious with
    | some state =>
      have hk : current.kind.exchanges = 4 := by rw [show current.kind = .pending from hok]; rfl
      exact hfinish hx hk (update_self ..) rfl rfl rfl rfl
    | none => exact hkeep (update_self ..) rfl rfl (update_eq_self ..) rfl fun _ => rfl

theorem tryUnlock_spendsOrKeeps {current : ReleaseState}
    (hf : s.frames t = .release r ret (.unlock current)) :
    s.SpendsOrKeeps t (.unlock current) (s.tryUnlock t r ret spurious current) := by
  have hretry : s.SpendsOrKeeps t (.unlock current)
      (s.goto t (.release r ret (.unlock s.sem.release.load))) :=
    .goto hf rfl fun _ => Or.inl rfl
  cases current with
  | unlocked available => exact .spend hf (update_self ..) le_rfl rfl rfl (Nat.succ_pos 4)
  | locked =>
    simp only [tryUnlock]
    cases hx : s.sem.release.cmpxchgWeak .locked (.unlocked r) spurious with
    | some release =>
      obtain ⟨hold, rfl, -⟩ := Atomic.cmpxchgWeak_eq_some hx
      refine .afterRelease hf rfl rfl ?_
      rw [held_eq rfl, held_eq hold]
      simp [ReleasePc.exchanges, ReleaseState.held, Held.exchanges]
    | none => exact hretry
  | lockedDirty available =>
    simp only [tryUnlock]
    cases hx : s.sem.release.cmpxchgWeak (.lockedDirty available) .locked spurious with
    | some release =>
      obtain ⟨hold, rfl, -⟩ := Atomic.cmpxchgWeak_eq_some hx
      -- the pass that begins is paid for by the word
      refine Or.inl (.of_frame hf (update_self ..) subset_rfl (fun b => le_rfl) ?_)
      rw [held_eq rfl, held_eq hold]
      exact Nat.lt_succ_self 7
    | none => exact hretry

theorem release_spendsOrKeeps (hr : Represents s a) (hf : s.frames t = .release r ret pc) :
    s.SpendsOrKeeps t pc (s.release t r ret spurious pc) := by
  have hplain {s₁ : Sys ι} {r₁ : Permits} {pc₁ : ReleasePc ι}
      (hf₁ : s₁.frames t = .release r₁ ret pc₁) (hacquire : s₁.sem.acquire = s.sem.acquire)
      (hrelease : s₁.sem.release = s.sem.release) (hnext : s₁.sem.nextCancel = s.sem.nextCancel)
      (hlive : s₁.live = s.live) (hwaker : s₁.mem.waker = s.mem.waker)
      (hexch : pc₁.exchanges = pc.exchanges)
      (hd : (pc.deed s (.release r₁ ret pc₁)).charged = false) : s.SpendsOrKeeps t pc s₁ :=
    Or.inr (.of_frame hf hf₁ hacquire hrelease hnext hlive hexch hwaker (by simp [hd]))
  cases pc with
  | lockLoad => exact hplain (update_self ..) rfl rfl rfl rfl rfl rfl rfl
  | lock current => exact lockOrElseDefer_spendsOrKeeps hf
  | swapCancel => exact .spend hf (update_self ..) le_rfl rfl rfl (Nat.lt_succ_self 6)
  | flipLoad nextCancel => exact hplain (update_self ..) rfl rfl rfl rfl rfl rfl rfl
  | flip nextCancel current => exact flip_spendsOrKeeps hf
  | walk nextCancel back waiter => exact walk_spendsOrKeeps hf
  | cancel nextCancel => exact cancel_spendsOrKeeps hf
  | accept waker nextCancel pc => exact accept_spendsOrKeeps hf fun hpc => (accept_kind hr hf hpc).1
  | tryPop => exact tryPop_spendsOrKeeps hf
  | finish pop pc =>
    obtain ⟨o, ho, hot, hrole, hreleasable, -, -, ⟨⟨rest, hlinked⟩, -⟩, hok, -⟩ :=
      hr.sim.owner_of hr.inv hf rfl
    have hlife := hr.inv.linked_queue (x := pop.front) (by simp [hlinked])
    rw [hr.sim.view.life] at hlife
    obtain ⟨hlive, -⟩ := Sys.lifeOf_reachable (s := s) (x := pop.front) rfl (by tauto)
    exact finish_spendsOrKeeps hf hok hlive
  | wake pop data vtable => exact hplain (update_self ..) rfl rfl rfl rfl rfl rfl rfl
  | relink pop => exact hplain (update_self ..) rfl rfl rfl rfl rfl rfl rfl
  | unlockLoad => exact hplain (update_self ..) rfl rfl rfl rfl rfl rfl rfl
  | unlock current => exact tryUnlock_spendsOrKeeps hf

/-- A step of any call spends exchanges, or keeps the words. -/
theorem step_spends (hr : Represents s a) (hn : s.step t spurious = some s') :
    s.Spends t s' ∨ s.KeepsWords t s' ∧ ∀ r ret pc, s.frames t = .release r ret pc →
      s.KeepsWakers t (pc.deed s (s'.frames t)) s' := by
  have hother (h : s.Spends t s' ∨ s.KeepsWords t s')
      (hne : ∀ r ret pc, s.frames t ≠ .release r ret pc) :
      s.Spends t s' ∨ s.KeepsWords t s' ∧ ∀ r ret pc, s.frames t = .release r ret pc →
        s.KeepsWakers t (pc.deed s (s'.frames t)) s' :=
    h.imp_right fun h => ⟨h, fun r ret pc hf => absurd hf (hne r ret pc)⟩
  unfold step at hn
  cases hf : s.frames t with
  | idle ret => simp [hf] at hn
  | panicked => simp [hf] at hn
  | tryAcquire n pc =>
    rw [hf] at hn
    obtain rfl := Option.some.inj hn
    exact hf ▸ hother (tryAcquire_spends hf) (by simp [hf])
  | pollEnter x pc =>
    rw [hf] at hn
    obtain rfl := Option.some.inj hn
    have hspends : s.Spends t (s.pollEnter t x spurious pc) ∨
        s.KeepsWords t (s.pollEnter t x spurious pc) :=
      pollEnter_spends hf (hr.sim.frame_ok hf).2 (hr.sim.borrowed hf rfl).1
    exact hf ▸ hother hspends (by simp [hf])
  | pollWaiting x tok pc =>
    rw [hf] at hn
    obtain rfl := Option.some.inj hn
    have hspends : s.Spends t (s.pollWaiting t x tok spurious pc) ∨
        s.KeepsWords t (s.pollWaiting t x tok spurious pc) :=
      pollWaiting_spends hf (hr.sim.frame_ok hf).2.2 (hr.sim.borrowed hf rfl).1
    exact hf ▸ hother hspends (by simp [hf])
  | release r ret pc =>
    rw [hf] at hn
    obtain rfl := Option.some.inj hn
    refine (release_spendsOrKeeps hr hf).imp_right fun hl => ⟨hl.toKeepsWords, ?_⟩
    rintro r₁ ret₁ pc₁ hf₁
    cases hf₁
    exact hl
  | dropFuture x pc =>
    rw [hf] at hn
    have hspends := dropFuture_spends hf (hr.sim.frame_ok hf) (hr.sim.borrowed hf rfl).1 hn
    exact hf ▸ hother hspends (by simp [hf])

end Sys

end WeightedSemaphore
