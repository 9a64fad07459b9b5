import WeightedSemaphore.Wakeups

/-!
# Every step keeps track of the wakers

One lemma for each method. The exchange of `finish` is the only step that needs a bound on the run:
while fewer polls than the sequence number can count return `Pending` between its load of the state
and the exchange, the two words it has read are those of the waker registered last.
-/

namespace WeightedSemaphore

open AtomicWaker (PollPc FinishPc AcceptCancelPc StartCancelPc WaitCancelPc)
open Function (update update_self update_of_ne update_eq_self)
open Waker (State Kind)
open Protocol (Inv)

variable [Usize] {ι : Type}

theorem AtomicWaker.Unmoved.update {w : AtomicWaker ι} {waker : Ptr → AtomicWaker ι} {x : Ptr}
    (h : (waker x).Unmoved w) (y : Ptr) : (waker y).Unmoved (update waker x w y) := by
  by_cases hy : y = x
  · subst hy
    rwa [update_self]
  · rw [update_of_ne hy]
    exact .refl _

theorem AtomicWaker.Cancels.update {w : AtomicWaker ι} {waker : Ptr → AtomicWaker ι} {x : Ptr}
    (h : (waker x).Cancels w) (y : Ptr) : (waker y).Cancels (update waker x w y) := by
  by_cases hy : y = x
  · subst hy
    rwa [update_self]
  · rw [update_of_ne hy]
    exact .refl _

/-- A waiter in state `Storing` is being polled. -/
theorem Local.storing {s : Sys ι} {x : Ptr} (h : Local s) (hx : x ∈ s.live)
    (hst : s.mem.step x = .waiting) (hk : (s.mem.waker x).kind = .storing) :
    ∃ t tok pc, s.frames t = .pollWaiting x tok pc ∧ pc.Stores := by
  have hrest : ¬ (s.mem.waker x).kind.Rest := by simp [hk, Kind.Rest]
  cases hu : s.user x with
  | none => exact absurd (h.resting x hx hu).rest hrest
  | some t =>
    have huses := (h.users t x).mpr hu
    have hok := h.ok t
    cases hf : s.frames t with
    | idle ret => simp [hf, Frame.uses] at huses
    | panicked => simp [hf, Frame.uses] at huses
    | tryAcquire n pc => simp [hf, Frame.uses] at huses
    | pollEnter y pc =>
      rw [hf] at huses hok
      obtain rfl := Option.some.inj huses
      cases hok.1.symm.trans hst
    | pollWaiting y tok pc =>
      rw [hf] at huses hok
      obtain rfl := Option.some.inj huses
      refine ⟨t, tok, pc, hf, ?_⟩
      obtain ⟨-, -, hpc⟩ := hok
      cases pc with
      | load => exact absurd hpc hrest
      | start current => exact absurd hpc.1 hrest
      | _ => trivial
    | release r ret pc =>
      rw [hf] at huses hok
      cases ret with
      | caller => cases huses
      | pollEnter y =>
        obtain rfl := Option.some.inj huses
        exact absurd hok.2.2 hrest
      | cancelling y =>
        obtain rfl := Option.some.inj huses
        obtain ⟨-, hk' | hk'⟩ := hok <;> cases hk.symm.trans hk'
      | gaveBack y =>
        obtain rfl := Option.some.inj huses
        obtain ⟨-, -, p, hk'⟩ := hok
        cases hk.symm.trans hk'
    | dropFuture y pc =>
      rw [hf] at huses hok
      obtain rfl := Option.some.inj huses
      cases pc with
      | startCancel pc =>
        obtain ⟨-, -, hpc⟩ := hok
        cases pc with
        | load => exact absurd hpc hrest
        | exchange current => exact absurd hpc.1 hrest
      | loadCancel => cases hk.symm.trans hok.2
      | pushCancel current => cases hk.symm.trans hok.2
      | waitCancel pc => obtain ⟨-, hk' | hk'⟩ := hok <;> cases hk.symm.trans hk'
      | waker =>
        rcases hok.1 with hk' | hk'
        · exact absurd hk' hrest
        · cases hk.symm.trans hk'

/-- Fewer polls returned `Pending` than the sequence number can count since `finish` has read the
state that it is about to exchange. -/
def Sys.Unwrapped (s : Sys ι) : Prop :=
  ∀ t r ret pop current data vtable,
    s.frames t = .release r ret (.finish pop (.exchange current data vtable)) →
      Tokens.since (s.ghost.uid pop.front) s.ghost.tokens < payload

variable [DecidableEq ι] {s s' : Sys ι} {a : Protocol.State ι Ptr} {t : ι} {x : Ptr}
  {spurious : Bool} {r : Permits} {ret : Cont}

namespace Tracks

theorem tryAcquire (h : Tracks s) {n : ℕ} {pc : TryAcquirePc}
    (hf : s.frames t = .tryAcquire n pc) : Tracks (s.tryAcquire t n spurious pc) := by
  have hn (x : Ptr) : ¬ (s.frames t).Notifies x := by rw [hf]; exact id
  cases pc with
  | load => exact h.goto rfl hn trivial rfl rfl rfl rfl rfl rfl rfl
  | loop current =>
    simp only [Sys.tryAcquire]
    cases current with
    | queued back => exact h.goto rfl hn trivial rfl rfl rfl rfl rfl rfl rfl
    | available q =>
      dsimp only
      split
      · exact h.goto rfl hn trivial rfl rfl rfl rfl rfl rfl rfl
      · split_ifs
        · exact h.goto rfl hn trivial rfl rfl rfl rfl rfl rfl rfl
        · split <;> exact h.goto rfl hn trivial rfl rfl rfl rfl rfl rfl rfl

theorem pollEnter (h : Tracks s) (hr : Represents s a) {pc : EnterPc}
    (hf : s.frames t = .pollEnter x pc) : Tracks (s.pollEnter t x spurious pc) := by
  obtain ⟨hstep, hpc⟩ := hr.sim.frame_ok hf
  have hu : (s.frames t).uses = some x := by rw [hf]; rfl
  have hn (x : Ptr) : ¬ (s.frames t).Notifies x := by rw [hf]; exact id
  have htr := h.frames t
  rw [hf] at htr
  -- a poll that returns `Ready` is over
  have ready {s' : Sys ι} {res : Ret} (hframes : s'.frames = update s.frames t (.idle res))
      (hw : s'.mem.waker = s.mem.waker) (hst : s'.mem.step = update s.mem.step x .done)
      (hlive : s'.live = s.live) (hclaim : s'.ghost.claimed = s.ghost.claimed)
      (htok : s'.ghost.tokens = s.ghost.tokens) (huid : s'.ghost.uid = s.ghost.uid)
      (hnext : s'.ghost.nextUid = s.ghost.nextUid) : Tracks s' := by
    refine h.keep hframes (fun y _ _ => hn y) trivial (fun y => by rw [hw]; exact .refl _)
      (fun y _ p hk => Or.inl (by rwa [hw] at hk)) (by rw [htok]; exact .refl _)
      (fun y hy => hlive ▸ hy) (fun y _ hy => Or.inl ?_) (fun y hy => by rwa [hclaim] at hy) huid
      hnext
    rw [hst] at hy
    by_cases hyx : y = x
    · subst hyx
      rw [update_self] at hy
      cases hy
    · rwa [update_of_ne hyx] at hy
  cases pc with
  | load => exact h.goto rfl hn trivial rfl rfl rfl rfl rfl rfl rfl
  | loop current =>
    simp only [Sys.pollEnter]
    cases current with
    | queued back => exact h.goto rfl hn trivial rfl rfl rfl rfl rfl rfl rfl
    | available q =>
      dsimp only
      split
      · exact ready rfl rfl rfl rfl rfl rfl rfl rfl
      · split_ifs
        · split
          · exact ready rfl rfl rfl rfl rfl rfl rfl rfl
          · exact h.goto rfl hn trivial rfl rfl rfl rfl rfl rfl rfl
        · exact h.goto rfl hn trivial rfl rfl rfl rfl rfl rfl rfl
  | poll current available back tok pc =>
    obtain ⟨hpoll, hnf, -⟩ := hpc
    have hstored := (s.mem.waker x).poll_stored spurious hpoll htr
    obtain ⟨-, hspec⟩ := AtomicWaker.poll_spec tok spurious hpoll
    simp only [Sys.pollEnter]
    cases hflow : ((s.mem.waker x).poll tok spurious pc).flow with
    | goto pc' =>
      rw [hflow] at hstored
      obtain ⟨hst, -, hpend, hfin, hahead⟩ := hstored
      refine h.store hr.sim hu rfl rfl (s.runWaker_tokens x _) rfl rfl rfl rfl rfl
        (fun y hy => absurd hy (hn y)) ?_ hpend hfin hahead
      change pc'.Stored (update s.mem.waker x _ x) tok
      rwa [update_self]
    | ret res =>
      cases res with
      | pending =>
        rw [hflow] at hstored hspec
        obtain ⟨hdrop, hd, hv, hahead⟩ := hstored
        refine h.registered hr.sim hr.inv hr.hist hu rfl rfl ?_ rfl rfl rfl rfl rfl
          (fun y hy => absurd hy (hn y)) hspec.2 ?_ hd hv hahead
        · simp [Sys.goto, Sys.logToken, Sys.runWaker, hdrop]
        · change Tokens.last (s.ghost.uid x) (.registered (s.ghost.uid x) tok :: _) ≠ none
          rw [Tokens.last_registered]
          simp
      | ready p =>
        rw [hflow] at hspec
        exact absurd hspec.1 (hnf p)
    | panic =>
      rw [hflow] at hspec
      exact hspec.elim
  | push current available back =>
    simp only [Sys.pollEnter]
    split
    · refine h.keep rfl (fun y _ _ => hn y) trivial (fun y => .refl _) (fun y _ p => Or.inl)
        (.refl _) (fun y => id) (fun y _ hy => ?_) (fun y => id) rfl rfl
      by_cases hyx : y = x
      · subst hyx
        exact Or.inr ⟨htr, hpc.1⟩
      · exact Or.inl ((update_of_ne hyx _ _).symm.trans hy)
    · exact h.goto rfl hn trivial rfl rfl rfl rfl rfl rfl rfl

theorem pollWaiting (h : Tracks s) (hr : Represents s a) {tok : ℕ} {pc : PollPc}
    (hf : s.frames t = .pollWaiting x tok pc) : Tracks (s.pollWaiting t x tok spurious pc) := by
  obtain ⟨hstep, hnc, hpoll⟩ := hr.sim.frame_ok hf
  have hu : (s.frames t).uses = some x := by rw [hf]; rfl
  have hn (y : Ptr) (hy : (s.frames t).Notifies y) : y = x ∧ pc.Stores := by
    rw [hf] at hy
    exact ⟨hy.1.symm, hy.2⟩
  have htr := h.frames t
  rw [hf] at htr
  have hstored := (s.mem.waker x).poll_stored spurious hpoll htr
  obtain ⟨-, hspec⟩ := AtomicWaker.poll_spec tok spurious hpoll
  simp only [Sys.pollWaiting]
  have ready {s' : Sys ι} {res : Ret} (hframes : s'.frames = update s.frames t (.idle res))
      (hw : s'.mem.waker = s.mem.waker) (hst : s'.mem.step = update s.mem.step x .done)
      (hlive : s'.live = s.live) (hclaim : s'.ghost.claimed = update s.ghost.claimed x true)
      (htok : Tokens.Same s.ghost.tokens s'.ghost.tokens) (huid : s'.ghost.uid = s.ghost.uid)
      (hnext : s'.ghost.nextUid = s.ghost.nextUid) : Tracks s' := by
    have hne {y : Ptr} (hy : s'.mem.step y = .waiting) : y ≠ x := by
      rintro rfl
      rw [hst, update_self] at hy
      cases hy
    refine h.keep hframes (fun y _ hy hy' => hne hy (hn y hy').1) trivial
      (fun y => by rw [hw]; exact .refl _) (fun y _ p hk => Or.inl (by rwa [hw] at hk)) htok
      (fun y hy => hlive ▸ hy) (fun y _ hy => Or.inl ?_) (fun y hy => ?_) huid hnext
    · have hyx := hne hy
      rwa [hst, update_of_ne hyx] at hy
    · rw [hclaim] at hy
      by_cases hyx : y = x
      · subst hyx
        rw [update_self] at hy
        cases hy
      · rwa [update_of_ne hyx] at hy
  cases hflow : ((s.mem.waker x).poll tok spurious pc).flow with
  | goto pc' =>
    rw [hflow] at hstored
    obtain ⟨hst, hstores, hpend, hfin, hahead⟩ := hstored
    refine h.store hr.sim hu rfl rfl (s.runWaker_tokens x _) rfl rfl rfl rfl rfl (fun y hy => ?_) ?_
      hpend hfin hahead
    · obtain ⟨rfl, hpc⟩ := hn y hy
      exact ⟨tok, pc', rfl, hstores hpc⟩
    · change pc'.Stored (update s.mem.waker x _ x) tok
      rwa [update_self]
  | ret res =>
    cases res with
    | pending =>
      rw [hflow] at hstored hspec
      obtain ⟨hdrop, hd, hv, hahead⟩ := hstored
      refine h.registered hr.sim hr.inv hr.hist hu rfl rfl ?_ rfl rfl rfl rfl rfl
        (fun y hy => (hn y hy).1) hspec.2 trivial hd hv hahead
      simp [Sys.goto, Sys.setUser, Sys.logToken, Sys.runWaker, hdrop]
    | ready p =>
      rw [hflow] at hspec
      have hw := congrArg Waiters.waker (Sys.runWaker_eq (s := s) hspec.2)
      cases p with
      | false => exact ready rfl hw rfl rfl rfl (s.runWaker_tokens x _) rfl rfl
      | true => exact ready rfl hw rfl rfl rfl (s.runWaker_tokens x _) rfl rfl
  | panic =>
    rw [hflow] at hspec
    exact hspec.elim

theorem afterRelease (h : Tracks s) (hn : ∀ x, ¬ (s.frames t).Notifies x)
    (release : Atomic ReleaseState) :
    Tracks ({ s with sem.release := release }.afterRelease t ret) := by
  cases ret <;> exact h.goto rfl hn trivial rfl rfl rfl rfl rfl rfl rfl

theorem lockOrElseDefer (h : Tracks s) (hn : ∀ x, ¬ (s.frames t).Notifies x)
    (current : ReleaseState) : Tracks (s.lockOrElseDefer t r ret spurious current) := by
  simp only [Sys.lockOrElseDefer]
  cases current <;> dsimp only <;> split
  all_goals first
    | exact h.goto rfl hn trivial rfl rfl rfl rfl rfl rfl rfl
    | exact h.afterRelease hn _

theorem tryUnlock (h : Tracks s) (hn : ∀ x, ¬ (s.frames t).Notifies x)
    (current : ReleaseState) : Tracks (s.tryUnlock t r ret spurious current) := by
  simp only [Sys.tryUnlock]
  cases current with
  | unlocked q => exact h.goto rfl hn trivial rfl rfl rfl rfl rfl rfl rfl
  | locked =>
    dsimp only
    split
    · exact h.afterRelease hn _
    · exact h.goto rfl hn trivial rfl rfl rfl rfl rfl rfl rfl
  | lockedDirty q =>
    dsimp only
    split <;> exact h.goto rfl hn trivial rfl rfl rfl rfl rfl rfl rfl

theorem flip (h : Tracks s) (hn : ∀ x, ¬ (s.frames t).Notifies x) {nextCancel : Ptr}
    (current : AcquireState) : Tracks (s.flip t r ret spurious nextCancel current) := by
  simp only [Sys.flip]
  cases current with
  | available q =>
    dsimp only
    split
    · split_ifs <;> exact h.goto rfl hn trivial rfl rfl rfl rfl rfl rfl rfl
    · exact h.goto rfl hn trivial rfl rfl rfl rfl rfl rfl rfl
  | queued back =>
    dsimp only
    split_ifs
    · split <;> exact h.goto rfl hn trivial rfl rfl rfl rfl rfl rfl rfl
    · exact h.goto rfl hn trivial rfl rfl rfl rfl rfl rfl rfl
    · split <;> exact h.goto rfl hn trivial rfl rfl rfl rfl rfl rfl rfl

theorem cancels (h : Tracks s) {w : AtomicWaker ι} {f : Frame ι}
    (hw : (s.mem.waker x).Cancels w) (hframes : s'.frames = update s.frames t f)
    (hn : ∀ x, ¬ (s.frames t).Notifies x)
    (hf : f.Tracked s.mem.waker s.ghost.uid s.ghost.tokens)
    (hwaker : s'.mem.waker = update s.mem.waker x w)
    (ht : Tokens.Same s.ghost.tokens s'.ghost.tokens) (hlive : ∀ y ∈ s'.live, y ∈ s.live)
    (hstep : s'.mem.step = s.mem.step)
    (hclaim : ∀ y, s'.ghost.claimed y = false → s.ghost.claimed y = false)
    (huid : s'.ghost.uid = s.ghost.uid) (hnext : s'.ghost.nextUid = s.ghost.nextUid) :
    Tracks s' := by
  have hall (y : Ptr) : (s.mem.waker y).Cancels (s'.mem.waker y) := by
    rw [hwaker]
    exact hw.update y
  exact h.keep hframes (fun y _ _ => hn y) hf (fun y => (hall y).unmoved)
    (fun y _ p hk => Or.inl ((hall y).finished hk)) ht hlive
    (fun y _ hy => Or.inl (by rwa [hstep] at hy)) hclaim huid hnext

theorem accept (h : Tracks s) (hn : ∀ x, ¬ (s.frames t).Notifies x) {nextCancel : Ptr}
    (pc : AcceptCancelPc ι) : Tracks (s.accept t r ret spurious x nextCancel pc) := by
  have hw := (s.mem.waker x).acceptCancel_cancels spurious pc
  have ht := s.runWaker_tokens x ((s.mem.waker x).acceptCancel spurious pc)
  simp only [Sys.accept]
  split
  · exact h.cancels hw rfl hn trivial rfl ht (fun _ => id) rfl (fun _ => id) rfl rfl
  · exact h.cancels hw rfl hn trivial rfl ht (fun _ => id) rfl (fun _ => id) rfl rfl
  · exact h.goto rfl hn trivial rfl rfl rfl rfl rfl rfl rfl
  · exact h.cancels hw rfl hn trivial rfl ht (fun _ => id) rfl (fun _ => id) rfl rfl

theorem dropFuture (h : Tracks s) {pc : DropPc} (hf : s.frames t = .dropFuture x pc)
    (hn : s.dropFuture t x spurious pc = some s') : Tracks s' := by
  have hquiet (y : Ptr) : ¬ (s.frames t).Notifies y := by rw [hf]; exact id
  have claim (y : Ptr) (hy : update s.ghost.claimed x true y = false) :
      s.ghost.claimed y = false := by
    by_cases hyx : y = x
    · subst hyx
      rw [update_self] at hy
      cases hy
    · rwa [update_of_ne hyx] at hy
  cases pc with
  | startCancel pc =>
    have hw := (s.mem.waker x).startCancel_cancels t spurious pc
    have ht := s.runWaker_tokens x ((s.mem.waker x).startCancel t spurious pc)
    simp only [Sys.dropFuture] at hn
    split at hn <;> obtain rfl := Option.some.inj hn
    · exact h.cancels hw rfl hquiet trivial rfl ht (fun _ => id) rfl (fun _ => id) rfl rfl
    · exact h.cancels hw rfl hquiet trivial rfl ht (fun _ => id) rfl (fun _ => id) rfl rfl
    · exact h.cancels hw rfl hquiet trivial rfl ht (fun _ => id) rfl (fun _ => id) rfl rfl
    · exact h.cancels hw rfl hquiet trivial rfl ht (fun _ => id) rfl claim rfl rfl
    · exact h.cancels hw rfl hquiet trivial rfl ht (fun _ => id) rfl (fun _ => id) rfl rfl
  | loadCancel =>
    obtain rfl := Option.some.inj hn
    exact h.goto rfl hquiet trivial rfl rfl rfl rfl rfl rfl rfl
  | pushCancel current =>
    simp only [Sys.dropFuture] at hn
    split at hn <;> obtain rfl := Option.some.inj hn <;>
      exact h.goto rfl hquiet trivial rfl rfl rfl rfl rfl rfl rfl
  | waitCancel pc =>
    cases pc with
    | load =>
      have hw := (s.mem.waker x).waitCancel_cancels .load
      have ht := s.runWaker_tokens x ((s.mem.waker x).waitCancel .load)
      simp only [Sys.dropFuture] at hn
      split at hn <;> obtain rfl := Option.some.inj hn <;>
        exact h.cancels hw rfl hquiet trivial rfl ht (fun _ => id) rfl (fun _ => id) rfl rfl
    | park =>
      simp only [Sys.dropFuture] at hn
      split_ifs at hn
      obtain rfl := Option.some.inj hn
      exact h.goto rfl hquiet trivial rfl rfl rfl rfl rfl rfl rfl
  | waker =>
    have hw := (s.mem.waker x).drop_cancels (s.panicking t)
    have ht := s.runWaker_tokens x ((s.mem.waker x).drop (s.panicking t))
    simp only [Sys.dropFuture] at hn
    split at hn <;> obtain rfl := Option.some.inj hn
    · exact h.cancels hw rfl hquiet trivial rfl ht (fun _ => id) rfl (fun _ => id) rfl rfl
    · exact h.cancels hw rfl hquiet trivial rfl ht (fun y => Finset.mem_of_mem_erase) rfl
        (fun _ => id) rfl rfl

/-- The exchange that finishes the front of the queue. -/
theorem finish_front (h : Tracks s) {pop : Pop} {pc : FinishPc}
    (hf : s.frames t = .release r ret (.finish pop pc)) {f : Frame ι} {p : Bool}
    (hframes : s'.frames = update s.frames t f)
    (hft : f.Tracked s.mem.waker s.ghost.uid s.ghost.tokens)
    (hwaker : s'.mem.waker = update s.mem.waker pop.front
      { s.mem.waker pop.front with state := .new (.finished p) })
    (hnotify : Notified s'.frames s.ghost.tokens pop.front (s.ghost.uid pop.front))
    (hstep : s'.mem.step = s.mem.step) (hlive : s'.live = s.live)
    (hclaim : s'.ghost.claimed = s.ghost.claimed) (htok : s'.ghost.tokens = s.ghost.tokens)
    (huid : s'.ghost.uid = s.ghost.uid) (hnext : s'.ghost.nextUid = s.ghost.nextUid) :
    Tracks s' := by
  have hmoved : AtomicWaker.Unmoved (s.mem.waker pop.front)
      { s.mem.waker pop.front with state := .new (.finished p) } := by
    refine ⟨rfl, rfl, Or.inr ?_⟩
    rw [AtomicWaker.kind_new_state]
    simp [State.kind]
  refine h.keep hframes (fun y _ _ => by rw [hf]; exact id) hft (fun y => ?_) (fun y hy q hk => ?_)
    (by rw [htok]; exact .refl _) (fun y hy => hlive ▸ hy)
    (fun y _ hy => Or.inl (by rwa [hstep] at hy))
    (fun y hy => by rwa [hclaim] at hy) huid hnext
  · rw [hwaker]
    exact hmoved.update y
  · by_cases hyx : y = pop.front
    · rw [hyx, htok]
      exact Or.inr hnotify
    · rw [hwaker, update_of_ne hyx] at hk
      exact Or.inl hk

theorem finish (h : Tracks s) (hr : Represents s a) (hwrap : s.Unwrapped) {pop : Pop}
    {pc : FinishPc} (hf : s.frames t = .release r ret (.finish pop pc)) :
    Tracks (s.finish t r ret spurious pop pc) := by
  have hn (x : Ptr) : ¬ (s.frames t).Notifies x := by rw [hf]; exact id
  obtain ⟨o, ho, -, -, -, hphase, -, hpop, hpc, -⟩ := hr.sim.owner_of hr.inv hf rfl
  have hlive := hr.sim.finish_live hr.inv hf
  have htr : pc.Saw (s.mem.waker pop.front)
      (Tokens.since (s.ghost.uid pop.front) s.ghost.tokens) := by
    have := h.frames t
    rwa [hf] at this
  -- the front of the queue waits
  have hstep (hk : (s.mem.waker pop.front).kind = .pending ∨
      (s.mem.waker pop.front).kind = .storing) : s.mem.step pop.front = .waiting := by
    obtain ⟨rest, hl⟩ := hpop.1
    have hmem : pop.front ∈ a.linked := by rw [hl]; simp
    rcases hr.inv.linked_queue hmem with hq | hq
    · exact (Sys.lifeOf_reachable ((hr.sim.view.life _).symm.trans hq) (by simp)).2.1
    · exact (Sys.lifeOf_reachable ((hr.sim.view.life _).symm.trans hq) (by simp)).2.1
  have reload : Tracks (((s.runWaker pop.front (ρ := AtomicWaker.FinishResult)
      ⟨s.mem.waker pop.front, .goto (FinishPc.test (s.mem.waker pop.front).state.load),
        none⟩).logToken
        (.observed (s.ghost.uid pop.front))).goto t
          (.release r ret (.finish pop (.test (s.mem.waker pop.front).state.load)))) :=
    h.observed hr.sim hr.inv hf rfl (update_eq_self ..) rfl rfl rfl rfl rfl rfl
  cases pc with
  | load => exact reload
  | test current =>
    cases current with
    | pending q =>
      exact h.goto rfl hn ⟨htr, fun _ _ => rfl⟩ (update_eq_self ..) rfl rfl rfl rfl rfl rfl
    | storing q =>
      simp only [Sys.finish, AtomicWaker.finish]
      cases hx : (s.mem.waker pop.front).state.cmpxchgWeak (.storing q)
        (.finished pop.releasable.isNone) spurious with
      | none => exact reload
      | some state =>
        obtain ⟨hk, rfl⟩ := AtomicWaker.kind_of_cmpxchgWeak hx
        obtain ⟨u, tok, pc, hfu, hpc⟩ := hr.sim.loc.storing hlive (hstep (Or.inr hk)) hk
        have hut : u ≠ t := by
          rintro rfl
          cases hf.symm.trans hfu
        exact h.finish_front hf rfl trivial rfl
          (Or.inl ⟨u, tok, pc, (update_of_ne hut _ _).trans hfu, hpc⟩) rfl rfl rfl rfl rfl rfl
    | cancelling => exact h.goto rfl hn trivial (update_eq_self ..) rfl rfl rfl rfl rfl rfl
    | finished p => exact h.goto rfl hn trivial (update_eq_self ..) rfl rfl rfl rfl rfl rfl
    | cancelled => exact h.goto rfl hn trivial (update_eq_self ..) rfl rfl rfl rfl rfl rfl
  | loadVtable current data =>
    obtain ⟨q, rfl⟩ := State.kind_eq_pending hpc
    obtain ⟨ha, hd⟩ := htr
    exact h.goto rfl hn ⟨ha, fun hm hk => ⟨hd hm hk, rfl⟩⟩ (update_eq_self ..)
      rfl rfl rfl rfl rfl rfl
  | exchange current data vtable =>
    obtain ⟨q, rfl⟩ := State.kind_eq_pending hpc
    simp only [Sys.finish, AtomicWaker.finish]
    cases hx : (s.mem.waker pop.front).state.cmpxchgWeak (.pending q)
      (.finished pop.releasable.isNone) spurious with
    | none => exact reload
    | some state =>
      obtain ⟨hw, -⟩ := Atomic.cmpxchgWeak_eq_some hx
      obtain ⟨hk, rfl⟩ := AtomicWaker.kind_of_cmpxchgWeak hx
      obtain ⟨ha, hd⟩ := htr
      obtain ⟨hd, hv⟩ := hd (ha.eq_zero hw (hwrap t r ret pop _ data vtable hf)) hk
      obtain ⟨tok, hlast⟩ := Option.ne_none_iff_exists'.mp
        (h.waiting _ hlive (hstep (Or.inl hk)))
      obtain ⟨hdata, hvtable⟩ := h.current _ hlive hk tok hlast
      obtain rfl : tok = data := hdata.symm.trans hd.symm
      obtain rfl : tok = vtable := hvtable.symm.trans hv.symm
      exact h.finish_front hf rfl trivial rfl
        (Or.inr (Or.inl ⟨t, _, ret, pop, tok, update_self .., hlast⟩)) rfl rfl rfl rfl rfl rfl

theorem release (h : Tracks s) (hr : Represents s a) (hwrap : s.Unwrapped) {pc : ReleasePc ι}
    (hf : s.frames t = .release r ret pc) : Tracks (s.release t r ret spurious pc) := by
  have hn (hw : ∀ pop data vtable, pc ≠ .wake pop data vtable) (x : Ptr) :
      ¬ (s.frames t).Notifies x := by
    rw [hf]
    cases pc with
    | wake pop data vtable => exact absurd rfl (hw pop data vtable)
    | _ => exact id
  cases pc with
  | lockLoad => exact h.goto rfl (hn (by simp)) trivial rfl rfl rfl rfl rfl rfl rfl
  | lock current => exact h.lockOrElseDefer (hn (by simp)) current
  | swapCancel => exact h.goto rfl (hn (by simp)) trivial rfl rfl rfl rfl rfl rfl rfl
  | flipLoad nextCancel => exact h.goto rfl (hn (by simp)) trivial rfl rfl rfl rfl rfl rfl rfl
  | flip nextCancel current => exact h.flip (hn (by simp)) current
  | walk nextCancel back waiter =>
    simp only [Sys.release, Sys.walk]
    split_ifs <;> exact h.goto rfl (hn (by simp)) trivial rfl rfl rfl rfl rfl rfl rfl
  | cancel nextCancel =>
    simp only [Sys.release, Sys.cancel]
    split_ifs <;> exact h.goto rfl (hn (by simp)) trivial rfl rfl rfl rfl rfl rfl rfl
  | accept waker nextCancel pc => exact h.accept (hn (by simp)) pc
  | tryPop =>
    simp only [Sys.release, Sys.tryPop]
    split_ifs
    · exact h.goto rfl (hn (by simp)) trivial rfl rfl rfl rfl rfl rfl rfl
    · split
      · split_ifs <;> exact h.goto rfl (hn (by simp)) trivial rfl rfl rfl rfl rfl rfl rfl
      · exact h.goto rfl (hn (by simp)) trivial rfl rfl rfl rfl rfl rfl rfl
  | finish pop pc => exact h.finish hr hwrap hf
  | wake pop data vtable => exact h.wake hf
  | relink pop => exact h.goto rfl (hn (by simp)) trivial rfl rfl rfl rfl rfl rfl rfl
  | unlockLoad => exact h.goto rfl (hn (by simp)) trivial rfl rfl rfl rfl rfl rfl rfl
  | unlock current => exact h.tryUnlock (hn (by simp)) current

theorem call (h : Tracks s) (hidle : (s.frames t).isIdle = true) {c : Call}
    (hn : s.call t c = some s') : Tracks s' := by
  have hquiet (x : Ptr) : ¬ (s.frames t).Notifies x := by
    cases hf : s.frames t with
    | idle ret => exact id
    | _ => simp [hf, Frame.isIdle] at hidle
  cases c with
  | poll x =>
    simp only [Sys.call] at hn
    split_ifs at hn
    split at hn <;> obtain rfl := Option.some.inj hn <;>
      exact h.goto rfl hquiet trivial rfl rfl rfl rfl rfl rfl rfl
  | dropFuture x =>
    simp only [Sys.call] at hn
    split_ifs at hn
    split at hn <;> obtain rfl := Option.some.inj hn <;>
      exact h.goto rfl hquiet trivial rfl rfl rfl rfl rfl rfl rfl
  | tryAcquire n =>
    obtain rfl := Option.some.inj hn
    exact h.goto rfl hquiet trivial rfl rfl rfl rfl rfl rfl rfl
  | release n =>
    obtain rfl := Option.some.inj hn
    exact h.goto rfl hquiet trivial rfl rfl rfl rfl rfl rfl rfl
  | poison =>
    obtain rfl := Option.some.inj hn
    exact h.goto rfl hquiet trivial rfl rfl rfl rfl rfl rfl rfl
  | dropGuard i =>
    simp only [Sys.call] at hn
    split at hn
    · cases hn
    · split_ifs at hn <;> obtain rfl := Option.some.inj hn <;>
        exact h.goto rfl hquiet trivial rfl rfl rfl rfl rfl rfl rfl

theorem step (h : Tracks s) (hr : Represents s a) (hwrap : s.Unwrapped)
    (hn : s.step t spurious = some s') : Tracks s' := by
  unfold Sys.step at hn
  cases hf : s.frames t with
  | idle ret => simp [hf] at hn
  | panicked => simp [hf] at hn
  | tryAcquire n pc =>
    rw [hf] at hn
    obtain rfl := Option.some.inj hn
    exact h.tryAcquire hf
  | pollEnter x pc =>
    rw [hf] at hn
    obtain rfl := Option.some.inj hn
    exact h.pollEnter hr hf
  | pollWaiting x tok pc =>
    rw [hf] at hn
    obtain rfl := Option.some.inj hn
    exact h.pollWaiting hr hf
  | release r ret pc =>
    rw [hf] at hn
    obtain rfl := Option.some.inj hn
    exact h.release hr hwrap hf
  | dropFuture x pc =>
    rw [hf] at hn
    exact h.dropFuture hf hn

theorem next (h : Tracks s) (hr : Represents s a) (hwrap : s.Unwrapped) {act : Act ι}
    (hn : s.next act = some s') : Tracks s' := by
  cases act with
  | call t c =>
    simp only [Sys.next] at hn
    split_ifs at hn with hidle
    exact h.call hidle hn
  | step t spurious => exact h.step hr hwrap hn
  | acquire x n => exact h.create hr.sim hr.inv hn
  | forget i =>
    simp only [Sys.next, Sys.forget] at hn
    split at hn
    · cases hn
    · obtain rfl := Option.some.inj hn
      exact ⟨h.known, h.current, h.waiting, h.frames, h.finished⟩
  | setPanicking t panicking =>
    simp only [Sys.next] at hn
    split_ifs at hn
    obtain rfl := Option.some.inj hn
    exact ⟨h.known, h.current, h.waiting, h.frames, h.finished⟩

end Tracks

end WeightedSemaphore
