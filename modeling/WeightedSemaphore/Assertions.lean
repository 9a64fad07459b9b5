import WeightedSemaphore.QueueShape
import WeightedSemaphore.WakeupSteps

/-!
# No assertion fails

The branches that panic are never taken: this is part of the simulation of the protocol. Beside it,
every waiter that `finish` can come to has a waker registered, so `finish` never wakes through a
null vtable.
-/

namespace WeightedSemaphore

open AtomicWaker (PollPc FinishPc AcceptCancelPc)
open Function (update update_self update_of_ne)
open Packable (decode)

section

variable [Usize] {ι : Type}

namespace AtomicWaker

def PollPc.HasStored : PollPc → Prop
  | publish _ => True
  | _ => False

theorem poll_vtable {w : AtomicWaker ι} {tok : ℕ} (spurious : Bool) {pc : PollPc} (ht : 0 < tok)
    (hpc : pc.HasStored → w.vtable ≠ 0) :
    (w.vtable ≠ 0 → (w.poll tok spurious pc).waker.vtable ≠ 0) ∧
      match (w.poll tok spurious pc).flow with
      | .goto pc' => pc'.HasStored → (w.poll tok spurious pc).waker.vtable ≠ 0
      | .ret .pending => (w.poll tok spurious pc).waker.vtable ≠ 0
      | _ => True := by
  cases pc with
  | start current =>
    cases current with
    | pending seq =>
      simp only [poll]
      split <;> exact ⟨id, False.elim⟩
    | _ => exact ⟨id, trivial⟩
  | storeVtable current oldData oldVtable =>
    have htok : tok ≠ 0 := by omega
    exact ⟨fun _ => htok, fun _ => htok⟩
  | publish current =>
    cases current with
    | storing seq =>
      simp only [poll]
      split
      · exact ⟨id, hpc trivial⟩
      · exact ⟨id, fun _ => hpc trivial⟩
    | _ => exact ⟨id, trivial⟩
  | _ => exact ⟨id, False.elim⟩

theorem finish_vtable (w : AtomicWaker ι) (poisoned spurious : Bool) (pc : FinishPc) :
    (w.finish poisoned spurious pc).waker.vtable = w.vtable := by
  cases pc with
  | test current =>
    cases current with
    | storing seq =>
      simp only [finish]
      split <;> rfl
    | _ => rfl
  | exchange current data vtable =>
    simp only [finish]
    split <;> rfl
  | _ => rfl

end AtomicWaker

def Frame.Registers (waker : Ptr → AtomicWaker ι) : Frame ι → Prop
  | pollEnter x (.poll _ _ _ tok pc) => 0 < tok ∧ (pc.HasStored → (waker x).vtable ≠ 0)
  | pollEnter x (.push _ _ _) => (waker x).vtable ≠ 0
  | pollWaiting _ tok _ => 0 < tok
  | _ => True

/-- Waiters have a waker. The tokens of wakers are not null. -/
structure Sys.Registered (s : Sys ι) : Prop where
  nextTok : 0 < s.ghost.nextTok
  waiting : ∀ x ∈ s.live, s.mem.step x = .waiting → (s.mem.waker x).vtable ≠ 0
  frames : ∀ t, (s.frames t).Registers s.mem.waker

theorem Frame.Registers.mono {waker waker' : Ptr → AtomicWaker ι} {f : Frame ι}
    (h : f.Registers waker) (hw : ∀ x, f.uses = some x → (waker x).vtable ≠ 0 →
      (waker' x).vtable ≠ 0) : f.Registers waker' := by
  cases f with
  | pollEnter x pc =>
    cases pc with
    | poll current available back tok pc => exact ⟨h.1, fun hpc => hw x rfl (h.2 hpc)⟩
    | push current available back => exact hw x rfl h
    | _ => trivial
  | pollWaiting x tok pc => exact h
  | _ => trivial

variable [DecidableEq ι] {s s' : Sys ι} {t : ι} {f : Frame ι} {x : Ptr} {act : Act ι}
  {spurious : Bool} {r : Permits} {ret : Cont} {a : Protocol.State ι Ptr} {initial : ℕ}

namespace Sys.Registered

omit [DecidableEq ι] in
theorem init (initial : ℕ) : (Sys.init initial : Sys ι).Registered := by
  constructor <;> simp [Sys.init, Frame.Registers]

theorem keep (h : s.Registered) (hframes : s'.frames = update s.frames t f)
    (hf : f.Registers s'.mem.waker)
    (hw : ∀ x, (s.mem.waker x).vtable ≠ 0 → (s'.mem.waker x).vtable ≠ 0)
    (hlive : ∀ x ∈ s'.live, x ∈ s.live)
    (hstep : ∀ x ∈ s'.live, s'.mem.step x = .waiting →
      s.mem.step x = .waiting ∨ (s'.mem.waker x).vtable ≠ 0)
    (hnext : s.ghost.nextTok ≤ s'.ghost.nextTok) : s'.Registered where
  nextTok := Nat.lt_of_lt_of_le h.nextTok hnext
  waiting x hx hst := by
    rcases hstep x hx hst with hst | hv
    · exact hw x (h.waiting x (hlive x hx) hst)
    · exact hv
  frames u := by
    rw [hframes]
    by_cases hut : u = t
    · subst hut
      rwa [update_self]
    · rw [update_of_ne hut]
      exact (h.frames u).mono fun x _ => hw x

/-- As `keep`, where no waker changes. -/
theorem goto (h : s.Registered) (hframes : s'.frames = update s.frames t f)
    (hf : f.Registers s.mem.waker) (hw : s'.mem.waker = s.mem.waker)
    (hstep : s'.mem.step = s.mem.step)
    (hlive : s'.live = s.live) (hnext : s.ghost.nextTok ≤ s'.ghost.nextTok) : s'.Registered :=
  h.keep hframes (by rwa [hw]) (fun x => by rw [hw]; exact id) (fun x => by rw [hlive]; exact id)
    (fun x _ hx => Or.inl (by rwa [hstep] at hx)) hnext

/-- As `keep`, where one waker changes its state or its thread. -/
theorem waker {w : AtomicWaker ι} (h : s.Registered) (hframes : s'.frames = update s.frames t f)
    (hf : ∀ waker, f.Registers waker) (hwaker : s'.mem.waker = update s.mem.waker x w)
    (hv : w.vtable = (s.mem.waker x).vtable) (hstep : s'.mem.step = s.mem.step)
    (hlive : ∀ y ∈ s'.live, y ∈ s.live) (hnext : s'.ghost.nextTok = s.ghost.nextTok) :
    s'.Registered := by
  refine h.keep hframes (hf _) (fun y hy => ?_) hlive (fun y _ hy => Or.inl (by rwa [hstep] at hy))
    hnext.symm.le
  rw [hwaker]
  by_cases hyx : y = x
  · subst hyx
    rwa [update_self, hv]
  · rwa [update_of_ne hyx]

theorem tryAcquire (h : s.Registered) {n : ℕ} {pc : TryAcquirePc} :
    (s.tryAcquire t n spurious pc).Registered := by
  cases pc with
  | load => exact h.goto rfl trivial rfl rfl rfl le_rfl
  | loop current =>
    simp only [Sys.tryAcquire]
    cases current with
    | queued back => exact h.goto rfl trivial rfl rfl rfl le_rfl
    | available q =>
      dsimp only
      split
      · exact h.goto rfl trivial rfl rfl rfl le_rfl
      · split_ifs
        · exact h.goto rfl trivial rfl rfl rfl le_rfl
        · split <;> exact h.goto rfl trivial rfl rfl rfl le_rfl

theorem pollEnter (h : s.Registered) {pc : EnterPc} (hf : s.frames t = .pollEnter x pc) :
    (s.pollEnter t x spurious pc).Registered := by
  have hreg := h.frames t
  rw [hf] at hreg
  have done {s' : Sys ι} {res : Ret} (hframes : s'.frames = update s.frames t (.idle res))
      (hw : s'.mem.waker = s.mem.waker) (hst : s'.mem.step = update s.mem.step x .done)
      (hlive : s'.live = s.live) (hnext : s'.ghost.nextTok = s.ghost.nextTok) : s'.Registered := by
    refine h.keep hframes trivial (fun y => by rw [hw]; exact id)
      (fun y => by rw [hlive]; exact id) (fun y _ hy => Or.inl ?_) hnext.symm.le
    rw [hst] at hy
    by_cases hyx : y = x
    · subst hyx
      rw [update_self] at hy
      cases hy
    · rwa [update_of_ne hyx] at hy
  cases pc with
  | load => exact h.goto rfl trivial rfl rfl rfl le_rfl
  | loop current =>
    simp only [Sys.pollEnter]
    cases current with
    | queued back => exact h.goto rfl ⟨h.nextTok, False.elim⟩ rfl rfl rfl (Nat.le_succ _)
    | available q =>
      dsimp only
      split
      · exact done rfl rfl rfl rfl rfl
      · split_ifs
        · split
          · exact done rfl rfl rfl rfl rfl
          · exact h.goto rfl trivial rfl rfl rfl le_rfl
        · exact h.goto rfl ⟨h.nextTok, False.elim⟩ rfl rfl rfl (Nat.le_succ _)
  | poll current available back tok pc =>
    obtain ⟨htok, hpc⟩ := hreg
    obtain ⟨hkeep, hflow⟩ := (s.mem.waker x).poll_vtable spurious htok hpc
    have hw (y : Ptr) (hy : (s.mem.waker y).vtable ≠ 0) :
        (update s.mem.waker x ((s.mem.waker x).poll tok spurious pc).waker y).vtable ≠ 0 := by
      by_cases hyx : y = x
      · subst hyx
        rw [update_self]
        exact hkeep hy
      · rwa [update_of_ne hyx]
    simp only [Sys.pollEnter]
    cases hfl : ((s.mem.waker x).poll tok spurious pc).flow with
    | goto pc' =>
      rw [hfl] at hflow
      refine h.keep rfl ⟨htok, fun hpc' => ?_⟩ hw (fun _ => id) (fun _ _ => Or.inl) le_rfl
      change (update s.mem.waker x _ x).vtable ≠ 0
      rw [update_self]
      exact hflow hpc'
    | ret res =>
      rw [hfl] at hflow
      cases res with
      | pending =>
        refine h.keep (f := .pollEnter x (.push current available back)) rfl ?_ hw (fun _ => id)
          (fun _ _ => Or.inl) le_rfl
        change (update s.mem.waker x _ x).vtable ≠ 0
        rw [update_self]
        exact hflow
      | ready p => exact h.keep rfl trivial hw (fun _ => id) (fun _ _ => Or.inl) le_rfl
    | panic => exact h.keep rfl trivial hw (fun _ => id) (fun _ _ => Or.inl) le_rfl
  | push current available back =>
    simp only [Sys.pollEnter]
    split
    · refine h.keep rfl trivial (fun _ => id) (fun _ => id) (fun y _ hy => ?_) le_rfl
      by_cases hyx : y = x
      · subst hyx
        exact Or.inr hreg
      · exact Or.inl ((update_of_ne hyx _ _).symm.trans hy)
    · exact h.goto rfl trivial rfl rfl rfl le_rfl

theorem pollWaiting (h : s.Registered) {tok : ℕ} {pc : PollPc}
    (hf : s.frames t = .pollWaiting x tok pc) (hvt : (s.mem.waker x).vtable ≠ 0) :
    (s.pollWaiting t x tok spurious pc).Registered := by
  have htok : 0 < tok := by
    have := h.frames t
    rwa [hf] at this
  have hkeep := ((s.mem.waker x).poll_vtable spurious htok fun _ : pc.HasStored => hvt).1
  have hw (y : Ptr) (hy : (s.mem.waker y).vtable ≠ 0) :
      (update s.mem.waker x ((s.mem.waker x).poll tok spurious pc).waker y).vtable ≠ 0 := by
    by_cases hyx : y = x
    · subst hyx
      rw [update_self]
      exact hkeep hy
    · rwa [update_of_ne hyx]
  have hstep (y : Ptr) (hy : update s.mem.step x .done y = .waiting) :
      s.mem.step y = .waiting := by
    by_cases hyx : y = x
    · subst hyx
      rw [update_self] at hy
      cases hy
    · rwa [update_of_ne hyx] at hy
  simp only [Sys.pollWaiting]
  split
  · exact h.keep (f := .pollWaiting x tok _) rfl htok hw (fun _ => id) (fun _ _ => Or.inl) le_rfl
  · exact h.keep rfl trivial hw (fun _ => id) (fun _ _ => Or.inl) le_rfl
  · exact h.keep rfl trivial hw (fun _ => id) (fun y _ hy => Or.inl (hstep y hy)) le_rfl
  · exact h.keep rfl trivial hw (fun _ => id) (fun y _ hy => Or.inl (hstep y hy)) le_rfl
  · exact h.keep rfl trivial hw (fun _ => id) (fun _ _ => Or.inl) le_rfl

theorem afterRelease (h : s.Registered) (release : Atomic ReleaseState) :
    ({ s with sem.release := release }.afterRelease t ret).Registered := by
  cases ret <;> exact h.goto rfl trivial rfl rfl rfl le_rfl

theorem release (h : s.Registered) {pc : ReleasePc ι} :
    (s.release t r ret spurious pc).Registered := by
  cases pc with
  | lock current =>
    simp only [Sys.release, Sys.lockOrElseDefer]
    cases current <;> dsimp only <;> split
    all_goals first
      | exact h.goto rfl trivial rfl rfl rfl le_rfl
      | exact h.afterRelease _
  | flip nextCancel current =>
    simp only [Sys.release, Sys.flip]
    cases current with
    | available q =>
      dsimp only
      split
      · split_ifs <;> exact h.goto rfl trivial rfl rfl rfl le_rfl
      · exact h.goto rfl trivial rfl rfl rfl le_rfl
    | queued back =>
      dsimp only
      split_ifs
      · split <;> exact h.goto rfl trivial rfl rfl rfl le_rfl
      · exact h.goto rfl trivial rfl rfl rfl le_rfl
      · split <;> exact h.goto rfl trivial rfl rfl rfl le_rfl
  | walk nextCancel back waiter =>
    simp only [Sys.release, Sys.walk]
    split_ifs <;> exact h.goto rfl trivial rfl rfl rfl le_rfl
  | cancel nextCancel =>
    simp only [Sys.release, Sys.cancel]
    split_ifs <;> exact h.goto rfl trivial rfl rfl rfl le_rfl
  | accept x nextCancel pc =>
    have hv := ((s.mem.waker x).acceptCancel_cancels spurious pc).2.1
    simp only [Sys.release, Sys.accept]
    split
    · exact h.waker rfl (fun _ => trivial) rfl hv rfl (fun _ => id) rfl
    · exact h.waker rfl (fun _ => trivial) rfl hv rfl (fun _ => id) rfl
    · exact h.goto rfl trivial rfl rfl rfl le_rfl
    · exact h.waker rfl (fun _ => trivial) rfl hv rfl (fun _ => id) rfl
  | tryPop =>
    simp only [Sys.release, Sys.tryPop]
    split_ifs
    · exact h.goto rfl trivial rfl rfl rfl le_rfl
    · split
      · split_ifs <;> exact h.goto rfl trivial rfl rfl rfl le_rfl
      · exact h.goto rfl trivial rfl rfl rfl le_rfl
  | finish pop pc =>
    have hv := (s.mem.waker pop.front).finish_vtable pop.releasable.isNone spurious pc
    simp only [Sys.release, Sys.finish]
    split <;> exact h.waker rfl (fun _ => trivial) rfl hv rfl (fun _ => id) rfl
  | unlock current =>
    simp only [Sys.release, Sys.tryUnlock]
    cases current with
    | unlocked q => exact h.goto rfl trivial rfl rfl rfl le_rfl
    | locked =>
      dsimp only
      split
      · exact h.afterRelease _
      · exact h.goto rfl trivial rfl rfl rfl le_rfl
    | lockedDirty q => dsimp only; split <;> exact h.goto rfl trivial rfl rfl rfl le_rfl
  | _ => exact h.goto rfl trivial rfl rfl rfl le_rfl

theorem dropFuture (h : s.Registered) {pc : DropPc}
    (hn : s.dropFuture t x spurious pc = some s') : s'.Registered := by
  cases pc with
  | startCancel pc =>
    have hv := ((s.mem.waker x).startCancel_cancels t spurious pc).2.1
    simp only [Sys.dropFuture] at hn
    split at hn <;> obtain rfl := Option.some.inj hn <;>
      exact h.waker rfl (fun _ => trivial) rfl hv rfl (fun _ => id) rfl
  | loadCancel =>
    obtain rfl := Option.some.inj hn
    exact h.goto rfl trivial rfl rfl rfl le_rfl
  | pushCancel current =>
    simp only [Sys.dropFuture] at hn
    split at hn <;> obtain rfl := Option.some.inj hn <;> exact h.goto rfl trivial rfl rfl rfl le_rfl
  | waitCancel pc =>
    cases pc with
    | load =>
      have hv := ((s.mem.waker x).waitCancel_cancels .load).2.1
      simp only [Sys.dropFuture] at hn
      split at hn <;> obtain rfl := Option.some.inj hn <;>
        exact h.waker rfl (fun _ => trivial) rfl hv rfl (fun _ => id) rfl
    | park =>
      simp only [Sys.dropFuture] at hn
      split_ifs at hn
      obtain rfl := Option.some.inj hn
      exact h.goto rfl trivial rfl rfl rfl le_rfl
  | waker =>
    have hv := ((s.mem.waker x).drop_cancels (s.panicking t)).2.1
    simp only [Sys.dropFuture] at hn
    split at hn <;> obtain rfl := Option.some.inj hn
    · exact h.waker rfl (fun _ => trivial) rfl hv rfl (fun _ => id) rfl
    · exact h.waker rfl (fun _ => trivial) rfl hv rfl (fun y => Finset.mem_of_mem_erase) rfl

theorem step (h : s.Registered) (hr : Represents s a) (hn : s.step t spurious = some s') :
    s'.Registered := by
  unfold Sys.step at hn
  cases hf : s.frames t with
  | idle ret => simp [hf] at hn
  | panicked => simp [hf] at hn
  | tryAcquire n pc =>
    rw [hf] at hn
    obtain rfl := Option.some.inj hn
    exact h.tryAcquire
  | pollEnter x pc =>
    rw [hf] at hn
    obtain rfl := Option.some.inj hn
    exact h.pollEnter hf
  | pollWaiting x tok pc =>
    rw [hf] at hn
    obtain rfl := Option.some.inj hn
    obtain ⟨hst, -, -⟩ := hr.sim.frame_ok hf
    exact h.pollWaiting hf (h.waiting x (hr.sim.borrowed hf rfl).1 hst)
  | release r ret pc =>
    rw [hf] at hn
    obtain rfl := Option.some.inj hn
    exact h.release
  | dropFuture x pc =>
    rw [hf] at hn
    exact h.dropFuture hn

theorem call (h : s.Registered) {c : Call} (hn : s.call t c = some s') : s'.Registered := by
  cases c with
  | poll x =>
    simp only [Sys.call] at hn
    split_ifs at hn
    split at hn <;> obtain rfl := Option.some.inj hn
    · exact h.goto rfl trivial rfl rfl rfl le_rfl
    · exact h.goto (f := .pollWaiting x s.ghost.nextTok .load) rfl h.nextTok rfl rfl rfl
        (Nat.le_succ _)
    · exact h.goto rfl trivial rfl rfl rfl le_rfl
  | dropFuture x =>
    simp only [Sys.call] at hn
    split_ifs at hn
    split at hn <;> obtain rfl := Option.some.inj hn <;> exact h.goto rfl trivial rfl rfl rfl le_rfl
  | tryAcquire n =>
    obtain rfl := Option.some.inj hn
    exact h.goto rfl trivial rfl rfl rfl le_rfl
  | release n =>
    obtain rfl := Option.some.inj hn
    exact h.goto rfl trivial rfl rfl rfl le_rfl
  | poison =>
    obtain rfl := Option.some.inj hn
    exact h.goto rfl trivial rfl rfl rfl le_rfl
  | dropGuard i =>
    simp only [Sys.call] at hn
    split at hn
    · cases hn
    · split_ifs at hn <;> obtain rfl := Option.some.inj hn <;>
        exact h.goto rfl trivial rfl rfl rfl le_rfl

omit [DecidableEq ι] in
theorem create (h : s.Registered) (hr : Represents s a) {n : ℕ}
    (hn : s.acquire x n = some s') : s'.Registered := by
  simp only [Sys.acquire] at hn
  split_ifs at hn with hx
  obtain rfl := Option.some.inj hn
  refine ⟨h.nextTok, fun y hy hst => ?_, fun u => (h.frames u).mono fun y hu hy => ?_⟩
  · dsimp only at hy hst ⊢
    by_cases hyx : y = x
    · subst hyx
      rw [update_self] at hst
      cases hst
    · rw [update_of_ne hyx] at hst ⊢
      exact h.waiting y ((Finset.mem_insert.mp hy).resolve_left hyx) hst
  · have hyx : y ≠ x := by
      rintro rfl
      exact hx.1 (hr.sim.borrowed rfl hu).1
    dsimp only
    rwa [update_of_ne hyx]

theorem next (h : s.Registered) (hr : Represents s a) (hn : s.next act = some s') :
    s'.Registered := by
  cases act with
  | call t c =>
    simp only [Sys.next] at hn
    split_ifs at hn
    exact h.call hn
  | step t spurious => exact h.step hr hn
  | acquire x n => exact h.create hr hn
  | forget i =>
    simp only [Sys.next, Sys.forget] at hn
    split at hn
    · cases hn
    · obtain rfl := Option.some.inj hn
      exact ⟨h.nextTok, h.waiting, h.frames⟩
  | setPanicking t panicking =>
    simp only [Sys.next] at hn
    split_ifs at hn
    obtain rfl := Option.some.inj hn
    exact ⟨h.nextTok, h.waiting, h.frames⟩

end Sys.Registered

theorem Reachable.registered (h : Reachable initial s) : s.Registered := by
  refine h.invariant_reached (I := Sys.Registered) (fun s act s' hs hreg _ hn => ?_) (.init initial)
  obtain ⟨a, hr⟩ := Reachable.represents hs
  exact hreg.next hr hn

/-- In no reachable state has a thread failed an assertion, or read a word that does not decode; and
where `finish` has read `Pending`, it reads a vtable that is not null. -/
theorem no_assertion_fails (h : Reachable initial s) :
    (∀ t, s.frames t ≠ .panicked) ∧
      (decode s.sem.acquire.word : Option AcquireState).isSome ∧
      (decode s.sem.release.word : Option ReleaseState).isSome ∧
      (∀ x, (decode (s.mem.waker x).state.word : Option Waker.State).isSome) ∧
      ∀ t r ret pop data seq,
        s.frames t = .release r ret (.finish pop (.loadVtable (.pending seq) data)) →
          (s.mem.waker pop.front).vtable ≠ 0 := by
  refine ⟨h.not_panicked, Atomic.decode_isSome _, Atomic.decode_isSome _,
    fun x => Atomic.decode_isSome _, fun t r ret pop data seq hf => ?_⟩
  obtain ⟨a, hr⟩ := h.represents
  obtain ⟨o, ho, -, -, -, -, -, hpop, -⟩ := hr.sim.owner_of hr.inv hf rfl
  obtain ⟨rest, hl⟩ := hpop.1
  have hmem : pop.front ∈ a.linked := by simp [hl]
  obtain ⟨hlive, hstep, -⟩ := (hr.sim.view.waits_iff hr.sim.loc).mpr (hr.inv.linked_queue hmem)
  exact h.registered.waiting _ hlive hstep

end

attribute [local instance] usize64

def finishing : Sys Bool :=
  Runs.final Sys.next
    ([.acquire (usize64.ptr 0) 1, .call false (.poll (usize64.ptr 0))] ++ Act.steps false 20 ++
      [.call true (.release 1)] ++ Act.steps true 9)
    (Sys.init 0) (by decide +kernel)

theorem no_assertion_fails_finishing :
    finishing.frames true ≠ .panicked ∧ (finishing.mem.waker (usize64.ptr 0)).vtable ≠ 0 := by
  have hf : finishing.frames true = .release (Permits.new 1) .caller
      (.finish ⟨usize64.ptr 0, 1, null, some 1⟩ (.loadVtable (.pending 1) 1)) := rfl
  have hr : Reachable 0 finishing := Runs.reaches_final _
  obtain ⟨hpanic, -, -, -, hvtable⟩ := no_assertion_fails hr
  exact ⟨hpanic true, hvtable _ _ _ _ _ _ hf⟩

end WeightedSemaphore
