import WeightedSemaphore.Cancellation
import WeightedSemaphore.Poison
import WeightedSemaphore.Priority
import WeightedSemaphore.Quiescence

/-!
# Poison is absorbing

Poison that has arrived in the acquire word, in the release word, or with the lock owner while the
acquire word is `Queued`, stays in one of these three places. From then on waiters only fail, and no
acquire that starts later gets permits.
-/

namespace WeightedSemaphore

open Function (update update_self)
open Protocol (Inv HistOk)

namespace Protocol

variable {ι ω : Type} {a b : State ι ω}

def State.Absorbed (a : State ι ω) : Prop :=
  a.acq = .available none ∨ a.rel = .unlocked none ∨
    (∃ pushed, a.acq = .queued pushed) ∧ ∃ o, a.owner = some o ∧ o.releasable = none

theorem State.Absorbed.not_available (h : a.Absorbed) (hi : Inv a) (n : ℕ) :
    a.acq ≠ .available (some n) := by
  intro hacq
  rcases h with h | h | ⟨⟨pushed, h⟩, -⟩
  · cases hacq.symm.trans h
  · cases hi.available.unlocked _ _ hacq h
  · cases hacq.symm.trans h

/-- The lock owner has the poison, unless it is in the acquire word already. -/
theorem State.Absorbed.owned (h : a.Absorbed) (hi : Inv a) {o : Owner ι ω}
    (ho : a.owner = some o) :
    a.acq = .available none ∨ (∃ pushed, a.acq = .queued pushed) ∧ o.releasable = none := by
  rcases h with h | h | ⟨hacq, o', ho', hr⟩
  · exact Or.inl h
  · exact absurd h (hi.rel_of_owner ho none)
  · obtain rfl : o' = o := Option.some.inj (ho'.symm.trans ho)
    exact Or.inr ⟨hacq, hr⟩

/-- Steps by which poison stays where it is. -/
theorem State.Absorbed.keep (h : a.Absorbed) (hacq : b.acq = a.acq) (hrel : b.rel = a.rel)
    (howner : b.owner = a.owner) : b.Absorbed := by
  unfold Absorbed
  rw [hacq, hrel, howner]
  exact h

/-- The lock owner goes on with the permits it has. -/
theorem State.Absorbed.owner (h : a.Absorbed) (hi : Inv a) {o o' : Owner ι ω}
    (ho : a.owner = some o) (hb : b.owner = some o') (hr : o'.releasable = o.releasable)
    (hacq : b.acq = a.acq) : b.Absorbed := by
  rcases h.owned hi ho with h | ⟨h, hnone⟩
  · exact Or.inl (hacq.trans h)
  · exact Or.inr (Or.inr ⟨hacq ▸ h, o', hb, hr.trans hnone⟩)

variable [DecidableEq ι] [DecidableEq ω] {cap : ℕ}

theorem State.Absorbed.step (h : a.Absorbed) (hi : Inv a) (hs : Step cap a b) : b.Absorbed := by
  cases hs with
  | fast n m hacq hn => exact absurd hacq (h.not_available hi m)
  | fastPoll x m hacq hx hn => exact absurd hacq (h.not_available hi m)
  | enter t x n pushed hr hx hacq =>
    obtain ⟨hacq, -⟩ := hacq.resolve_left fun hav => h.not_available hi n hav.1
    rcases h with h | h | ⟨-, howner⟩
    · cases hacq.symm.trans h
    · exact Or.inr (Or.inl h)
    · exact Or.inr (Or.inr ⟨⟨_, rfl⟩, howner⟩)
  | lock t p q after hr hrel =>
    rcases h with h | h | ⟨-, o, ho, -⟩
    · exact Or.inl h
    · obtain rfl : q = none := Rel.unlocked.inj (hrel.symm.trans h)
      -- the release word holds poison, so there are waiters; the new owner takes the poison over
      cases hacq : a.acq with
      | available p => cases hi.available.unlocked p none hacq hrel
      | queued pushed => exact Or.inr (Or.inr ⟨⟨pushed, rfl⟩, _, rfl, Tally.add_none⟩)
    · exact absurd hrel (hi.rel_of_owner ho q)
  | deferLocked t p after hr hrel =>
    rcases h with h | h | h
    · exact Or.inl h
    · cases hrel.symm.trans h
    · exact Or.inr (Or.inr h)
  | deferDirty t p q after hr hrel =>
    rcases h with h | h | h
    · exact Or.inl h
    · cases hrel.symm.trans h
    · exact Or.inr (Or.inr h)
  | swap o ho hp => exact h.owner hi ho rfl rfl rfl
  | flipAvailable o ho hp hacq hl =>
    rcases h.owned hi ho with h | ⟨-, hr⟩
    · cases hacq.symm.trans h
    · exact Or.inl (congrArg Acq.available hr)
  | flipAdd o q ho hp hacq =>
    rcases h.owned hi ho with h | ⟨⟨pushed, h⟩, -⟩
    · obtain rfl : q = none := Acq.available.inj (hacq.symm.trans h)
      exact Or.inl (congrArg Acq.available Tally.none_add)
    · cases hacq.symm.trans h
  | flipTake o pushed ho hp hacq hpush =>
    rcases h.owned hi ho with h | ⟨-, hr⟩
    · cases hacq.symm.trans h
    · exact Or.inr (Or.inr ⟨⟨_, rfl⟩, _, rfl, hr⟩)
  | flipSkip o ho hp hacq hl => exact h.owner hi ho rfl rfl rfl
  | unlink o x taken ho hp ht => exact h.owner hi ho rfl rfl rfl
  | accept o x ho hp => exact h.owner hi ho rfl rfl rfl
  | cancelled o ho hp ht => exact h.owner hi ho rfl rfl rfl
  | grant o x linked n ho hp hl hx hr hn =>
    rcases h.owned hi ho with h | ⟨-, hr'⟩
    · exact Or.inl h
    · cases hr.symm.trans hr'
  | fail o x linked ho hp hl hx hr => exact h.keep rfl rfl rfl
  | stop o ho hp hb => exact h.owner hi ho rfl rfl rfl
  | relock o q ho hp hrel =>
    rcases h.owned hi ho with h | ⟨hacq, hr⟩
    · exact Or.inl h
    · refine Or.inr (Or.inr ⟨hacq, _, rfl, ?_⟩)
      simp only [hr, Tally.none_add]
  | unlock o after ho hp hrel hr =>
    rcases h.owned hi ho with h | ⟨-, hr'⟩
    · exact Or.inl h
    · exact Or.inr (Or.inl (congrArg Rel.unlocked hr'))
  | _ => exact h.keep rfl rfl rfl

/-- Once poison is absorbed, waiters only fail. -/
theorem State.Absorbed.step_hist (h : a.Absorbed) (hi : Inv a) (hs : Step cap a b) :
    ∃ later, b.hist = later ++ a.hist ∧ ∀ u, .finished u false ∉ later := by
  cases hs with
  | grant o x linked n ho hp hl hx hr hn =>
    rcases h.owned hi ho with h | ⟨-, hr'⟩
    · cases hl.symm.trans (hi.available.linked_nil _ h)
    · cases hr.symm.trans hr'
  | fast n m hacq hn => exact ⟨[_], rfl, by simp⟩
  | fastPoll x m hacq hx hn => exact ⟨[_], rfl, by simp⟩
  | enter t x n pushed hr hx hacq => exact ⟨[_], rfl, by simp⟩
  | release t n hr => exact ⟨[_], rfl, by simp⟩
  | poison t n hr hn => exact ⟨[_], rfl, by simp⟩
  | forget n hn => exact ⟨[_], rfl, by simp⟩
  | startCancel t x hr hx => exact ⟨[_], rfl, by simp⟩
  | unlink o x taken ho hp ht => exact ⟨[_], rfl, by simp⟩
  | accept o x ho hp => exact ⟨[_], rfl, by simp⟩
  | fail o x linked ho hp hl hx hr => exact ⟨[_], rfl, by simp⟩
  | _ => exact ⟨[], rfl, by simp⟩

def State.UnlinkedOk (a : State ι ω) : Prop :=
  ∀ u, .unlinked u ∈ a.hist → .cancelled u ∈ a.hist ∨ ∃ x ∈ a.accepting, a.uid x = u

omit [DecidableEq ι] [DecidableEq ω] in
theorem State.UnlinkedOk.frame (h : a.UnlinkedOk) (later : History)
    (hacc : b.accepting = a.accepting) (huid : ∀ x ∈ a.accepting, b.uid x = a.uid x)
    (hhist : b.hist = later ++ a.hist) (hlater : ∀ u, .unlinked u ∉ later) : b.UnlinkedOk := by
  intro u hu
  rw [hhist] at hu ⊢
  rcases h u ((List.mem_append.mp hu).resolve_left (hlater u)) with hc | ⟨x, hx, rfl⟩
  · exact Or.inl (List.mem_append_right _ hc)
  · exact Or.inr ⟨x, hacc ▸ hx, huid x hx⟩

theorem State.UnlinkedOk.step (h : a.UnlinkedOk) (hi : Inv a) (hs : Step cap a b) :
    b.UnlinkedOk := by
  have quiet {o o' : Owner ι ω} (ho : a.owner = some o) (ho' : b.owner = some o')
      (hp : o'.phase.accepting = o.phase.accepting) : b.accepting = a.accepting := by
    rw [accepting_of_owner ho, accepting_of_owner ho', hp]
  cases hs with
  | create x n hx =>
    refine h.frame [] rfl (fun y hy => ?_) rfl (by simp)
    have hyx : y ≠ x := by
      rintro rfl
      cases hx.symm.trans (hi.accepting_life hy)
    exact Function.update_of_ne hyx _ _
  | fast n m hacq hn => exact h.frame [_] rfl (fun _ _ => rfl) rfl (by simp)
  | fastPoll x m hacq hx hn => exact h.frame [_] rfl (fun _ _ => rfl) rfl (by simp)
  | enter t x n pushed hr hx hacq => exact h.frame [_] rfl (fun _ _ => rfl) rfl (by simp)
  | release t n hr => exact h.frame [_] rfl (fun _ _ => rfl) rfl (by simp)
  | poison t n hr hn => exact h.frame [_] rfl (fun _ _ => rfl) rfl (by simp)
  | forget n hn => exact h.frame [_] rfl (fun _ _ => rfl) rfl (by simp)
  | startCancel t x hr hx => exact h.frame [_] rfl (fun _ _ => rfl) rfl (by simp)
  | lock t p q after hr hrel =>
    have ho : a.owner = none := hi.lock.owner_none.mpr ⟨q, hrel⟩
    refine h.frame [] ?_ (fun _ _ => rfl) rfl (by simp)
    simp only [State.accepting, ho, Phase.accepting]
  | unlock o after ho hp hrel hr =>
    refine h.frame [] ?_ (fun _ _ => rfl) rfl (by simp)
    rw [accepting_of_owner ho, hp]
    rfl
  | unlink o x taken ho hp ht =>
    intro u hu
    rcases List.mem_cons.mp hu with he | hu
    · obtain rfl := Event.unlinked.inj he
      exact Or.inr ⟨x, by simp [State.accepting, Phase.accepting], rfl⟩
    · rcases h u hu with hc | ⟨y, hy, -⟩
      · exact Or.inl (List.mem_cons_of_mem _ hc)
      · simp [accepting_of_owner ho, hp, Phase.accepting] at hy
  | accept o x ho hp =>
    intro u hu
    rcases h u (by simpa using hu) with hc | ⟨y, hy, rfl⟩
    · exact Or.inl (List.mem_cons_of_mem _ hc)
    · rw [accepting_of_owner ho, hp] at hy
      obtain rfl : y = x := by simpa [Phase.accepting] using hy
      exact Or.inl (by simp)
  | swap o ho hp =>
    exact h.frame [] (quiet ho rfl (by rw [hp]; rfl)) (fun _ _ => rfl) rfl (by simp)
  | flipAvailable o ho hp hacq hl =>
    exact h.frame [] (quiet ho rfl (by rw [hp]; rfl)) (fun _ _ => rfl) rfl (by simp)
  | flipAdd o q ho hp hacq =>
    exact h.frame [] (quiet ho rfl (by rw [hp]; rfl)) (fun _ _ => rfl) rfl (by simp)
  | flipTake o pushed ho hp hacq hpush =>
    exact h.frame [] (quiet ho rfl (by rw [hp]; rfl)) (fun _ _ => rfl) rfl (by simp)
  | flipSkip o ho hp hacq hl =>
    exact h.frame [] (quiet ho rfl (by rw [hp]; rfl)) (fun _ _ => rfl) rfl (by simp)
  | cancelled o ho hp ht =>
    exact h.frame [] (quiet ho rfl (by rw [hp]; rfl)) (fun _ _ => rfl) rfl (by simp)
  | grant o x linked n ho hp hl hx hr hn =>
    exact h.frame [_] (quiet ho rfl rfl) (fun _ _ => rfl) rfl (by simp)
  | fail o x linked ho hp hl hx hr =>
    exact h.frame [_] rfl (fun _ _ => rfl) rfl (by simp)
  | stop o ho hp hb =>
    exact h.frame [] (quiet ho rfl (by rw [hp]; rfl)) (fun _ _ => rfl) rfl (by simp)
  | relock o q ho hp hrel =>
    exact h.frame [] (quiet ho rfl (by rw [hp]; rfl)) (fun _ _ => rfl) rfl (by simp)
  | _ => exact h.frame [] rfl (fun _ _ => rfl) rfl (by simp)

end Protocol

section

variable [Usize] {ι : Type}

def AcquireState.Plain : AcquireState → Prop
  | available q => q.intoUsize ≠ none
  | queued _ => False

theorem AcquireState.Fits.plain {n : ℕ} {w : AcquireState} (h : w.Fits n) : w.Plain := by
  cases w with
  | queued back => exact h.elim
  | available q =>
    obtain ⟨m, hm, -⟩ := h
    simp [Plain, hm]

/-- A first poll or a `try_acquire` that gets no permits. -/
def Frame.Denied : Frame ι → Prop
  | idle r => r ≠ .acquired ∧ r ≠ .ready
  | panicked => True
  | tryAcquire _ pc => ∀ w, pc = .loop w → ¬ w.Plain
  | pollEnter _ pc => ∀ w, pc = .loop w → ¬ w.Plain
  | release _ ret _ => ∃ x, ret = .pollEnter x
  | _ => False

namespace Sys

/-- Poison is in the acquire word, in the release word, or with the lock owner while the acquire
word is `Queued`. -/
def Absorbed (s : Sys ι) : Prop :=
  s.sem.acquire.load.Poisoned ∨
    (∃ p, s.sem.release.load = .unlocked p ∧ p.intoUsize = none) ∨
    (∃ back, s.sem.acquire.load = .queued back) ∧
      ∃ t r ret pc, s.frames t = .release r ret pc ∧ pc.locks = false ∧ r.intoUsize = none

variable [DecidableEq ι]

/-- What becomes of a poison that was absorbed in `s₁`, in a later state `s`. -/
structure Absorbs (s₁ s : Sys ι) : Prop where
  absorbed : s.Absorbed
  /-- No waiter was finished with permits since. -/
  history : ∃ later, s.ghost.hist = later ++ s₁.ghost.hist ∧ ∀ u, .finished u false ∉ later
  finished : ∀ act s' x, s.next act = some s' → s'.lifeOf x = .finished false →
    s.lifeOf x = .finished false
  try_acquire : ∀ t n s' u r, s.next (.call t (.tryAcquire n)) = some s' → Within t s' u →
    u.frames t = .idle r → r ≠ .acquired
  first_poll : ∀ t x s' u r, s.mem.step x = .entering → s.next (.call t (.poll x)) = some s' →
    Within t s' u → u.frames t = .idle r → r ≠ .ready
  settled : s.Quiescent → s.Settled

end Sys

variable {s s' u : Sys ι} {a : Protocol.State ι Ptr} {t : ι} {act : Act ι} {initial : ℕ}

theorem Sim.absorbed_iff (hs : Sim s a) (hi : Inv a) : s.Absorbed ↔ a.Absorbed := by
  have hacq : s.sem.acquire.load.Poisoned ↔ a.acq = .available none := hs.acq_poisoned_iff
  have hrel : (∃ p, s.sem.release.load = .unlocked p ∧ p.intoUsize = none) ↔
      a.rel = .unlocked none := by
    rw [hs.words.rel]
    cases s.sem.release.load <;> simp [ReleaseState.rel]
  have hqueued : (∃ back, s.sem.acquire.load = .queued back) ↔
      ∃ pushed, a.acq = .queued pushed := by
    have hrep := hs.words.acq
    cases hload : s.sem.acquire.load with
    | available q =>
      rw [hload] at hrep
      simp [show a.acq = .available q.intoUsize from hrep]
    | queued back =>
      rw [hload] at hrep
      obtain ⟨pushed, hpushed, -⟩ := hrep
      simp [hpushed]
  have howner : (∃ t r ret pc, s.frames t = .release r ret pc ∧ pc.locks = false ∧
      r.intoUsize = none) ↔ ∃ o, a.owner = some o ∧ o.releasable = none := by
    constructor
    · rintro ⟨t, r, ret, pc, hf, hl, hr⟩
      obtain ⟨o, ho, -, -, hro, -⟩ := hs.owner_of hi hf hl
      exact ⟨o, ho, hro.trans hr⟩
    · rintro ⟨o, ho, hr⟩
      obtain ⟨r, ret, pc, hf, hro, hpc⟩ := hs.pass.owned o ho
      exact ⟨_, r, ret, pc, hf, hpc.not_locks, hro.symm.trans hr⟩
  unfold Sys.Absorbed Protocol.State.Absorbed
  rw [hacq, hrel, hqueued, howner]

theorem Sim.not_plain (hs : Sim s a) (hi : Inv a) (h : a.Absorbed) :
    ¬ s.sem.acquire.load.Plain := by
  cases hload : s.sem.acquire.load with
  | queued back => exact id
  | available q =>
    intro hq
    obtain ⟨n, hn⟩ := Option.ne_none_iff_exists'.mp hq
    have hacq := hs.words.acq_available hload
    rw [hn] at hacq
    exact h.not_available hi n hacq

variable [DecidableEq ι]

/-- While the acquire word holds no plain count, acquires that have begun get no permits. -/
theorem Frame.Denied.next (h : (s.frames t).Denied) (hw : ¬ s.sem.acquire.load.Plain)
    (hok : ∀ c, act ≠ .call t c) (hn : s.next act = some s') : (s'.frames t).Denied := by
  by_cases hact : ∃ spurious, act = .step t spurious
  · obtain ⟨spurious, rfl⟩ := hact
    cases hf : s.frames t with
    | idle r => simp [Sys.next, Sys.step, hf] at hn
    | panicked => simp [Sys.next, Sys.step, hf] at hn
    | tryAcquire n pc =>
      rw [hf] at h
      rw [Sys.next_tryAcquire hf] at hn
      obtain rfl := Option.some.inj hn
      obtain ⟨f, hframes, hnext, -⟩ := Sys.tryAcquire_next s t n spurious pc
      rw [hframes, update_self]
      cases pc with
      | load =>
        obtain rfl : f = _ := hnext
        rintro w hpc
        exact TryAcquirePc.loop.inj hpc ▸ hw
      | loop w =>
        rcases hnext with ⟨rfl, -⟩ | ⟨rfl, -⟩ | ⟨-, hfit⟩ | ⟨-, hfit⟩
        · simp [Frame.Denied]
        · simp [Frame.Denied]
        · exact absurd hfit.plain (h w rfl)
        · exact absurd hfit.plain (h w rfl)
    | pollEnter x pc =>
      rw [hf] at h
      rw [Sys.next_pollEnter hf] at hn
      obtain rfl := Option.some.inj hn
      obtain ⟨f, hframes, hnext, -⟩ := Sys.pollEnter_next s t x spurious pc
      rw [hframes, update_self]
      cases pc with
      | load =>
        obtain rfl : f = _ := hnext
        rintro w hpc
        exact EnterPc.loop.inj hpc ▸ hw
      | loop w =>
        rcases hnext with ⟨rfl, -⟩ | ⟨-, hfit⟩ | ⟨-, hfit⟩ | ⟨available, back, tok, rfl, -⟩
        · simp [Frame.Denied]
        · exact absurd hfit.plain (h w rfl)
        · exact absurd hfit.plain (h w rfl)
        · simp [Frame.Denied]
      | poll current available back tok pc =>
        rcases hnext with ⟨pc', rfl⟩ | rfl | rfl <;> simp [Frame.Denied]
      | push current available back =>
        rcases hnext with rfl | ⟨r, rfl⟩
        · rintro w hpc
          exact EnterPc.loop.inj hpc ▸ hw
        · exact ⟨x, rfl⟩
    | release r ret pc =>
      rw [hf] at h
      obtain ⟨x, rfl⟩ := h
      rw [Sys.next_release hf] at hn
      obtain rfl := Option.some.inj hn
      obtain ⟨f, hframes, hafter⟩ := Sys.release_next s t r (.pollEnter x) spurious pc
      rw [hframes, update_self]
      cases f with
      | release r ret pc => exact ⟨x, hafter⟩
      | panicked => trivial
      | idle r =>
        cases r with
        | pending => simp [Frame.Denied]
        | unit => cases hafter
        | _ => exact hafter.elim
      | dropFuture b pc =>
        cases pc with
        | waitCancel pc => cases pc <;> cases hafter
        | waker => cases hafter
        | _ => exact hafter.elim
      | _ => exact hafter.elim
    | pollWaiting x tok pc => rw [hf] at h; exact h.elim
    | dropFuture x pc => rw [hf] at h; exact h.elim
  · rw [Sys.next_frames_of_ne hn hok fun spurious he => hact ⟨spurious, he⟩]
    exact h

theorem Reachable.absorbed_run {s₁ : Sys ι} (h₁ : Reachable initial s₁) (hp : s₁.Absorbed)
    (hrun : Runs.Reaches Sys.next s₁ s) : Reachable initial s ∧ s.Absorbed ∧
      ∃ later, s.ghost.hist = later ++ s₁.ghost.hist ∧ ∀ u, .finished u false ∉ later := by
  refine hrun.invariant (I := fun s => Reachable initial s ∧ s.Absorbed ∧
    ∃ later, s.ghost.hist = later ++ s₁.ghost.hist ∧ ∀ u, .finished u false ∉ later) ?_
    ⟨h₁, hp, [], rfl, by simp⟩
  rintro v act v' ⟨hv, hpv, later, hlater, hnone⟩ - hn
  have hv' : Reachable initial v' := .tail act hv trivial hn
  obtain ⟨a, hr⟩ := hv.represents
  have ha := (hr.sim.absorbed_iff hr.inv).mp hpv
  refine ⟨hv', ?_⟩
  rcases hr.next hn with hr' | ⟨b, hstep, hr'⟩
  · refine ⟨(hr'.sim.absorbed_iff hr'.inv).mpr ha, later, ?_, hnone⟩
    rw [← hr'.sim.view.hist, hr.sim.view.hist, hlater]
  · obtain ⟨new, hnew, hnew'⟩ := ha.step_hist hr.inv hstep
    refine ⟨(hr'.sim.absorbed_iff hr'.inv).mpr (ha.step hr.inv hstep), new ++ later, ?_, ?_⟩
    · rw [← hr'.sim.view.hist, hnew, hr.sim.view.hist, hlater, List.append_assoc]
    · simpa [not_or] using fun u => ⟨hnew' u, hnone u⟩

/-- An acquire that begins after the poison was absorbed gets no permits. -/
theorem Reachable.denied_run (h : Reachable initial s) (hp : s.Absorbed)
    (hf : (s.frames t).Denied) (hwithin : Sys.Within t s u) : (u.frames t).Denied := by
  have hboth := hwithin.invariant (I := fun u => Runs.Reaches Sys.next s u ∧ (u.frames t).Denied)
    (fun v act v' ⟨hv, hfv⟩ hok hn => ?_) ⟨.refl, hf⟩
  · exact hboth.2
  · refine ⟨.tail act hv trivial hn, hfv.next ?_ hok hn⟩
    obtain ⟨hreach, hpv, -⟩ := h.absorbed_run hp hv
    obtain ⟨a, hr⟩ := hreach.represents
    exact hr.sim.not_plain hr.inv ((hr.sim.absorbed_iff hr.inv).mp hpv)

theorem Reachable.unlinked (h : Reachable initial s) :
    ∃ a, Represents s a ∧ a.UnlinkedOk :=
  kept_of_run (fun _ _ _ _ hr hu hstep => hu.step hr.inv hstep)
    (by simp [Protocol.State.UnlinkedOk, Protocol.State.init]) h

/-- With poison, nobody is left waiting when no call is in progress. -/
theorem Reachable.settled_of_absorbed (h : Reachable initial s) (hp : s.Absorbed)
    (hq : s.Quiescent) : s.Settled := by
  obtain ⟨a, hr, hunlinked⟩ := h.unlinked
  have ho := hr.sim.owner_of_quiescent hq
  have hrole (t : ι) : a.role t = .quiet :=
    (hr.sim.view.role t).trans (Frame.role_idle (hq t))
  obtain ⟨hpush, -, -, r, hrel, hblocked⟩ := hr.inv.at_rest ho hrole
  have hlinked : a.linked = [] := by
    rcases (hr.sim.absorbed_iff hr.inv).mp hp with hacq | hnone | ⟨-, o, ho', -⟩
    · exact hr.inv.available.linked_nil _ hacq
    · obtain rfl : r = none := Protocol.Rel.unlocked.inj (hrel.symm.trans hnone)
      refine List.eq_nil_iff_forall_not_mem.mpr fun x hx => ?_
      obtain ⟨y, l, hl⟩ := List.exists_cons_of_ne_nil (List.ne_nil_of_mem hx)
      obtain ⟨n, hn, -⟩ := hblocked y l hl
      cases hn
    · cases ho.symm.trans ho'
  have hpending : History.pending s.ghost.hist = [] := by
    rw [← hr.sim.view.hist, hr.hist.pending, Protocol.State.queue, hlinked, hpush]
    rfl
  intro u hu
  rcases History.pending_or_settled hu with hm | ⟨p, hf⟩ | hun
  · simp [hpending] at hm
  · exact Or.inl ⟨p, hf⟩
  · rw [← hr.sim.view.hist] at hun
    rcases hunlinked u hun with hc | ⟨x, hx, -⟩
    · rw [hr.sim.view.hist] at hc
      exact Or.inr hc
    · simp [Protocol.State.accepting, ho] at hx

/-- Poison in the release word never coexists with a plain count in the acquire word, and absorbed
poison stays absorbed. -/
theorem poison_absorbing {s₁ : Sys ι} (h₁ : Reachable initial s₁) :
    (∀ p q, s₁.sem.release.load = .unlocked p → p.intoUsize = none →
      s₁.sem.acquire.load = .available q → q.intoUsize = none) ∧
    (s₁.Absorbed → ∀ s, Runs.Reaches Sys.next s₁ s → s₁.Absorbs s) := by
  constructor
  · intro p q hp hnone hq
    obtain ⟨a, hr⟩ := h₁.represents
    have hrel := hr.sim.words.rel
    rw [hp] at hrel
    have hzero := hr.inv.available.unlocked _ _ (hr.sim.words.acq_available hq) hrel
    cases hnone.symm.trans hzero
  · intro hp s hrun
    obtain ⟨h, hps, hhist⟩ := h₁.absorbed_run hp hrun
    constructor
    case absorbed => exact hps
    case history => exact hhist
    case finished =>
      intro act s' x hn hx
      by_contra hx'
      obtain ⟨-, -, later, hlater, hnone⟩ :=
        h.absorbed_run hps (.single act trivial hn)
      have hlog := h.finished_logged hn hx hx'
      rw [hlog] at hlater
      cases later with
      | nil => exact absurd (congrArg List.length hlater) (by simp)
      | cons e later =>
        obtain ⟨rfl, -⟩ := List.cons.inj hlater
        exact hnone (s.ghost.uid x) (by simp)
    case try_acquire =>
      intro t n s' u r hn hwithin hret
      have hf : (s'.frames t).Denied := by
        simp only [Sys.next] at hn
        split_ifs at hn
        obtain rfl := Option.some.inj hn
        simp [Sys.goto, Frame.Denied]
      obtain ⟨h', hps', -⟩ := h.absorbed_run hps (.single _ trivial hn)
      have := h'.denied_run hps' hf hwithin
      rw [hret] at this
      exact this.1
    case first_poll =>
      intro t x s' u r hst hn hwithin hret
      obtain ⟨h', hps', -⟩ := h.absorbed_run hps (.single _ trivial hn)
      have hf : (s'.frames t).Denied := by
        simp only [Sys.next] at hn
        split_ifs at hn
        obtain ⟨f, hframes, ⟨-, rfl⟩ | ⟨hst', -⟩ | ⟨hst', -⟩⟩ := Sys.call_next hn
        · rw [hframes, update_self]
          simp [Frame.Denied]
        · cases hst.symm.trans hst'
        · cases hst.symm.trans hst'
      have := h'.denied_run hps' hf hwithin
      rw [hret] at this
      exact this.2
    case settled => exact fun hq => h.settled_of_absorbed hps hq

end

attribute [local instance] usize64

/-- Poison rests in the release word; another waiter comes, and permits are released. -/
def poisonedAgain : Sys Bool :=
  Runs.final Sys.next
    ([.acquire (usize64.ptr 1) 2, .call false (.poll (usize64.ptr 1))] ++ Act.steps false 27 ++
      [.call true (.release 5)] ++ Act.steps true 9)
    poisonedWaiter (by decide +kernel)

theorem poison_absorbing_poisonedWaiter :
    poisonedWaiter.Absorbed ∧ poisonedAgain.ghost.hist =
        [.released 5, .finished 1 true, .installed 1] ++ poisonedWaiter.ghost.hist ∧
      poisonedWaiter.Absorbs poisonedAgain ∧ poisonedAgain.Settled := by
  have hr : Reachable 0 poisonedWaiter := Runs.reaches_final _
  have hrel : poisonedWaiter.sem.release.load = .unlocked Permits.poison := by decide +kernel
  have hp : poisonedWaiter.Absorbed := Or.inr (Or.inl ⟨_, hrel, Permits.intoUsize_poison⟩)
  have hrun : Runs.Reaches Sys.next poisonedWaiter poisonedAgain := Runs.reaches_final _
  have habs := (poison_absorbing hr).2 hp poisonedAgain hrun
  exact ⟨hp, by decide +kernel, habs, habs.settled fun t => by cases t <;> rfl⟩

end WeightedSemaphore
