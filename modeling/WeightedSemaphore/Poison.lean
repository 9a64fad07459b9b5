import WeightedSemaphore.Availability

/-!
# How poison is reported

Poison is never lost: it stays with a word or with a thread on its way into a word. A quiescent
semaphore reports it when it has arrived in the acquire word. With `Queued(null)` in that word, the
poison lies in the release word, where neither `try_acquire` nor a first poll sees it.
-/

namespace WeightedSemaphore

open Function (update update_self)

namespace Protocol

variable {ι ω : Type} {a b : State ι ω}

def State.Poisoned (a : State ι ω) : Prop :=
  a.acq.permits = none ∨ a.rel.permits = none ∨ a.ownerPermits = none ∨
    ∃ t, (a.role t).permits = none

theorem ownerPermits_congr (h : b.owner = a.owner) : b.ownerPermits = a.ownerPermits := by
  simp only [State.ownerPermits, h]

theorem State.Poisoned.keep (h : a.Poisoned) (hacq : a.acq.permits = none → b.acq.permits = none)
    (hrel : b.rel = a.rel) (howner : b.ownerPermits = a.ownerPermits) (hrole : b.role = a.role) :
    b.Poisoned := by
  rcases h with h | h | h | h
  · exact Or.inl (hacq h)
  · exact Or.inr (Or.inl (by rw [hrel]; exact h))
  · exact Or.inr (Or.inr (Or.inl (by rw [howner]; exact h)))
  · exact Or.inr (Or.inr (Or.inr (by rw [hrole]; exact h)))

variable [DecidableEq ι] {t : ι} {r : Role ω}

/-- Poison with a thread other than `t` stays there. -/
theorem State.Poisoned.move (h : a.Poisoned) (hrole : b.role = update a.role t r)
    (hacq : a.acq.permits = none → b.Poisoned) (hrel : a.rel.permits = none → b.Poisoned)
    (howner : a.ownerPermits = none → b.Poisoned)
    (ht : (a.role t).permits = none → b.Poisoned) : b.Poisoned := by
  rcases h with h | h | h | ⟨u, h⟩
  · exact hacq h
  · exact hrel h
  · exact howner h
  · by_cases hu : u = t
    · exact ht (hu ▸ h)
    · exact Or.inr (Or.inr (Or.inr ⟨u, by rw [hrole, Function.update_of_ne hu]; exact h⟩))

theorem State.Poisoned.quiet (h : a.Poisoned) (hrole : b.role = update a.role t r)
    (hr : (a.role t).permits = some 0) (hacq : a.acq.permits = none → b.acq.permits = none)
    (hrel : b.rel = a.rel) (howner : b.owner = a.owner) : b.Poisoned :=
  h.move hrole (fun h => Or.inl (hacq h)) (fun h => Or.inr (Or.inl (by rw [hrel]; exact h)))
    (fun h => Or.inr (Or.inr (Or.inl (by rw [ownerPermits_congr howner]; exact h))))
    (by simp [hr])

variable [DecidableEq ω] {cap : ℕ}

/-- Poison is never lost. -/
theorem State.Poisoned.step (hp : a.Poisoned) (hi : Inv a) (h : Step cap a b) : b.Poisoned := by
  cases h with
  | create x n hx => exact hp
  | free x hx hr => exact hp
  | retire x hx => exact hp
  | fast n m hacq hn => exact hp.imp (by simp [hacq, Acq.permits]) id
  | fastPoll x m hacq hx hn => exact hp.imp (by simp [hacq, Acq.permits]) id
  | enter t x n pushed hr hx hacq =>
    refine hp.quiet (t := t) rfl (by rw [hr]; rfl) (fun h => ?_) rfl rfl
    rcases hacq with ⟨hacq, -⟩ | ⟨hacq, -⟩ <;> simp [hacq, Acq.permits] at h
  | release t n hr => exact hp.quiet (t := t) rfl (by rw [hr]; rfl) id rfl rfl
  | poison t n hr hn => exact hp.quiet (t := t) rfl (by rw [hr]; rfl) id rfl rfl
  | dropGuard t n hr hn => exact hp.quiet (t := t) rfl (by rw [hr]; rfl) id rfl rfl
  | forget n hn => exact hp
  | claim x p hx => exact hp
  | giveBack t x hr hx => exact hp.quiet (t := t) rfl (by rw [hr]; rfl) id rfl rfl
  | startCancel t x hr hx => exact hp.quiet (t := t) rfl (by rw [hr]; rfl) id rfl rfl
  | pushCancel t x hr => exact hp.quiet (t := t) rfl (by rw [hr]; rfl) id rfl rfl
  | waited t x hr hx => exact hp.quiet (t := t) rfl (by rw [hr]; rfl) id rfl rfl
  | lock t p q after hr hrel =>
    have ho : a.owner = none := hi.lock.owner_none.mpr ⟨q, hrel⟩
    refine hp.move (t := t) rfl Or.inl (fun h => ?_) (by simp [State.ownerPermits, ho])
      (fun h => ?_)
    · rw [hrel] at h
      obtain rfl : q = none := h
      exact Or.inr (Or.inr (Or.inl Tally.add_none))
    · rw [hr] at h
      obtain rfl : p = none := h
      exact Or.inr (Or.inr (Or.inl (show Tally.add cap none q = none from Tally.none_add)))
  | deferLocked t p after hr hrel =>
    refine hp.move (t := t) rfl Or.inl (by simp [hrel, Rel.permits])
      (fun h => Or.inr (Or.inr (Or.inl h))) (fun h => ?_)
    rw [hr] at h
    exact Or.inr (Or.inl h)
  | deferDirty t p q after hr hrel =>
    refine hp.move (t := t) rfl Or.inl (fun h => ?_) (fun h => Or.inr (Or.inr (Or.inl h)))
      (fun h => ?_)
    · rw [hrel] at h
      obtain rfl : q = none := h
      exact Or.inr (Or.inl (show Tally.add cap none p = none from Tally.none_add))
    · rw [hr] at h
      obtain rfl : p = none := h
      exact Or.inr (Or.inl Tally.add_none)
  | swap o ho hp' => exact hp.keep id rfl (by rw [ownerPermits_of_owner ho]; rfl) rfl
  | flipAvailable o ho hp' hacq hl =>
    rcases hp with h | h | h | h
    · simp [hacq, Acq.permits] at h
    · exact Or.inr (Or.inl h)
    · rw [ownerPermits_of_owner ho] at h
      exact Or.inl h
    · exact Or.inr (Or.inr (Or.inr h))
  | flipAdd o q ho hp' hacq =>
    rcases hp with h | h | h | h
    · rw [hacq] at h
      obtain rfl : q = none := h
      exact Or.inl (show Tally.add cap none o.releasable = none from Tally.none_add)
    · exact Or.inr (Or.inl h)
    · rw [ownerPermits_of_owner ho] at h
      exact Or.inl (by rw [h]; exact Tally.add_none)
    · exact Or.inr (Or.inr (Or.inr h))
  | flipTake o pushed ho hp' hacq hpush =>
    exact hp.keep (by simp [hacq, Acq.permits]) rfl (by rw [ownerPermits_of_owner ho]; rfl) rfl
  | flipSkip o ho hp' hacq hl => exact hp.keep id rfl (by rw [ownerPermits_of_owner ho]; rfl) rfl
  | unlink o x taken ho hp' ht =>
    exact hp.keep id rfl (by rw [ownerPermits_of_owner ho]; rfl) rfl
  | accept o x ho hp' => exact hp.keep id rfl (by rw [ownerPermits_of_owner ho]; rfl) rfl
  | cancelled o ho hp' ht => exact hp.keep id rfl (by rw [ownerPermits_of_owner ho]; rfl) rfl
  | stop o ho hp' hb => exact hp.keep id rfl (by rw [ownerPermits_of_owner ho]; rfl) rfl
  | grant o x linked n ho hp' hl hx hr hn =>
    rcases hp with h | h | h | h
    · exact Or.inl h
    · exact Or.inr (Or.inl h)
    · rw [ownerPermits_of_owner ho, hr] at h
      cases h
    · exact Or.inr (Or.inr (Or.inr h))
  | fail o x linked ho hp' hl hx hr => exact hp.keep id rfl rfl rfl
  | relock o q ho hp' hrel =>
    rcases hp with h | h | h | h
    · exact Or.inl h
    · rw [hrel] at h
      obtain rfl : q = none := h
      exact Or.inr (Or.inr (Or.inl Tally.add_none))
    · rw [ownerPermits_of_owner ho] at h
      exact Or.inr (Or.inr (Or.inl (by
        simp only [State.ownerPermits, h, Tally.none_add])))
    · exact Or.inr (Or.inr (Or.inr h))
  | unlock o after ho hp' hrel hr =>
    refine hp.move (t := o.thread) rfl Or.inl (by simp [hrel, Rel.permits]) (fun h => ?_)
      (by simp [hr, Role.permits])
    rw [ownerPermits_of_owner ho] at h
    exact Or.inr (Or.inl h)

/-- Poison in the acquire word stays in the acquire word. -/
theorem acq_poisoned_step (hp : a.acq = .available none) (h : Step cap a b) :
    b.acq = .available none := by
  cases h with
  | fast n m hacq hn => simp [hp] at hacq
  | fastPoll x m hacq hx hn => simp [hp] at hacq
  | enter t x n pushed hr hx hacq => simp [hp] at hacq
  | flipAvailable o ho hp' hacq hl => simp [hp] at hacq
  | flipAdd o q ho hp' hacq =>
    obtain rfl : none = q := Acq.available.inj (hp.symm.trans hacq)
    exact congrArg Acq.available Tally.none_add
  | flipTake o pushed ho hp' hacq hpush => simp [hp] at hacq
  | _ => exact hp

/-- A call to `poison` leaves poison behind. -/
theorem poisoned_of_hist_step (h : Step cap a b) (hi : Inv a)
    (hp : .poison ∈ a.hist → a.Poisoned) (hb : .poison ∈ b.hist) : b.Poisoned := by
  have hold : .poison ∈ a.hist → b.Poisoned := fun hm => (hp hm).step hi h
  cases h with
  | poison t n hr hn =>
    exact Or.inr (Or.inr (Or.inr ⟨t, by simp [Role.permits]⟩))
  | _ => exact hold (by simpa using hb)

end Protocol

section

variable [Usize] {ι : Type}

namespace Sys

/-- A word, or a thread on its way into `release`, holds poison instead of permits: `poison` was
called, a guard was dropped by a panic, or the permits exceeded `maxAvailable`. -/
def Poisoned (s : Sys ι) : Prop :=
  s.sem.acquire.load.Poisoned ∨
    (∃ p, (s.sem.release.load = .unlocked p ∨ s.sem.release.load = .lockedDirty p) ∧
      p.intoUsize = none) ∨
    ∃ t r ret pc, s.frames t = .release r ret pc ∧ r.intoUsize = none

variable [DecidableEq ι]

/-- Other threads do what they like, and `t` begins no other call. -/
def Within (t : ι) (s u : Sys ι) : Prop :=
  Runs.Steps next (fun _ act => ∀ c, act ≠ .call t c) s u

/-- A call of `t` that is in progress returns `r`: it can finish on its own, and whatever the other
threads do, it returns nothing else. -/
def Answers (s : Sys ι) (t : ι) (r : Ret) : Prop :=
  (∃ u, Alone t s u ∧ u.frames t = .idle r) ∧
    ∀ u r', Within t s u → u.frames t = .idle r' → r' = r

/-- From `s` on, every `try_acquire` by `t` reports poison, and so does every first poll. -/
structure ReportsPoison (s : Sys ι) (t : ι) : Prop where
  try_acquire : ∀ u n u', Runs.Reaches next s u → u.next (.call t (.tryAcquire n)) = some u' →
    u'.Answers t .poisoned
  first_poll : ∀ u a u', Runs.Reaches next s u → u.mem.step a = .entering →
    u.next (.call t (.poll a)) = some u' → u'.Answers t .readyErr

end Sys

variable [DecidableEq ι] {s s' : Sys ι} {t : ι} {n : ℕ} {x : Ptr} {act : Act ι} {initial : ℕ}
  {a : Protocol.State ι Ptr}

omit [DecidableEq ι] in
theorem Sim.poisoned_iff (hs : Sim s a) (hi : Protocol.Inv a) : s.Poisoned ↔ a.Poisoned := by
  have hacq := hs.words.acq_permits.1
  have hrel : a.rel.permits = none ↔
      ∃ p, (s.sem.release.load = .unlocked p ∨ s.sem.release.load = .lockedDirty p) ∧
        p.intoUsize = none := by
    rw [hs.words.rel]
    cases s.sem.release.load <;> simp [ReleaseState.rel, Protocol.Rel.permits]
  have hthreads : (a.ownerPermits = none ∨ ∃ t, (a.role t).permits = none) ↔
      ∃ t r ret pc, s.frames t = .release r ret pc ∧ r.intoUsize = none := by
    constructor
    · rintro (ho | ⟨t, ht⟩)
      · unfold Protocol.State.ownerPermits at ho
        cases howner : a.owner with
        | none => simp [howner] at ho
        | some o =>
          obtain ⟨r, ret, pc, hf, hr, -⟩ := hs.pass.owned o howner
          exact ⟨_, r, ret, pc, hf, by simpa [howner, hr] using ho⟩
      · rw [hs.view.role] at ht
        cases hf : s.frames t with
        | release r ret pc =>
          cases hl : pc.locks with
          | true =>
            simp only [hf, Frame.role, hl, if_true] at ht
            exact ⟨t, r, ret, pc, hf, ht⟩
          | false => simp [hf, Frame.role, hl, Protocol.Role.permits] at ht
        | dropFuture y pc => cases pc <;> simp [hf, Frame.role, Protocol.Role.permits] at ht
        | _ => simp [hf, Frame.role, Protocol.Role.permits] at ht
    · rintro ⟨t, r, ret, pc, hf, hr⟩
      cases hl : pc.locks with
      | true =>
        refine Or.inr ⟨t, ?_⟩
        rw [hs.view.role, hf]
        simpa [Frame.role, hl, Protocol.Role.permits] using hr
      | false =>
        obtain ⟨o, ho, -, -, hro, -⟩ := hs.owner_of hi hf hl
        exact Or.inl (by rw [Protocol.ownerPermits_of_owner ho, hro, hr])
  unfold Sys.Poisoned Protocol.State.Poisoned
  rw [← hacq, ← hrel, ← hthreads]

theorem Sys.Poisoned.next (h : s.Poisoned) (hr : Represents s a) (hn : s.next act = some s') :
    s'.Poisoned := by
  have ha := (hr.sim.poisoned_iff hr.inv).mp h
  rcases hr.next hn with hr' | ⟨b, hstep, hr'⟩
  · exact (hr'.sim.poisoned_iff hr'.inv).mpr ha
  · exact (hr'.sim.poisoned_iff hr'.inv).mpr (ha.step hr.inv hstep)

theorem Reachable.poisoned_run (h : Reachable initial s) (hp : s.Poisoned)
    (hrun : Runs.Reaches Sys.next s s') : s'.Poisoned := by
  have hboth := hrun.invariant (I := fun u => Reachable initial u ∧ u.Poisoned)
    (fun v act v' ⟨hv, hpv⟩ _ hn => by
      obtain ⟨a, hr⟩ := hv.represents
      exact ⟨.tail _ hv trivial hn, hpv.next hr hn⟩) ⟨h, hp⟩
  exact hboth.2

/-- Once `poison` was called, or a guard dropped by a panic, the semaphore holds poison for good. -/
theorem Reachable.poisoned_of_hist (h : Reachable initial s) (hp : .poison ∈ s.ghost.hist) :
    s.Poisoned := by
  obtain ⟨a, hr, hpa⟩ := kept_of_run (P := fun a => .poison ∈ a.hist → a.Poisoned)
    (fun _ _ _ _ hr hpa hstep => Protocol.poisoned_of_hist_step hstep hr.inv hpa)
    (by simp [Protocol.State.init]) h
  exact (hr.sim.poisoned_iff hr.inv).mpr (hpa (by rw [hr.sim.view.hist]; exact hp))

omit [DecidableEq ι] in
theorem Sim.acq_poisoned_iff (hs : Sim s a) :
    s.sem.acquire.load.Poisoned ↔ a.acq = .available none := by
  rw [← hs.words.acq_permits.1]
  cases a.acq <;> simp [Protocol.Acq.permits]

theorem Reachable.acq_poisoned_next (h : Reachable initial s)
    (hp : s.sem.acquire.load.Poisoned) (hn : s.next act = some s') :
    s'.sem.acquire.load.Poisoned := by
  obtain ⟨a, hr⟩ := h.represents
  have ha := hr.sim.acq_poisoned_iff.mp hp
  rcases hr.next hn with hr' | ⟨b, hstep, hr'⟩
  · exact hr'.sim.acq_poisoned_iff.mpr ha
  · exact hr'.sim.acq_poisoned_iff.mpr (Protocol.acq_poisoned_step ha hstep)

section TryAcquire

def Sys.TryingPoison (t : ι) (n : ℕ) (s : Sys ι) : Prop :=
  s.frames t = .tryAcquire n .load ∨
    (∃ w : AcquireState, w.Poisoned ∧ s.frames t = .tryAcquire n (.loop w)) ∨
    s.frames t = .idle .poisoned

theorem Sys.TryingPoison.next (h : s.TryingPoison t n) (hp : s.sem.acquire.load.Poisoned)
    (hok : ∀ c, act ≠ .call t c) (hn : s.next act = some s') : s'.TryingPoison t n := by
  by_cases hact : ∃ spurious, act = .step t spurious
  · obtain ⟨spurious, rfl⟩ := hact
    rcases h with hf | ⟨w, hw, hf⟩ | hf
    · rw [next_tryAcquire hf] at hn
      obtain rfl := Option.some.inj hn
      exact Or.inr (Or.inl ⟨_, hp, update_self ..⟩)
    · rw [next_tryAcquire hf] at hn
      obtain rfl := Option.some.inj hn
      obtain ⟨f, hframes, hnext, -⟩ := tryAcquire_next s t n spurious (.loop w)
      rcases hnext with ⟨rfl, -⟩ | ⟨-, hw', -⟩ | ⟨-, hfit⟩ | ⟨-, hfit⟩
      · exact Or.inr (Or.inr (by rw [hframes, update_self]))
      · exact absurd hw hw'
      · exact absurd hw hfit.not_poisoned
      · exact absurd hw hfit.not_poisoned
    · simp [Sys.next, Sys.step, hf] at hn
  · have hframe := next_frames_of_ne hn hok fun spurious he => hact ⟨spurious, he⟩
    unfold TryingPoison
    rw [hframe]
    exact h

theorem Reachable.try_acquire_poisoned (h : Reachable initial s)
    (hp : s.sem.acquire.load.Poisoned) (hn : s.next (.call t (.tryAcquire n)) = some s') :
    s'.Answers t .poisoned := by
  have hreach : Reachable initial s' := .tail _ h trivial hn
  have hp' := h.acq_poisoned_next hp hn
  have hf : s'.frames t = .tryAcquire n .load := by
    simp only [Sys.next] at hn
    split_ifs at hn
    obtain rfl := Option.some.inj hn
    exact update_self ..
  constructor
  · have hload : s'.next (.step t false) =
        some (s'.goto t (.tryAcquire n (.loop s'.sem.acquire.load))) := Sys.next_tryAcquire hf
    have hf₁ : (s'.goto t (.tryAcquire n (.loop s'.sem.acquire.load))).frames t =
        .tryAcquire n (.loop s'.sem.acquire.load) := update_self ..
    have htry : (s'.goto t (.tryAcquire n (.loop s'.sem.acquire.load))).TryingPoison t n :=
      Or.inr (Or.inl ⟨_, hp', hf₁⟩)
    refine ⟨_, .head (.step t false) ⟨_, rfl⟩ hload
      (.single (.step t false) ⟨_, rfl⟩ (Sys.next_tryAcquire hf₁)), ?_⟩
    obtain ⟨r, hr⟩ := Sys.tryAcquire_idle
      (s'.goto t (.tryAcquire n (.loop s'.sem.acquire.load))) t n
    have hanswer : (s'.goto t (.tryAcquire n (.loop s'.sem.acquire.load))).next (.step t false) =
        some _ := Sys.next_tryAcquire hf₁
    rcases htry.next hp' (by simp) hanswer with
      hf | ⟨w, -, hf⟩ | hf
    · cases hf.symm.trans hr
    · cases hf.symm.trans hr
    · exact hf
  · intro u r' hwithin hret
    obtain ⟨-, -, htry⟩ : Reachable initial u ∧ u.sem.acquire.load.Poisoned ∧
        u.TryingPoison t n := by
      refine hwithin.invariant (I := fun u => Reachable initial u ∧
        u.sem.acquire.load.Poisoned ∧ u.TryingPoison t n) ?_ ⟨hreach, hp', Or.inl hf⟩
      rintro v act v' ⟨hv, hpv, htry⟩ hok hn
      exact ⟨.tail _ hv trivial hn, hv.acq_poisoned_next hpv hn, htry.next hpv hok hn⟩
    rcases htry with hf | ⟨w, -, hf⟩ | hf
    · cases hf.symm.trans hret
    · cases hf.symm.trans hret
    · exact (Frame.idle.inj (hf.symm.trans hret)).symm

end TryAcquire

section FirstPoll

def Sys.PollingPoison (t : ι) (x : Ptr) (s : Sys ι) : Prop :=
  s.frames t = .pollEnter x .load ∨
    (∃ w : AcquireState, w.Poisoned ∧ s.frames t = .pollEnter x (.loop w)) ∨
    s.frames t = .idle .readyErr

theorem Sys.PollingPoison.next (h : s.PollingPoison t x) (hp : s.sem.acquire.load.Poisoned)
    (hok : ∀ c, act ≠ .call t c) (hn : s.next act = some s') : s'.PollingPoison t x := by
  by_cases hact : ∃ spurious, act = .step t spurious
  · obtain ⟨spurious, rfl⟩ := hact
    rcases h with hf | ⟨w, hw, hf⟩ | hf
    · rw [next_pollEnter hf] at hn
      obtain rfl := Option.some.inj hn
      exact Or.inr (Or.inl ⟨_, hp, update_self ..⟩)
    · rw [next_pollEnter hf] at hn
      obtain rfl := Option.some.inj hn
      obtain ⟨f, hframes, hnext, -⟩ := pollEnter_next s t x spurious (.loop w)
      rcases hnext with ⟨rfl, -⟩ | ⟨-, hfit⟩ | ⟨-, hfit⟩ | ⟨available, back, tok, -, hw', -⟩
      · exact Or.inr (Or.inr (by rw [hframes, update_self]))
      · exact absurd hw hfit.not_poisoned
      · exact absurd hw hfit.not_poisoned
      · exact absurd hw hw'
    · simp [Sys.next, Sys.step, hf] at hn
  · have hframe := next_frames_of_ne hn hok fun spurious he => hact ⟨spurious, he⟩
    unfold PollingPoison
    rw [hframe]
    exact h

theorem Reachable.first_poll_poisoned (h : Reachable initial s)
    (hp : s.sem.acquire.load.Poisoned) (hx : s.mem.step x = .entering)
    (hn : s.next (.call t (.poll x)) = some s') : s'.Answers t .readyErr := by
  have hreach : Reachable initial s' := .tail _ h trivial hn
  have hp' := h.acq_poisoned_next hp hn
  have hf : s'.frames t = .pollEnter x .load := by
    simp only [Sys.next] at hn
    split_ifs at hn
    obtain ⟨f, hframes, ⟨-, rfl⟩ | ⟨hst, -⟩ | ⟨hst, -⟩⟩ := Sys.call_next hn
    · rw [hframes, update_self]
    · cases hx.symm.trans hst
    · cases hx.symm.trans hst
  constructor
  · have hload : s'.next (.step t false) =
        some (s'.goto t (.pollEnter x (.loop s'.sem.acquire.load))) := Sys.next_pollEnter hf
    have hf₁ : (s'.goto t (.pollEnter x (.loop s'.sem.acquire.load))).frames t =
        .pollEnter x (.loop s'.sem.acquire.load) := update_self ..
    refine ⟨_, .head (.step t false) ⟨_, rfl⟩ hload
      (.single (.step t false) ⟨_, rfl⟩ (Sys.next_pollEnter hf₁)), ?_⟩
    cases hw : s'.sem.acquire.load with
    | queued back => rw [hw] at hp'; exact hp'.elim
    | available q =>
      rw [hw] at hp'
      have hq : q.intoUsize = none := hp'
      simp only [Sys.pollEnter, hq]
      exact update_self ..
  · intro u r' hwithin hret
    obtain ⟨-, -, hpoll⟩ : Reachable initial u ∧ u.sem.acquire.load.Poisoned ∧
        u.PollingPoison t x := by
      refine hwithin.invariant (I := fun u => Reachable initial u ∧
        u.sem.acquire.load.Poisoned ∧ u.PollingPoison t x) ?_ ⟨hreach, hp', Or.inl hf⟩
      rintro v act v' ⟨hv, hpv, hpoll⟩ hok hn
      exact ⟨.tail _ hv trivial hn, hv.acq_poisoned_next hpv hn, hpoll.next hpv hok hn⟩
    rcases hpoll with hf | ⟨w, -, hf⟩ | hf
    · cases hf.symm.trans hret
    · cases hf.symm.trans hret
    · exact (Frame.idle.inj (hf.symm.trans hret)).symm

end FirstPoll

/-- In a quiescent state after the semaphore was poisoned, all later calls report the poison just
when the acquire word is `Available`. -/
theorem reports_poison_iff {s₁ : Sys ι} (h₁ : Reachable initial s₁) (hp : s₁.Poisoned)
    (hrun : Runs.Reaches Sys.next s₁ s) (hq : s.Quiescent) (t : ι) :
    s.ReportsPoison t ↔ ∃ p, s.sem.acquire.load = .available p := by
  have h : Reachable initial s := Runs.Steps.trans h₁ hrun
  constructor
  · intro hrep
    obtain ⟨u, hu⟩ : ∃ u, s.next (.call t (.tryAcquire 0)) = some u :=
      ⟨_, by simp only [Sys.next, hq t, if_true]; rfl⟩
    obtain ⟨⟨u', halone, hret⟩, -⟩ := hrep.try_acquire s 0 u .refl hu
    have hans : s.sem.acquire.load.TryAnswer 0 .poisoned :=
      Sys.Returns.tryAcquire ⟨u, u', hu, halone, hret⟩
    cases hw : s.sem.acquire.load with
    | available p => exact ⟨p, rfl⟩
    | queued back => simp [hw, AcquireState.TryAnswer, AcquireState.Poisoned] at hans
  · rintro ⟨p, hw⟩
    have hword : s.sem.acquire.load.Poisoned := by
      rcases h₁.poisoned_run hp hrun with hacq | ⟨q, hq', hnone⟩ | ⟨u, r, ret, pc, hf, -⟩
      · exact hacq
      · rw [h.unlocked_of_available hq hw] at hq'
        obtain hq' | hq' := hq'
        · obtain rfl := ReleaseState.unlocked.inj hq'
          simp at hnone
        · cases hq'
      · have hidle := hq u
        simp [hf, Frame.isIdle] at hidle
    have hlater : ∀ u, Runs.Reaches Sys.next s u →
        Reachable initial u ∧ u.sem.acquire.load.Poisoned := fun u hu =>
      hu.invariant (I := fun u => Reachable initial u ∧ u.sem.acquire.load.Poisoned)
        (fun v act v' h _ hn => ⟨.tail _ h.1 trivial hn, h.1.acq_poisoned_next h.2 hn⟩)
        ⟨h, hword⟩
    exact ⟨fun u n u' hu hn => (hlater u hu).1.try_acquire_poisoned (hlater u hu).2 hn,
      fun u x u' hu hx hn => (hlater u hu).1.first_poll_poisoned (hlater u hu).2 hx hn⟩

end

attribute [local instance] usize64

def poisonedIdle : Sys Bool :=
  Runs.final Sys.next ([.call false .poison] ++ Act.steps false 9) (Sys.init 3)
    (by decide +kernel)

theorem reports_poison_iff_poisonedIdle : poisonedIdle.ReportsPoison true := by
  have hr : Reachable 3 poisonedIdle := Runs.reaches_final _
  have hhist : .poison ∈ poisonedIdle.ghost.hist := by decide +kernel
  exact (reports_poison_iff hr (hr.poisoned_of_hist hhist) .refl
    (fun t => by cases t <;> rfl) true).mpr ⟨Permits.poison, by decide +kernel⟩

def poisonedWaiter : Sys Bool :=
  Runs.final Sys.next
    ([.acquire (usize64.ptr 0) 1, .call false (.poll (usize64.ptr 0))] ++ Act.steps false 20 ++
      [.call false .poison] ++ Act.steps false 16)
    (Sys.init 0) (by decide +kernel)

/-- The waiter has failed, but a later `try_acquire` still reports `WouldBlock`. -/
theorem poisonedWaiter_not_reported :
    Reachable 0 poisonedWaiter ∧ .poison ∈ poisonedWaiter.ghost.hist ∧ poisonedWaiter.Poisoned ∧
      poisonedWaiter.Quiescent ∧ poisonedWaiter.Returns true (.tryAcquire 1) .wouldBlock ∧
      ¬ poisonedWaiter.ReportsPoison true := by
  have hr : Reachable 0 poisonedWaiter := Runs.reaches_final _
  have hhist : .poison ∈ poisonedWaiter.ghost.hist := by decide +kernel
  refine ⟨hr, hhist, hr.poisoned_of_hist hhist, fun t => by cases t <;> rfl, ?_, ?_⟩
  · exact ⟨_, _, rfl, .head (.step true false) ⟨_, rfl⟩ rfl
      (.single (.step true false) ⟨_, rfl⟩ rfl), rfl⟩
  · intro h
    have hans := h.try_acquire _ 1 _ .refl rfl
    have hstuck := hans.2 _ .wouldBlock (.head (.step true false) (by simp) rfl
      (.single (.step true false) (by simp) rfl)) rfl
    cases hstuck

end WeightedSemaphore
