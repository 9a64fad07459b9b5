import WeightedSemaphore.Conservation

/-!
# What a quiescent semaphore offers

At rest, the permits are in the acquire word, or in the release word behind `Queued(null)`. Both
`try_acquire` and a first poll look at the acquire word only, so the second case offers nothing.
-/

namespace WeightedSemaphore

open Function (update update_self)

section

variable [Usize] {ι : Type} [DecidableEq ι]

namespace Sys

def total (s : Sys ι) : ℕ := s.sem.acquire.load.permits + s.sem.release.load.permits

/-- Neither of the two words is poisoned. -/
def Sound (s : Sys ι) : Prop :=
  ¬ s.sem.acquire.load.Poisoned ∧ ∀ p, s.sem.release.load = .unlocked p → p.intoUsize ≠ none

def Settled (s : Sys ι) : Prop :=
  ∀ u, .installed u ∈ s.ghost.hist → History.GivenUp s.ghost.hist u

/-- Only thread `t` takes steps. -/
def Alone (t : ι) (s u : Sys ι) : Prop :=
  Runs.Steps next (fun _ act => ∃ spurious, act = .step t spurious) s u

def Returns (s : Sys ι) (t : ι) (c : Call) (r : Ret) : Prop :=
  ∃ s₁ s₂, s.next (.call t c) = some s₁ ∧ Alone t s₁ s₂ ∧ s₂.frames t = .idle r

def PollReturns (s : Sys ι) (t : ι) (a : Ptr) (n : ℕ) (r : Ret) : Prop :=
  ∃ s₁, s.next (.acquire a n) = some s₁ ∧ s₁.Returns t (.poll a) r

/-- The semaphore offers its permits: `try_acquire(n)` returns, and it returns `Ok` just when there
are `n` permits; and the first poll of `acquire(n)` returns `Ready(Ok)` just then. -/
structure Offers (s : Sys ι) (t : ι) (a : Ptr) (n : ℕ) : Prop where
  try_returns : ∃ r, s.Returns t (.tryAcquire n) r
  try_acquired : ∀ r, s.Returns t (.tryAcquire n) r → (r = .acquired ↔ n ≤ s.total)
  poll_ready : n ≤ s.total → s.PollReturns t a n .ready
  poll_only : ∀ r, s.PollReturns t a n r → (r = .ready ↔ n ≤ s.total)

end Sys

variable {s s' : Sys ι} {t : ι} {a : Ptr} {n : ℕ} {w : AcquireState} {r : Ret} {initial : ℕ}

section TryAcquire

def AcquireState.TryAnswer (w : AcquireState) (n : ℕ) (r : Ret) : Prop :=
  r = .poisoned ∧ w.Poisoned ∨ r = .wouldBlock ∧ ¬ w.Poisoned ∧ ¬ w.Fits n ∨
    r = .acquired ∧ w.Fits n

theorem AcquireState.TryAnswer.acquired_iff (h : w.TryAnswer n r) : r = .acquired ↔ w.Fits n := by
  rcases h with ⟨rfl, hp⟩ | ⟨rfl, -, hf⟩ | ⟨rfl, hf⟩
  · simpa using mt Fits.not_poisoned (not_not.mpr hp)
  · simpa using hf
  · simpa using hf

def Sys.Trying (t : ι) (n : ℕ) (w : AcquireState) (s : Sys ι) : Prop :=
  s.sem.acquire.load = w ∧
      (s.frames t = .tryAcquire n .load ∨ s.frames t = .tryAcquire n (.loop w)) ∨
    ∃ r, s.frames t = .idle r ∧ w.TryAnswer n r

theorem Sys.Trying.step {spurious : Bool} (h : s.Trying t n w)
    (hn : s.next (.step t spurious) = some s') : s'.Trying t n w := by
  rcases h with ⟨hw, hf⟩ | ⟨r, hf, -⟩
  · obtain ⟨pc, hpc, hf⟩ : ∃ pc, (pc = .load ∨ pc = .loop w) ∧ s.frames t = .tryAcquire n pc := by
      rcases hf with hf | hf
      · exact ⟨_, Or.inl rfl, hf⟩
      · exact ⟨_, Or.inr rfl, hf⟩
    rw [next_tryAcquire hf] at hn
    obtain rfl := Option.some.inj hn
    obtain ⟨f, hframes, hnext, hsem⟩ := tryAcquire_next s t n spurious pc
    have hft : (s.tryAcquire t n spurious pc).frames t = f := by rw [hframes, update_self]
    rw [hw] at hnext
    rcases hpc with rfl | rfl
    · obtain rfl : f = _ := hnext
      exact Or.inl ⟨by rw [hsem (by simp), hw], Or.inr hft⟩
    · rcases hnext with ⟨rfl, hp⟩ | ⟨rfl, hp⟩ | ⟨rfl, hp⟩ | ⟨rfl, -⟩
      · exact Or.inr ⟨_, hft, Or.inl ⟨rfl, hp⟩⟩
      · exact Or.inr ⟨_, hft, Or.inr (Or.inl ⟨rfl, hp⟩)⟩
      · exact Or.inr ⟨_, hft, Or.inr (Or.inr ⟨rfl, hp⟩)⟩
      · exact Or.inl ⟨by rw [hsem (by simp), hw], Or.inr hft⟩
  · simp [next, Sys.step, hf] at hn

theorem Sys.Returns.tryAcquire (h : s.Returns t (.tryAcquire n) r) :
    s.sem.acquire.load.TryAnswer n r := by
  obtain ⟨s₁, s₂, hcall, halone, hret⟩ := h
  simp only [next] at hcall
  split_ifs at hcall
  obtain rfl := Option.some.inj hcall
  have htry : s₂.Trying t n s.sem.acquire.load := by
    refine halone.invariant (I := Trying t n s.sem.acquire.load) ?_ ?_
    · rintro u act u' hu ⟨spurious, rfl⟩ hn
      exact hu.step hn
    · exact Or.inl ⟨rfl, Or.inl (update_self ..)⟩
  rcases htry with ⟨-, hf | hf⟩ | ⟨r', hf, hans⟩
  · simp [hf] at hret
  · simp [hf] at hret
  · obtain rfl := Frame.idle.inj (hf.symm.trans hret)
    exact hans

/-- An exchange that does not fail spuriously ends the loop. -/
theorem Sys.tryAcquire_idle (s : Sys ι) (t : ι) (n : ℕ) :
    ∃ r, (s.tryAcquire t n false (.loop s.sem.acquire.load)).frames t = .idle r := by
  simp only [Sys.tryAcquire]
  cases hw : s.sem.acquire.load with
  | queued back => exact ⟨_, update_self ..⟩
  | available q =>
    dsimp only
    cases q.intoUsize with
    | none => exact ⟨_, update_self ..⟩
    | some m =>
      dsimp only
      split_ifs
      · exact ⟨_, update_self ..⟩
      · rw [← hw, Atomic.cmpxchgWeak_load]
        exact ⟨_, update_self ..⟩

theorem Sys.tryAcquire_returns (hq : s.Quiescent) (t : ι) (n : ℕ) :
    ∃ r, s.Returns t (.tryAcquire n) r := by
  have hcall : s.next (.call t (.tryAcquire n)) = some (s.goto t (.tryAcquire n .load)) := by
    simp only [next, hq t, if_true]
    rfl
  have hf : (s.goto t (.tryAcquire n .load)).frames t = .tryAcquire n .load := update_self ..
  have hload : (s.goto t (.tryAcquire n .load)).next (.step t false) =
      some ((s.goto t (.tryAcquire n .load)).goto t
        (.tryAcquire n (.loop s.sem.acquire.load))) := next_tryAcquire hf
  obtain ⟨r, hr⟩ := tryAcquire_idle
    ((s.goto t (.tryAcquire n .load)).goto t (.tryAcquire n (.loop s.sem.acquire.load))) t n
  exact ⟨r, _, _, hcall, .head (.step t false) ⟨_, rfl⟩ hload
    (.single (.step t false) ⟨_, rfl⟩ (next_tryAcquire (update_self ..))), hr⟩

end TryAcquire

section Poll

def AcquireState.PollAnswer (w : AcquireState) (n : ℕ) (r : Ret) : Prop :=
  r = .readyErr ∧ w.Poisoned ∨ r = .pending ∧ ¬ w.Fits n ∨ r = .ready ∧ w.Fits n

theorem AcquireState.PollAnswer.ready_iff (h : w.PollAnswer n r) : r = .ready ↔ w.Fits n := by
  rcases h with ⟨rfl, hp⟩ | ⟨rfl, hf⟩ | ⟨rfl, hf⟩
  · simpa using mt Fits.not_poisoned (not_not.mpr hp)
  · simpa using hf
  · simpa using hf

def EnterPc.Reads (w : AcquireState) (n : ℕ) : EnterPc → Prop
  | load => True
  | loop current => current = w
  | poll _ _ _ _ _ => ¬ w.Fits n
  | push _ _ _ => ¬ w.Fits n

/-- While `t` alone polls the new future `a` for `n` permits: the word stays as it was until the
future is installed, and then the poll can only return `Pending`. -/
def Sys.Polling (t : ι) (a : Ptr) (n : ℕ) (w : AcquireState) (s : Sys ι) : Prop :=
  match s.frames t with
  | .pollEnter b pc => b = a ∧ s.mem.amount a = n ∧ s.sem.acquire.load = w ∧ pc.Reads w n
  | .release _ ret _ => ret = .pollEnter a ∧ ¬ w.Fits n
  | .idle r => w.PollAnswer n r
  | .panicked => True
  | _ => False

theorem Sys.Polling.step {spurious : Bool} (h : s.Polling t a n w)
    (hn : s.next (.step t spurious) = some s') : s'.Polling t a n w := by
  unfold Polling at h
  cases hf : s.frames t with
  | idle r => simp [next, Sys.step, hf] at hn
  | panicked => simp [next, Sys.step, hf] at hn
  | pollEnter b pc =>
    rw [hf] at h
    obtain ⟨rfl, hamount, hw, hpc⟩ := h
    rw [next_pollEnter hf] at hn
    obtain rfl := Option.some.inj hn
    obtain ⟨f, hframes, hnext, hsem, hmem⟩ := pollEnter_next s t b spurious pc
    have hft : (s.pollEnter t b spurious pc).frames t = f := by rw [hframes, update_self]
    rw [hw, hamount] at hnext
    unfold Polling
    rw [hft, hmem]
    have stay : ∀ pc', f = .pollEnter b pc' → pc'.Reads w n →
        b = b ∧ s.mem.amount b = n ∧
          (s.pollEnter t b spurious pc).sem.acquire.load = w ∧ pc'.Reads w n := by
      rintro pc' rfl hreads
      exact ⟨rfl, hamount, by rw [hsem (by simp) (by simp), hw], hreads⟩
    cases pc with
    | load =>
      obtain rfl : f = _ := hnext
      exact stay _ rfl rfl
    | loop current =>
      obtain rfl : current = w := hpc
      rcases hnext with ⟨rfl, hp⟩ | ⟨rfl, hp⟩ | ⟨rfl, -⟩ | ⟨available, back, tok, rfl, -, hp⟩
      · exact Or.inl ⟨rfl, hp⟩
      · exact Or.inr (Or.inr ⟨rfl, hp⟩)
      · exact stay _ rfl rfl
      · exact stay _ rfl hp
    | poll current available back tok pc =>
      rcases hnext with ⟨pc', rfl⟩ | rfl | rfl
      · exact stay _ rfl hpc
      · exact stay _ rfl hpc
      · trivial
    | push current available back =>
      rcases hnext with rfl | ⟨r, rfl⟩
      · exact stay _ rfl rfl
      · exact ⟨rfl, hpc⟩
  | release r ret pc =>
    rw [hf] at h
    obtain ⟨rfl, hfit⟩ := h
    rw [next_release hf] at hn
    obtain rfl := Option.some.inj hn
    obtain ⟨f, hframes, hafter⟩ := release_next s t r (.pollEnter a) spurious pc
    unfold Polling
    rw [hframes, update_self]
    cases f with
    | release r ret pc => exact ⟨hafter, hfit⟩
    | panicked => trivial
    | idle r =>
      cases r with
      | pending => exact Or.inr (Or.inl ⟨rfl, hfit⟩)
      | unit => cases hafter
      | _ => exact hafter.elim
    | dropFuture b pc =>
      cases pc with
      | waitCancel pc => cases pc <;> cases hafter
      | waker => cases hafter
      | _ => exact hafter.elim
    | _ => exact hafter.elim
  | _ => rw [hf] at h; exact h.elim

theorem Sys.next_poll_entering (hidle : (s.frames t).isIdle = true) (hlive : a ∈ s.live)
    (huser : s.user a = none) (hstep : s.mem.step a = .entering) :
    s.next (.call t (.poll a)) = some ((s.setUser a (some t)).goto t (.pollEnter a .load)) := by
  simp only [next, call, hidle, if_true]
  rw [if_pos ⟨hlive, huser⟩, hstep]

/-- A new future at a free address, and the beginning of its first poll. -/
theorem Sys.poll_begins (ha : a ∉ s.live) (hnull : a ≠ null) (hq : s.Quiescent) (t : ι) (n : ℕ) :
    ∃ s₁ s₂, s.next (.acquire a n) = some s₁ ∧ s₁.next (.call t (.poll a)) = some s₂ ∧
      s₂.frames t = .pollEnter a .load ∧ s₂.mem.amount a = n ∧ s₂.sem = s.sem := by
  obtain ⟨s₁, hs₁, hidle, hlive, huser, hstep, hamount, hsem⟩ : ∃ s₁, s.next (.acquire a n) =
      some s₁ ∧ (s₁.frames t).isIdle = true ∧ a ∈ s₁.live ∧ s₁.user a = none ∧
        s₁.mem.step a = .entering ∧ s₁.mem.amount a = n ∧ s₁.sem = s.sem :=
    ⟨_, if_pos ⟨ha, hnull⟩, hq t, Finset.mem_insert_self .., update_self .., update_self ..,
      update_self .., rfl⟩
  exact ⟨s₁, _, hs₁, next_poll_entering hidle hlive huser hstep, update_self .., hamount, hsem⟩

theorem Sys.PollReturns.answer (ha : a ∉ s.live) (hnull : a ≠ null) (hq : s.Quiescent)
    (h : s.PollReturns t a n r) : s.sem.acquire.load.PollAnswer n r := by
  obtain ⟨s₁, hacq, s₂, s₃, hcall, halone, hret⟩ := h
  obtain ⟨s₁', s₂', hacq', hcall', hf, hamount, hsem⟩ := poll_begins ha hnull hq t n
  obtain rfl := Option.some.inj (hacq.symm.trans hacq')
  obtain rfl := Option.some.inj (hcall.symm.trans hcall')
  have hpoll : s₃.Polling t a n s.sem.acquire.load := by
    refine halone.invariant (I := Polling t a n s.sem.acquire.load) ?_ ?_
    · rintro u act u' hu ⟨spurious, rfl⟩ hn
      exact hu.step hn
    · unfold Polling
      rw [hf]
      exact ⟨rfl, hamount, by rw [hsem], trivial⟩
  unfold Polling at hpoll
  rwa [hret] at hpoll

theorem Sys.poll_ready (ha : a ∉ s.live) (hnull : a ≠ null) (hq : s.Quiescent)
    (hfit : s.sem.acquire.load.Fits n) : s.PollReturns t a n .ready := by
  obtain ⟨s₁, s₂, hacq, hcall, hf, hamount, hsem⟩ := poll_begins ha hnull hq t n
  have hload : s₂.next (.step t false) =
      some (s₂.goto t (.pollEnter a (.loop s.sem.acquire.load))) := by
    rw [← hsem]
    exact next_pollEnter hf
  have hloop : ((s₂.goto t (.pollEnter a (.loop s.sem.acquire.load))).pollEnter t a false
      (.loop s.sem.acquire.load)).frames t = .idle .ready := by
    cases hw : s.sem.acquire.load with
    | queued back => rw [hw] at hfit; exact hfit.elim
    | available q =>
      rw [hw] at hfit
      obtain ⟨m, hm, hle⟩ := hfit
      simp only [pollEnter, hm, goto, hamount, if_pos hle, hsem]
      rw [← hw, Atomic.cmpxchgWeak_load]
      exact update_self ..
  exact ⟨s₁, hacq, s₂, _, hcall, .head (.step t false) ⟨_, rfl⟩ hload
    (.single (.step t false) ⟨_, rfl⟩ (next_pollEnter (update_self ..))), hloop⟩

end Poll

section Theorem

omit [DecidableEq ι] in
theorem Sim.owner_of_quiescent {a : Protocol.State ι Ptr} (hs : Sim s a) (hq : s.Quiescent) :
    a.owner = none := by
  cases ho : a.owner with
  | none => rfl
  | some o =>
    obtain ⟨r, ret, pc, hf, -⟩ := hs.pass.owned o ho
    have hidle := hq o.thread
    simp [hf, Frame.isIdle] at hidle

/-- At rest, while the acquire word is `Available`, the release word is unlocked and empty. -/
theorem Reachable.unlocked_of_available (h : Reachable initial s) (hq : s.Quiescent)
    {p : Permits} (hp : s.sem.acquire.load = .available p) :
    s.sem.release.load = .unlocked (Permits.new 0) := by
  obtain ⟨a, hs, hi, -⟩ := h.represents
  obtain ⟨q, hrel⟩ := hi.lock.owner_none.mp (hs.owner_of_quiescent hq)
  obtain rfl := hi.available.unlocked _ _ (hs.words.acq_available hp) hrel
  rw [hs.words.rel] at hrel
  cases hload : s.sem.release.load with
  | unlocked q =>
    rw [hload] at hrel
    rw [(Permits.intoUsize_eq_some.mp (Protocol.Rel.unlocked.inj hrel)).1]
  | locked => simp [hload, ReleaseState.rel] at hrel
  | lockedDirty q => simp [hload, ReleaseState.rel] at hrel

theorem Reachable.total_of_available (h : Reachable initial s) (hq : s.Quiescent) {p : Permits}
    (hp : s.sem.acquire.load = .available p) : s.total = p.count := by
  rw [Sys.total, hp, h.unlocked_of_available hq hp]
  rfl

/-- From a quiescent state that is not poisoned, the semaphore offers its permits just when the
acquire word is `Available`, or when there are too few of them anyway. -/
theorem offers_iff (h : Reachable initial s) (hq : s.Quiescent) (hsound : s.Sound)
    (ha : a ∉ s.live) (hnull : a ≠ null) :
    s.Offers t a n ↔ (∃ p, s.sem.acquire.load = .available p) ∨ s.total < n := by
  have hoffers : s.Offers t a n ↔ (s.sem.acquire.load.Fits n ↔ n ≤ s.total) := by
    constructor
    · intro ho
      obtain ⟨r, hr⟩ := ho.try_returns
      exact (Sys.Returns.tryAcquire hr).acquired_iff.symm.trans (ho.try_acquired r hr)
    · intro hiff
      exact ⟨Sys.tryAcquire_returns hq t n,
        fun r hr => (Sys.Returns.tryAcquire hr).acquired_iff.trans hiff,
        fun hle => Sys.poll_ready ha hnull hq (hiff.mpr hle),
        fun r hr => (Sys.PollReturns.answer ha hnull hq hr).ready_iff.trans hiff⟩
  rw [hoffers]
  cases hw : s.sem.acquire.load with
  | queued back => simp [AcquireState.Fits]
  | available p =>
    obtain ⟨m, hm⟩ := Option.ne_none_iff_exists'.mp (show p.intoUsize ≠ none by
      have := hsound.1
      rwa [hw] at this)
    rw [h.total_of_available hq hw, Permits.count, hm]
    simp [AcquireState.Fits, hm]

end Theorem

end

attribute [local instance] usize64

theorem offers_iff_init : (Sys.init 3 : Sys Bool).Offers true (usize64.ptr 0) 2 := by
  have hacq : (Sys.init 3 : Sys Bool).sem.acquire.load = .available (Permits.new 3) := by
    decide +kernel
  have hrel : (Sys.init 3 : Sys Bool).sem.release.load = .unlocked (Permits.new 0) := by
    decide +kernel
  have hsound : (Sys.init 3 : Sys Bool).Sound := by
    refine ⟨by rw [hacq]; exact (by decide +kernel : (Permits.new 3).intoUsize ≠ none), ?_⟩
    intro p hp
    obtain rfl := ReleaseState.unlocked.inj (hrel.symm.trans hp)
    simp
  have hreach : Reachable 3 (Sys.init 3 : Sys Bool) := .refl
  exact (offers_iff hreach (fun _ => rfl) hsound (by simp [Sys.init])
    (by decide +kernel)).mpr (Or.inl ⟨_, hacq⟩)

/-- A waiter asks for one permit and is granted it by a release of five. -/
def leftOver : Sys Bool :=
  Runs.final Sys.next
    ([.acquire (usize64.ptr 0) 1, .call false (.poll (usize64.ptr 0))] ++ Act.steps false 20 ++
      [.call false (.release 5)] ++ Act.steps false 16)
    (Sys.init 0) (by decide +kernel)

/-- Four permits and no waiter are left, but `try_acquire(1)` reports `WouldBlock`. -/
theorem leftOver_not_offered :
    Reachable 0 leftOver ∧ leftOver.Quiescent ∧ leftOver.Sound ∧ leftOver.Settled ∧
      leftOver.total = 4 ∧ leftOver.Returns true (.tryAcquire 1) .wouldBlock ∧
      ¬ leftOver.Offers true (usize64.ptr 1) 1 := by
  have hacq : leftOver.sem.acquire.load = .queued null := by decide +kernel
  have hrel : leftOver.sem.release.load = .unlocked (Permits.new 4) := by decide +kernel
  have htotal : leftOver.total = 4 := by decide +kernel
  have hhist : leftOver.ghost.hist = [.finished 0 false, .released 5, .installed 0] := by
    decide +kernel
  have hret : leftOver.Returns true (.tryAcquire 1) .wouldBlock := by
    refine ⟨_, _, rfl, .head (.step true false) ⟨_, rfl⟩ rfl
      (.single (.step true false) ⟨_, rfl⟩ rfl), ?_⟩
    rfl
  refine ⟨Runs.reaches_final _, fun t => by cases t <;> rfl, ⟨?_, ?_⟩, ?_, htotal, hret, ?_⟩
  · rw [hacq]
    exact id
  · intro p hp
    obtain rfl := ReleaseState.unlocked.inj (hrel.symm.trans hp)
    decide +kernel
  · intro u hu
    rw [hhist] at hu ⊢
    obtain rfl : u = 0 := by simpa using hu
    exact Or.inl ⟨false, by simp⟩
  · intro h
    have := (h.try_acquired _ hret).mpr (by rw [htotal]; decide)
    cases this

end WeightedSemaphore
