import WeightedSemaphore.Machine

/-!
# Where a step leads, and what a call returns

A step of a thread replaces its frame and no other. For each method, `Next` lists the frames that
can follow, as far as they decide the result of the call. The conditions are on the acquire word
that the method has read.
-/

namespace WeightedSemaphore

open Function (update)

variable [Usize] {ι : Type}

namespace AcquireState

def Fits (amount : ℕ) : AcquireState → Prop
  | available q => ∃ n, q.intoUsize = some n ∧ amount ≤ n
  | queued _ => False

def Poisoned : AcquireState → Prop
  | available q => q.intoUsize = none
  | queued _ => False

theorem Fits.not_poisoned {amount : ℕ} {v : AcquireState} (h : v.Fits amount) : ¬ v.Poisoned := by
  cases v with
  | queued back => exact h.elim
  | available q =>
    obtain ⟨n, hn, -⟩ := h
    simp [Poisoned, hn]

end AcquireState

def TryAcquirePc.Next (word : AcquireState) (amount : ℕ) : TryAcquirePc → Frame ι → Prop
  | load, f => f = .tryAcquire amount (.loop word)
  | loop current, f =>
    f = .idle .poisoned ∧ current.Poisoned ∨
    f = .idle .wouldBlock ∧ ¬ current.Poisoned ∧ ¬ current.Fits amount ∨
    f = .idle .acquired ∧ current.Fits amount ∨
    f = .tryAcquire amount (.loop word) ∧ current.Fits amount

def EnterPc.Next (word : AcquireState) (a : Ptr) (amount : ℕ) : EnterPc → Frame ι → Prop
  | load, f => f = .pollEnter a (.loop word)
  | loop current, f =>
    f = .idle .readyErr ∧ current.Poisoned ∨
    f = .idle .ready ∧ current.Fits amount ∨
    f = .pollEnter a (.loop word) ∧ current.Fits amount ∨
    ∃ available back tok, f = .pollEnter a (.poll current available back tok .load) ∧
      ¬ current.Poisoned ∧ ¬ current.Fits amount
  | poll current available back tok _, f =>
    (∃ pc, f = .pollEnter a (.poll current available back tok pc)) ∨
    f = .pollEnter a (.push current available back) ∨ f = .panicked
  | push _ _ _, f =>
    f = .pollEnter a (.loop word) ∨ ∃ r, f = .release r (.pollEnter a) .lockLoad

/-- The frames of a call to `release` with this continuation, up to the return from it. -/
def Frame.After (ret : Cont) : Frame ι → Prop
  | release _ ret' _ => ret' = ret
  | panicked => True
  | idle .unit => ret = .caller
  | idle .pending => ∃ a, ret = .pollEnter a
  | dropFuture a (.waitCancel .load) => ret = .cancelling a
  | dropFuture a .waker => ret = .gaveBack a
  | _ => False

def Frame.Drops (a : Ptr) : Frame ι → Prop
  | dropFuture b _ => b = a
  | release _ ret _ => ret = .cancelling a ∨ ret = .gaveBack a
  | idle .unit => True
  | panicked => True
  | _ => False

variable [DecidableEq ι] {s s' : Sys ι} {t : ι} {spurious : Bool} {r : Permits} {ret : Cont}

namespace Sys

theorem tryAcquire_next (s : Sys ι) (t : ι) (amount : ℕ) (spurious : Bool) (pc : TryAcquirePc) :
    ∃ f, (s.tryAcquire t amount spurious pc).frames = update s.frames t f ∧
      pc.Next s.sem.acquire.load amount f ∧
      (f ≠ .idle .acquired → (s.tryAcquire t amount spurious pc).sem.acquire = s.sem.acquire) := by
  cases pc with
  | load => exact ⟨_, rfl, rfl, fun _ => rfl⟩
  | loop current =>
    cases current with
    | queued back =>
      exact ⟨_, rfl, Or.inr (Or.inl ⟨rfl, by simp [AcquireState.Poisoned], id⟩), fun _ => rfl⟩
    | available q =>
      simp only [tryAcquire]
      cases hq : q.intoUsize with
      | none => exact ⟨_, rfl, Or.inl ⟨rfl, hq⟩, fun _ => rfl⟩
      | some n =>
        dsimp only
        split_ifs with hlt
        · refine ⟨_, rfl, Or.inr (Or.inl ⟨rfl, by simp [AcquireState.Poisoned, hq], ?_⟩),
            fun _ => rfl⟩
          rintro ⟨m, hm, hle⟩
          obtain rfl := Option.some.inj (hq.symm.trans hm)
          omega
        · have hfits : (AcquireState.available q).Fits amount := ⟨n, hq, by omega⟩
          cases s.sem.acquire.cmpxchgWeak (.available q) (.available (Permits.new (n - amount)))
            spurious with
          | none => exact ⟨_, rfl, Or.inr (Or.inr (Or.inr ⟨rfl, hfits⟩)), fun _ => rfl⟩
          | some acquire =>
            exact ⟨_, rfl, Or.inr (Or.inr (Or.inl ⟨rfl, hfits⟩)), fun h => absurd rfl h⟩

theorem pollEnter_next (s : Sys ι) (t : ι) (a : Ptr) (spurious : Bool) (pc : EnterPc) :
    ∃ f, (s.pollEnter t a spurious pc).frames = update s.frames t f ∧
      pc.Next s.sem.acquire.load a (s.mem.amount a) f ∧
      (f ≠ .idle .ready → (∀ r ret pc, f ≠ .release r ret pc) →
        (s.pollEnter t a spurious pc).sem.acquire = s.sem.acquire) ∧
      (s.pollEnter t a spurious pc).mem.amount = s.mem.amount := by
  cases pc with
  | load => exact ⟨_, rfl, rfl, fun _ _ => rfl, rfl⟩
  | loop current =>
    cases current with
    | queued back =>
      refine ⟨_, rfl, Or.inr (Or.inr (Or.inr ⟨_, _, _, rfl, ?_, id⟩)), fun _ _ => rfl, rfl⟩
      simp [AcquireState.Poisoned]
    | available q =>
      simp only [pollEnter]
      cases hq : q.intoUsize with
      | none => exact ⟨_, rfl, Or.inl ⟨rfl, hq⟩, fun _ _ => rfl, rfl⟩
      | some n =>
        dsimp only
        split_ifs with hle
        · have hfits : (AcquireState.available q).Fits (s.mem.amount a) := ⟨n, hq, hle⟩
          cases s.sem.acquire.cmpxchgWeak (.available q)
            (.available (Permits.new (n - s.mem.amount a))) spurious with
          | none => exact ⟨_, rfl, Or.inr (Or.inr (Or.inl ⟨rfl, hfits⟩)), fun _ _ => rfl, rfl⟩
          | some acquire =>
            exact ⟨_, rfl, Or.inr (Or.inl ⟨rfl, hfits⟩), fun h _ => absurd rfl h, rfl⟩
        · refine ⟨_, rfl, Or.inr (Or.inr (Or.inr ⟨_, _, _, rfl, ?_, ?_⟩)), fun _ _ => rfl, rfl⟩
          · simp [AcquireState.Poisoned, hq]
          · rintro ⟨m, hm, hle'⟩
            obtain rfl := Option.some.inj (hq.symm.trans hm)
            omega
  | poll current available back tok pc =>
    simp only [pollEnter]
    split
    · exact ⟨_, rfl, Or.inl ⟨_, rfl⟩, fun _ _ => rfl, rfl⟩
    · exact ⟨_, rfl, Or.inr (Or.inl rfl), fun _ _ => rfl, rfl⟩
    · exact ⟨_, rfl, Or.inr (Or.inr rfl), fun _ _ => rfl, rfl⟩
    · exact ⟨_, rfl, Or.inr (Or.inr rfl), fun _ _ => rfl, rfl⟩
  | push current available back =>
    simp only [pollEnter]
    cases s.sem.acquire.cmpxchgWeak current (.queued a) spurious with
    | none => exact ⟨_, rfl, Or.inl rfl, fun _ _ => rfl, rfl⟩
    | some acquire => exact ⟨_, rfl, Or.inr ⟨_, rfl⟩, fun _ h => absurd rfl (h _ _ _), rfl⟩

theorem afterRelease_next (s : Sys ι) (t : ι) (ret : Cont) :
    ∃ f, (s.afterRelease t ret).frames = update s.frames t f ∧ f.After ret := by
  cases ret with
  | caller => exact ⟨_, rfl, rfl⟩
  | pollEnter a => exact ⟨_, rfl, a, rfl⟩
  | cancelling a => exact ⟨_, rfl, rfl⟩
  | gaveBack a => exact ⟨_, rfl, rfl⟩

theorem release_next (s : Sys ι) (t : ι) (r : Permits) (ret : Cont) (spurious : Bool)
    (pc : ReleasePc ι) :
    ∃ f, (s.release t r ret spurious pc).frames = update s.frames t f ∧ f.After ret := by
  cases pc with
  | lock current =>
    simp only [release, lockOrElseDefer]
    cases current <;> dsimp only <;> split
    all_goals first
      | exact ⟨_, rfl, rfl⟩
      | exact afterRelease_next _ t ret
  | flip nextCancel current =>
    simp only [release, flip]
    cases current with
    | queued back =>
      dsimp only
      split_ifs
      · split <;> exact ⟨_, rfl, rfl⟩
      · exact ⟨_, rfl, rfl⟩
      · split <;> exact ⟨_, rfl, rfl⟩
    | available q =>
      dsimp only
      split
      · split_ifs
        · exact ⟨_, rfl, rfl⟩
        · exact ⟨_, rfl, trivial⟩
      · exact ⟨_, rfl, rfl⟩
  | walk nextCancel back waiter =>
    simp only [release, walk]
    split_ifs <;> exact ⟨_, rfl, rfl⟩
  | cancel nextCancel =>
    simp only [release, cancel]
    split_ifs <;> exact ⟨_, rfl, rfl⟩
  | accept waker nextCancel pc =>
    simp only [release, accept]
    split <;> first | exact ⟨_, rfl, rfl⟩ | exact ⟨_, rfl, trivial⟩
  | tryPop =>
    simp only [release, tryPop]
    split_ifs
    · exact ⟨_, rfl, rfl⟩
    · split
      · split_ifs <;> exact ⟨_, rfl, rfl⟩
      · exact ⟨_, rfl, rfl⟩
  | finish pop pc =>
    simp only [release, finish]
    split <;> first | exact ⟨_, rfl, rfl⟩ | exact ⟨_, rfl, trivial⟩
  | unlock current =>
    simp only [release, tryUnlock]
    cases current with
    | unlocked q => exact ⟨_, rfl, trivial⟩
    | locked =>
      dsimp only
      split
      · exact afterRelease_next _ t ret
      · exact ⟨_, rfl, rfl⟩
    | lockedDirty q => dsimp only; split <;> exact ⟨_, rfl, rfl⟩
  | _ => exact ⟨_, rfl, rfl⟩

theorem dropFuture_next {a : Ptr} {pc : DropPc} (h : s.dropFuture t a spurious pc = some s') :
    ∃ f, s'.frames = update s.frames t f ∧ f.Drops a := by
  cases pc with
  | startCancel pc =>
    simp only [dropFuture] at h
    split at h <;> obtain rfl := Option.some.inj h
    · exact ⟨_, rfl, rfl⟩
    · exact ⟨_, rfl, rfl⟩
    · exact ⟨_, rfl, rfl⟩
    · exact ⟨_, rfl, Or.inr rfl⟩
    · exact ⟨_, rfl, trivial⟩
  | loadCancel =>
    obtain rfl := Option.some.inj h
    exact ⟨_, rfl, rfl⟩
  | pushCancel current =>
    simp only [dropFuture] at h
    split at h <;> obtain rfl := Option.some.inj h
    · exact ⟨_, rfl, Or.inl rfl⟩
    · exact ⟨_, rfl, rfl⟩
  | waitCancel pc =>
    cases pc with
    | load =>
      simp only [dropFuture] at h
      split at h <;> obtain rfl := Option.some.inj h
      · exact ⟨_, rfl, rfl⟩
      · exact ⟨_, rfl, rfl⟩
      · exact ⟨_, rfl, trivial⟩
    | park =>
      simp only [dropFuture] at h
      split_ifs at h
      obtain rfl := Option.some.inj h
      exact ⟨_, rfl, rfl⟩
  | waker =>
    simp only [dropFuture] at h
    split at h <;> obtain rfl := Option.some.inj h <;> exact ⟨_, rfl, trivial⟩

theorem pollWaiting_next (s : Sys ι) (t : ι) (a : Ptr) (tok : ℕ) (spurious : Bool)
    (pc : AtomicWaker.PollPc) :
    ∃ f, (s.pollWaiting t a tok spurious pc).frames = update s.frames t f ∧
      ((∃ pc', f = .pollWaiting a tok pc') ∨ f = .idle .pending ∨ f = .panicked ∨
        ∃ p, ((s.mem.waker a).poll tok spurious pc).flow = .ret (.ready p) ∧
          f = .idle (if p then .readyErr else .ready)) := by
  simp only [pollWaiting]
  split
  · exact ⟨_, rfl, Or.inl ⟨_, rfl⟩⟩
  · exact ⟨_, rfl, Or.inr (Or.inl rfl)⟩
  · exact ⟨_, rfl, Or.inr (Or.inr (Or.inr ⟨true, by assumption, rfl⟩))⟩
  · exact ⟨_, rfl, Or.inr (Or.inr (Or.inr ⟨false, by assumption, rfl⟩))⟩
  · exact ⟨_, rfl, Or.inr (Or.inr (Or.inl rfl))⟩

/-- A step of `t` changes the frame of `t` only. -/
theorem step_frames (h : s.step t spurious = some s') : ∃ f, s'.frames = update s.frames t f := by
  unfold step at h
  cases hf : s.frames t with
  | idle r => simp [hf] at h
  | panicked => simp [hf] at h
  | tryAcquire amount pc =>
    rw [hf] at h
    obtain rfl := Option.some.inj h
    exact (tryAcquire_next s t amount spurious pc).imp fun _ h => h.1
  | pollEnter a pc =>
    rw [hf] at h
    obtain rfl := Option.some.inj h
    exact (pollEnter_next s t a spurious pc).imp fun _ h => h.1
  | pollWaiting a tok pc =>
    rw [hf] at h
    obtain rfl := Option.some.inj h
    exact (pollWaiting_next s t a tok spurious pc).imp fun _ h => h.1
  | release r ret pc =>
    rw [hf] at h
    obtain rfl := Option.some.inj h
    exact (release_next s t r ret spurious pc).imp fun _ h => h.1
  | dropFuture a pc =>
    rw [hf] at h
    exact (dropFuture_next h).imp fun _ h => h.1

/-- A call begins in the frame of its method; polling a completed future panics at once. -/
theorem call_next {c : Call} (h : s.call t c = some s') :
    ∃ f, s'.frames = update s.frames t f ∧
      match c with
      | .poll a => s.mem.step a = .entering ∧ f = .pollEnter a .load ∨
          s.mem.step a = .waiting ∧ (∃ tok, f = .pollWaiting a tok .load) ∨
          s.mem.step a = .done ∧ f = .idle .panicked
      | .dropFuture a => f.Drops a
      | .tryAcquire amount => f = .tryAcquire amount .load
      | .release _ => ∃ r, f = .release r .caller .lockLoad
      | .poison => ∃ r, f = .release r .caller .lockLoad
      | .dropGuard _ => ∃ r, f = .release r .caller .lockLoad := by
  cases c with
  | poll a =>
    simp only [call] at h
    split_ifs at h
    cases hst : s.mem.step a <;> rw [hst] at h <;> obtain rfl := Option.some.inj h
    · exact ⟨_, rfl, Or.inl ⟨hst, rfl⟩⟩
    · exact ⟨_, rfl, Or.inr (Or.inl ⟨hst, _, rfl⟩)⟩
    · exact ⟨_, rfl, Or.inr (Or.inr ⟨hst, rfl⟩)⟩
  | dropFuture a =>
    simp only [call] at h
    split_ifs at h
    cases hst : s.mem.step a <;> rw [hst] at h <;> obtain rfl := Option.some.inj h <;>
      exact ⟨_, rfl, rfl⟩
  | tryAcquire amount =>
    obtain rfl := Option.some.inj h
    exact ⟨_, rfl, rfl⟩
  | release amount =>
    obtain rfl := Option.some.inj h
    exact ⟨_, rfl, _, rfl⟩
  | poison =>
    obtain rfl := Option.some.inj h
    exact ⟨_, rfl, _, rfl⟩
  | dropGuard i =>
    simp only [call] at h
    split at h
    · cases h
    · split_ifs at h <;> obtain rfl := Option.some.inj h <;> exact ⟨_, rfl, _, rfl⟩

theorem next_tryAcquire {amount : ℕ} {pc : TryAcquirePc} (hf : s.frames t = .tryAcquire amount pc) :
    s.next (.step t spurious) = some (s.tryAcquire t amount spurious pc) := by
  simp only [next, step, hf]

theorem next_pollEnter {a : Ptr} {pc : EnterPc} (hf : s.frames t = .pollEnter a pc) :
    s.next (.step t spurious) = some (s.pollEnter t a spurious pc) := by
  simp only [next, step, hf]

theorem next_release {pc : ReleasePc ι} (hf : s.frames t = .release r ret pc) :
    s.next (.step t spurious) = some (s.release t r ret spurious pc) := by
  simp only [next, step, hf]

/-- The other threads, and the users of idle objects, leave the frame of `t` alone. -/
theorem next_frames_of_ne {act : Act ι} (h : s.next act = some s') (hcall : ∀ c, act ≠ .call t c)
    (hstep : ∀ spurious, act ≠ .step t spurious) : s'.frames t = s.frames t := by
  cases act with
  | call u c =>
    have hu : t ≠ u := by rintro rfl; exact hcall c rfl
    simp only [next] at h
    split_ifs at h
    obtain ⟨f, hf, -⟩ := call_next h
    rw [hf, Function.update_of_ne hu]
  | step u spurious =>
    have hu : t ≠ u := by rintro rfl; exact hstep spurious rfl
    obtain ⟨f, hf⟩ := step_frames h
    rw [hf, Function.update_of_ne hu]
  | acquire a amount =>
    simp only [next, acquire] at h
    split_ifs at h
    obtain rfl := Option.some.inj h
    rfl
  | forget i =>
    simp only [next, forget] at h
    split at h
    · cases h
    · obtain rfl := Option.some.inj h
      rfl
  | setPanicking u panicking =>
    simp only [next] at h
    split_ifs at h
    obtain rfl := Option.some.inj h
    rfl

end Sys

end WeightedSemaphore
