import WeightedSemaphore.BoundedWork
import WeightedSemaphore.Refinement

/-!
# A thread that runs alone

From any state on, a thread that is the only one to step comes to the end of its call, unless it is
parked for the acceptance of a cancellation. Its exchanges fail at most because of what others have
done before: an exchange that fails is repeated with the word as it is. Outside of `release` the
steps are counted; inside, they are bounded by the work of the lock owner.
-/

namespace WeightedSemaphore

open Function (update update_self update_of_ne)
open AtomicWaker (PollPc StartCancelPc FinishPc AcceptCancelPc WaitCancelPc startCancel)
open Waker (State)

variable [Usize] {ι : Type}

def AtomicWaker.PollPc.left (state : State) : PollPc → ℕ
  | load => 8
  | start current => if state = current then 7 else 8
  | loadData _ => 6
  | loadVtable _ _ => 5
  | storeData _ _ _ => 4
  | storeVtable _ _ _ => 3
  | publish current => if state = current then 1 else 2

omit [Usize] in
theorem AtomicWaker.PollPc.left_pos (pc : PollPc) {state : State} : 0 < pc.left state := by
  cases pc with
  | start current =>
    simp only [left]
    split <;> omega
  | publish current =>
    simp only [left]
    split <;> omega
  | _ => exact Nat.succ_pos _

def TryAcquirePc.left (word : AcquireState) : TryAcquirePc → ℕ
  | load => 3
  | loop current => if word = current then 1 else 2

def EnterPc.left (word : AcquireState) (state : State) : EnterPc → ℕ
  | load => 11
  | loop current => if word = current then 10 else 20
  | poll current _ _ _ pc => (if word = current then 1 else 11) + pc.left state
  | push current _ _ => if word = current then 1 else 11

def DropPc.left (state : State) (stack : Ptr) : DropPc → ℕ
  | startCancel .load => 6
  | startCancel (.exchange current) => if state = current then 4 else 5
  | loadCancel => 3
  | pushCancel current => if stack = current then 1 else 2
  | _ => 0

namespace Frame

/-- The steps that remain until `release` is called, or the call ends. -/
def left (s : Sys ι) : Frame ι → ℕ
  | tryAcquire _ pc => pc.left s.sem.acquire.load
  | pollEnter a pc => pc.left s.sem.acquire.load (s.mem.waker a).state.load
  | pollWaiting a _ pc => pc.left (s.mem.waker a).state.load
  | dropFuture a pc => pc.left (s.mem.waker a).state.load s.sem.nextCancel.load
  | _ => 0

/-- The call is past `release`, or has no part in it any more. -/
def Ends : Frame ι → Prop
  | idle _ => True
  | panicked => True
  | dropFuture _ (.waitCancel _) => True
  | dropFuture _ .waker => True
  | _ => False

def Stops : Frame ι → Prop
  | release _ _ _ => True
  | f => f.Ends

end Frame

theorem AtomicWaker.poll_left (w : AtomicWaker ι) (tok : ℕ) (pc pc' : PollPc)
    (h : (w.poll tok false pc).flow = .goto pc') :
    pc'.left (w.poll tok false pc).waker.state.load < pc.left w.state.load := by
  cases pc with
  | load =>
    obtain rfl := Flow.goto.inj h
    simp [PollPc.left, AtomicWaker.poll]
  | start current =>
    cases current with
    | pending seq =>
      simp only [AtomicWaker.poll] at h ⊢
      by_cases hload : w.state.load = .pending seq
      · rw [Atomic.cmpxchgWeak_of_load hload] at h ⊢
        obtain rfl := Flow.goto.inj h
        simp [PollPc.left, hload]
      · cases hx : w.state.cmpxchgWeak (.pending seq) (.storing seq) false with
        | none =>
          rw [hx] at h
          obtain rfl := Flow.goto.inj h
          simp [PollPc.left, hload]
        | some state =>
          rw [hx] at h
          obtain rfl := Flow.goto.inj h
          simp [PollPc.left, hload]
    | _ => cases h
  | loadData current =>
    obtain rfl := Flow.goto.inj h
    simp [PollPc.left]
  | loadVtable current oldData =>
    obtain rfl := Flow.goto.inj h
    simp [PollPc.left]
  | storeData current oldData oldVtable =>
    obtain rfl := Flow.goto.inj h
    simp [PollPc.left]
  | storeVtable current oldData oldVtable =>
    obtain rfl := Flow.goto.inj h
    simp only [PollPc.left]
    split <;> omega
  | publish current =>
    cases current with
    | storing seq =>
      simp only [AtomicWaker.poll] at h ⊢
      by_cases hload : w.state.load = .storing seq
      · rw [Atomic.cmpxchgWeak_of_load hload] at h
        cases h
      · cases hx : w.state.cmpxchgWeak (.storing seq) (.pending (seq + 1)) false with
        | none =>
          rw [hx] at h
          obtain rfl := Flow.goto.inj h
          simp [PollPc.left, hload]
        | some state =>
          rw [hx] at h
          cases h
    | _ => cases h

variable [DecidableEq ι] {s s' : Sys ι} {t : ι}

def Sys.Nears (s : Sys ι) (t : ι) (s' : Sys ι) : Prop :=
  (s'.frames t).Stops ∨ (s'.frames t).left s' < (s.frames t).left s

namespace Sys

theorem tryAcquire_nears {n : ℕ} {pc : TryAcquirePc} (hf : s.frames t = .tryAcquire n pc) :
    s.Nears t (s.tryAcquire t n false pc) := by
  unfold Nears
  rw [hf]
  cases pc with
  | load => exact Or.inr (by simp [tryAcquire, goto, Frame.left, TryAcquirePc.left])
  | loop current =>
    cases current with
    | queued back => exact Or.inl (by simp [tryAcquire, goto, Frame.Stops, Frame.Ends])
    | available q =>
      simp only [tryAcquire]
      cases q.intoUsize with
      | none => exact Or.inl (by simp [goto, Frame.Stops, Frame.Ends])
      | some m =>
        dsimp only
        split_ifs
        · exact Or.inl (by simp [goto, Frame.Stops, Frame.Ends])
        · by_cases hload : s.sem.acquire.load = .available q
          · rw [Atomic.cmpxchgWeak_of_load hload]
            exact Or.inl (by simp [goto, Frame.Stops, Frame.Ends])
          · cases s.sem.acquire.cmpxchgWeak (.available q) (.available (Permits.new (m - n)))
              false with
            | none => exact Or.inr (by simp [goto, Frame.left, TryAcquirePc.left, hload])
            | some acquire => exact Or.inl (by simp [goto, Frame.Stops, Frame.Ends])

theorem pollWaiting_nears {a : Ptr} {tok : ℕ} {pc : PollPc}
    (hf : s.frames t = .pollWaiting a tok pc) : s.Nears t (s.pollWaiting t a tok false pc) := by
  unfold Nears
  rw [hf]
  simp only [pollWaiting]
  split
  · next pc' hflow =>
    refine Or.inr ?_
    have hleft := (s.mem.waker a).poll_left tok pc pc' hflow
    simpa [goto, runWaker, Frame.left] using hleft
  all_goals exact Or.inl (by simp [goto, Frame.Stops, Frame.Ends])

theorem pollEnter_nears {a : Ptr} {pc : EnterPc} (hf : s.frames t = .pollEnter a pc) :
    s.Nears t (s.pollEnter t a false pc) := by
  unfold Nears
  rw [hf]
  cases pc with
  | load => exact Or.inr (by simp [pollEnter, goto, Frame.left, EnterPc.left])
  | loop current =>
    have henter : ∀ available back,
        ((s.enterWakerPoll t a current available back).frames t).left
          (s.enterWakerPoll t a current available back) <
          (Frame.pollEnter a (.loop current) : Frame ι).left s := by
      intro available back
      simp only [enterWakerPoll, goto, update_self, Frame.left, EnterPc.left, PollPc.left]
      by_cases hload : s.sem.acquire.load = current
      · simp [hload]
      · simp [hload]
    cases current with
    | queued back => exact Or.inr (henter 0 back)
    | available q =>
      simp only [pollEnter]
      cases q.intoUsize with
      | none => exact Or.inl (by simp [goto, Frame.Stops, Frame.Ends])
      | some m =>
        dsimp only
        split_ifs
        · by_cases hload : s.sem.acquire.load = .available q
          · rw [Atomic.cmpxchgWeak_of_load hload]
            exact Or.inl (by simp [goto, Frame.Stops, Frame.Ends])
          · cases s.sem.acquire.cmpxchgWeak (.available q)
              (.available (Permits.new (m - s.mem.amount a))) false with
            | none => exact Or.inr (by simp [goto, Frame.left, EnterPc.left, hload])
            | some acquire => exact Or.inl (by simp [goto, Frame.Stops, Frame.Ends])
        · exact Or.inr (henter m null)
  | poll current available back tok pc =>
    simp only [pollEnter]
    split
    · next pc' hflow =>
      refine Or.inr ?_
      have hleft := (s.mem.waker a).poll_left tok pc pc' hflow
      simp only [goto, runWaker, update_self, Frame.left, EnterPc.left]
      exact Nat.add_lt_add_left hleft _
    · refine Or.inr ?_
      simp only [goto, runWaker, logToken, update_self, Frame.left, EnterPc.left]
      exact Nat.lt_add_of_pos_right (PollPc.left_pos pc)
    · exact Or.inl (by simp [goto, Frame.Stops, Frame.Ends])
    · exact Or.inl (by simp [goto, Frame.Stops, Frame.Ends])
  | push current available back =>
    simp only [pollEnter]
    by_cases hload : s.sem.acquire.load = current
    · rw [Atomic.cmpxchgWeak_of_load hload]
      exact Or.inl (by simp [goto, Frame.Stops])
    · cases s.sem.acquire.cmpxchgWeak current (.queued a) false with
      | none => exact Or.inr (by simp [goto, Frame.left, EnterPc.left, hload])
      | some acquire => exact Or.inl (by simp [goto, Frame.Stops])

theorem dropFuture_nears {a : Ptr} {pc : DropPc} (hf : s.frames t = .dropFuture a pc)
    (hstop : ¬ (s.frames t).Stops) (hn : s.dropFuture t a false pc = some s') : s.Nears t s' := by
  unfold Nears
  rw [hf] at hstop ⊢
  cases pc with
  | startCancel pc =>
    cases pc with
    | load =>
      obtain rfl := Option.some.inj hn
      exact Or.inr (by simp [goto, runWaker, startCancel, Frame.left, DropPc.left])
    | exchange current =>
      cases current with
      | pending seq =>
        simp only [dropFuture, startCancel] at hn
        by_cases hload : (s.mem.waker a).state.load = .pending seq
        · rw [Atomic.cmpxchgWeak_of_load hload] at hn
          obtain rfl := Option.some.inj hn
          exact Or.inr (by simp [goto, runWaker, log, Frame.left, DropPc.left, hload])
        · cases hx : (s.mem.waker a).state.cmpxchgWeak (.pending seq) .cancelling false with
          | none =>
            rw [hx] at hn
            obtain rfl := Option.some.inj hn
            exact Or.inr (by simp [goto, runWaker, Frame.left, DropPc.left, hload])
          | some state =>
            rw [hx] at hn
            obtain rfl := Option.some.inj hn
            exact Or.inr (by simp [goto, runWaker, log, Frame.left, DropPc.left, hload])
      | finished poisoned =>
        refine Or.inl ?_
        cases poisoned <;> obtain rfl := Option.some.inj hn <;> simp [goto, Frame.Stops, Frame.Ends]
      | _ =>
        obtain rfl := Option.some.inj hn
        exact Or.inl (by simp [goto, Frame.Stops, Frame.Ends])
  | loadCancel =>
    obtain rfl := Option.some.inj hn
    exact Or.inr (by simp [goto, Frame.left, DropPc.left])
  | pushCancel current =>
    simp only [dropFuture] at hn
    by_cases hload : s.sem.nextCancel.load = current
    · rw [Atomic.cmpxchgWeak_of_load hload] at hn
      obtain rfl := Option.some.inj hn
      exact Or.inl (by simp [goto, Frame.Stops])
    · split at hn <;> obtain rfl := Option.some.inj hn
      · exact Or.inl (by simp [goto, Frame.Stops])
      · exact Or.inr (by simp [goto, Frame.left, DropPc.left, hload])
  | waitCancel pc => exact absurd trivial hstop
  | waker => exact absurd trivial hstop

theorem dropFuture_ne_none {a : Ptr} {pc : DropPc} (hf : s.frames t = .dropFuture a pc)
    (hstop : ¬ (s.frames t).Stops) : s.dropFuture t a false pc ≠ none := by
  rw [hf] at hstop
  cases pc with
  | startCancel pc =>
    simp only [dropFuture]
    split <;> simp
  | loadCancel => simp [dropFuture]
  | pushCancel current =>
    simp only [dropFuture]
    split <;> simp
  | waitCancel pc => exact absurd trivial hstop
  | waker => exact absurd trivial hstop

theorem step_nears (hstop : ¬ (s.frames t).Stops) :
    ∃ s', s.next (.step t false) = some s' ∧ s.Nears t s' := by
  cases hf : s.frames t with
  | tryAcquire n pc => exact ⟨_, next_tryAcquire hf, tryAcquire_nears hf⟩
  | pollEnter a pc => exact ⟨_, next_pollEnter hf, pollEnter_nears hf⟩
  | pollWaiting a tok pc =>
    refine ⟨_, ?_, pollWaiting_nears hf⟩
    simp only [next, step, hf]
  | dropFuture a pc =>
    cases hn : s.dropFuture t a false pc with
    | some s' =>
      refine ⟨s', ?_, dropFuture_nears hf hstop hn⟩
      simp only [next, step, hf, hn]
    | none => exact absurd hn (dropFuture_ne_none hf hstop)
  | _ =>
    rw [hf] at hstop
    exact absurd trivial hstop

end Sys

/-- Only thread `t` steps, and no exchange of it fails spuriously. -/
abbrev Unhindered (t : ι) (s s' : Sys ι) : Prop :=
  Runs.Steps Sys.next (fun _ act => act = .step t false) s s'

theorem unhindered_stops (s : Sys ι) (t : ι) : ∃ s', Unhindered t s s' ∧ (s'.frames t).Stops := by
  induction hleft : (s.frames t).left s using Nat.strong_induction_on generalizing s with
  | _ n ih =>
    by_cases hstop : (s.frames t).Stops
    · exact ⟨s, .refl, hstop⟩
    · obtain ⟨s₁, hn, hend | hless⟩ := Sys.step_nears hstop
      · exact ⟨s₁, .single _ rfl hn, hend⟩
      · obtain ⟨s', hrun, hend⟩ := ih _ (hleft ▸ hless) s₁ rfl
        exact ⟨s', .head _ rfl hn hrun, hend⟩

end WeightedSemaphore
