import WeightedSemaphore.Outcomes
import WeightedSemaphore.Returns

/-!
# Accesses to the semaphore

Which steps read or write a field of the semaphore. A step that does not is blind to all of them.
The destructor of an acquire future accesses the semaphore only on its way to giving up a waiter
that is not poisoned.
-/

namespace WeightedSemaphore

open Function (update update_self update_of_ne)
open AtomicWaker (StartCancelPc)

variable [Usize] {ι : Type}

def TryAcquirePc.Accesses (amount : ℕ) : TryAcquirePc → Prop
  | load => True
  | loop current => current.Fits amount

def EnterPc.Accesses (amount : ℕ) : EnterPc → Prop
  | load => True
  | loop current => current.Fits amount
  | poll _ _ _ _ _ => False
  | push _ _ _ => True

def ReleasePc.Accesses (mem : Waiters ι) : ReleasePc ι → Prop
  | walk _ _ waiter => waiter = null ∨ mem.prev waiter = null
  | cancel nextCancel =>
    nextCancel ≠ null ∧ (mem.prev nextCancel = null ∨ mem.next nextCancel = null)
  | accept _ _ _ => False
  | finish _ _ => False
  | wake _ _ _ => False
  | _ => True

def DropPc.Accesses : DropPc → Prop
  | loadCancel => True
  | pushCancel _ => True
  | _ => False

def Frame.Accesses (mem : Waiters ι) : Frame ι → Prop
  | tryAcquire amount pc => pc.Accesses amount
  | pollEnter a pc => pc.Accesses (mem.amount a)
  | release _ _ pc => pc.Accesses mem
  | dropFuture _ pc => pc.Accesses
  | _ => False

namespace Sys

def withSem (s : Sys ι) (sem : Semaphore) : Sys ι := { s with sem }

section Blind

variable [DecidableEq ι] {s : Sys ι} {sem : Semaphore} {t : ι} {b : Bool}

theorem withSem_tryAcquire {n : ℕ} {pc : TryAcquirePc} (h : ¬ pc.Accesses n) :
    (s.withSem sem).tryAcquire t n b pc = (s.tryAcquire t n b pc).withSem sem := by
  cases pc with
  | load => exact absurd trivial h
  | loop current =>
    cases current with
    | queued back => rfl
    | available q =>
      simp only [tryAcquire]
      cases hq : q.intoUsize with
      | none => rfl
      | some m =>
        have hlt : m < n := by
          by_contra hle
          exact h ⟨m, hq, by omega⟩
        simp only [if_pos hlt]
        rfl

theorem withSem_pollEnter {a : Ptr} {pc : EnterPc} (h : ¬ pc.Accesses (s.mem.amount a)) :
    (s.withSem sem).pollEnter t a b pc = (s.pollEnter t a b pc).withSem sem := by
  have hmem : (s.withSem sem).mem = s.mem := rfl
  cases pc with
  | load => exact absurd trivial h
  | push current available back => exact absurd trivial h
  | loop current =>
    cases current with
    | queued back => rfl
    | available q =>
      simp only [pollEnter, hmem]
      cases hq : q.intoUsize with
      | none => rfl
      | some m =>
        have hlt : ¬ s.mem.amount a ≤ m := fun hle => h ⟨m, hq, hle⟩
        simp only [if_neg hlt]
        rfl
  | poll current available back tok pc =>
    simp only [pollEnter, hmem]
    split <;> rfl

theorem withSem_release {r : Permits} {ret : Cont} {pc : ReleasePc ι} (h : ¬ pc.Accesses s.mem) :
    (s.withSem sem).release t r ret b pc = (s.release t r ret b pc).withSem sem := by
  have hmem : (s.withSem sem).mem = s.mem := rfl
  cases pc with
  | walk nextCancel back waiter =>
    obtain ⟨hw, hp⟩ := not_or.mp h
    simp only [release, walk, hmem, if_neg hw, if_neg hp]
    rfl
  | cancel nextCancel =>
    simp only [ReleasePc.Accesses, not_and, not_or] at h
    by_cases hn : nextCancel = null
    · simp only [release, cancel, if_pos hn]
      rfl
    · obtain ⟨hp, hx⟩ := h hn
      simp only [release, cancel, hmem, if_neg hn, if_neg hp, if_neg hx]
      rfl
  | accept waker nextCancel pc =>
    simp only [release, accept, hmem]
    split <;> rfl
  | finish pop pc =>
    simp only [release, finish, hmem]
    split <;> rfl
  | wake pop data vtable => rfl
  | _ => exact absurd trivial h

theorem withSem_dropFuture {a : Ptr} {pc : DropPc} (h : ¬ pc.Accesses) :
    (s.withSem sem).dropFuture t a b pc = (s.dropFuture t a b pc).map (withSem · sem) := by
  have hmem : (s.withSem sem).mem = s.mem := rfl
  cases pc with
  | loadCancel => exact absurd trivial h
  | pushCancel current => exact absurd trivial h
  | startCancel pc =>
    simp only [dropFuture, hmem]
    split <;> rfl
  | waitCancel pc =>
    cases pc with
    | load =>
      simp only [dropFuture, hmem]
      split <;> rfl
    | park =>
      have htok : (s.withSem sem).parkToken = s.parkToken := rfl
      simp only [dropFuture, htok]
      split_ifs <;> rfl
  | waker =>
    have hpan : (s.withSem sem).panicking = s.panicking := rfl
    simp only [dropFuture, hmem, hpan]
    split <;> rfl

/-- A step that does not access the semaphore is blind to it. -/
theorem withSem_step (h : ¬ (s.frames t).Accesses s.mem) :
    (s.withSem sem).step t b = (s.step t b).map (withSem · sem) := by
  have hframes : (s.withSem sem).frames = s.frames := rfl
  simp only [step, hframes]
  cases hf : s.frames t with
  | idle ret => rfl
  | panicked => rfl
  | tryAcquire n pc =>
    rw [hf] at h
    simp only [withSem_tryAcquire h, Option.map_some]
  | pollEnter a pc =>
    rw [hf] at h
    simp only [withSem_pollEnter h, Option.map_some]
  | pollWaiting a tok pc =>
    have hmem : (s.withSem sem).mem = s.mem := rfl
    simp only [pollWaiting, hmem, Option.map_some]
    split <;> rfl
  | release r ret pc =>
    rw [hf] at h
    simp only [withSem_release h, Option.map_some]
  | dropFuture a pc =>
    rw [hf] at h
    exact withSem_dropFuture h

end Blind

end Sys

namespace Frame

def dropping : Frame ι → Option Ptr
  | dropFuture a _ => some a
  | release _ (.cancelling a) _ => some a
  | release _ (.gaveBack a) _ => some a
  | _ => none

/-- The destructor of an acquire future that is going to access the semaphore. -/
def Lingers (mem : Waiters ι) : Frame ι → Prop
  | dropFuture a (.startCancel _) => (mem.waker a).state.load ≠ .finished true
  | dropFuture _ .loadCancel => True
  | dropFuture _ (.pushCancel _) => True
  | release _ (.cancelling _) _ => True
  | release _ (.gaveBack _) _ => True
  | _ => False

theorem Lingers.dropping {mem : Waiters ι} {f : Frame ι} (h : f.Lingers mem) :
    ∃ a, f.dropping = some a := by
  cases f with
  | dropFuture a pc => exact ⟨a, rfl⟩
  | release r ret pc =>
    cases ret with
    | cancelling a => exact ⟨a, rfl⟩
    | gaveBack a => exact ⟨a, rfl⟩
    | _ => exact h.elim
  | _ => exact h.elim

theorem lingers_of_accesses {mem : Waiters ι} {f : Frame ι} {a : Ptr} (hd : f.dropping = some a)
    (h : f.Accesses mem) : f.Lingers mem := by
  cases f with
  | dropFuture b pc =>
    cases pc with
    | loadCancel => trivial
    | pushCancel current => trivial
    | _ => exact h.elim
  | release r ret pc =>
    cases ret with
    | cancelling b => trivial
    | gaveBack b => trivial
    | _ => cases hd
  | _ => cases hd

theorem not_accesses_of_idle {mem : Waiters ι} {f : Frame ι} (h : f.isIdle = true) :
    ¬ f.Accesses mem := by
  cases f with
  | idle ret => exact id
  | _ => cases h

theorem dropping_idle {f : Frame ι} (h : f.isIdle = true) : f.dropping = none := by
  cases f with
  | idle ret => rfl
  | _ => cases h

theorem After.dropping {f : Frame ι} {r : Permits} {ret : Cont} {pc : ReleasePc ι}
    (h : f.After ret) :
    f.dropping = (release r ret pc : Frame ι).dropping ∨ f.isIdle = true ∨ f = panicked := by
  cases f with
  | release r' ret' pc' =>
    obtain rfl : ret' = ret := h
    cases ret' <;> exact Or.inl rfl
  | idle v => exact Or.inr (Or.inl rfl)
  | panicked => exact Or.inr (Or.inr rfl)
  | dropFuture a pc' =>
    cases pc' with
    | waker =>
      obtain rfl : ret = .gaveBack a := h
      exact Or.inl rfl
    | waitCancel wait =>
      cases wait with
      | load =>
        obtain rfl : ret = .cancelling a := h
        exact Or.inl rfl
      | park => exact h.elim
    | _ => exact h.elim
  | _ => exact h.elim

theorem Drops.dropping {f : Frame ι} {a : Ptr} (h : f.Drops a) :
    f.dropping = some a ∨ f.isIdle = true ∨ f = panicked := by
  cases f with
  | dropFuture b pc =>
    obtain rfl : b = a := h
    exact Or.inl rfl
  | release r ret pc => rcases h with rfl | rfl <;> exact Or.inl rfl
  | idle v => exact Or.inr (Or.inl rfl)
  | panicked => exact Or.inr (Or.inr rfl)
  | _ => exact h.elim

end Frame

namespace Sys

variable [DecidableEq ι] {s s' : Sys ι} {t : ι} {b : Bool} {a x : Ptr}

/-- A thread drops the same future until the destructor returns. -/
theorem step_dropping (h : s.step t b = some s') : ∃ f, s'.frames = update s.frames t f ∧
    (f.dropping = (s.frames t).dropping ∨ f.isIdle = true ∨ f = .panicked) := by
  unfold step at h
  cases hf : s.frames t with
  | idle r => simp [hf] at h
  | panicked => simp [hf] at h
  | tryAcquire n pc =>
    rw [hf] at h
    obtain rfl := Option.some.inj h
    obtain ⟨f, hframes, hnext, -⟩ := tryAcquire_next s t n b pc
    refine ⟨f, hframes, ?_⟩
    cases pc with
    | load => rw [hnext]; exact Or.inl rfl
    | loop current =>
      rcases hnext with ⟨rfl, -⟩ | ⟨rfl, -⟩ | ⟨rfl, -⟩ | ⟨rfl, -⟩ <;> exact Or.inl rfl
  | pollEnter x pc =>
    rw [hf] at h
    obtain rfl := Option.some.inj h
    obtain ⟨f, hframes, hnext, -⟩ := pollEnter_next s t x b pc
    refine ⟨f, hframes, ?_⟩
    cases pc with
    | load => rw [hnext]; exact Or.inl rfl
    | loop current =>
      rcases hnext with ⟨rfl, -⟩ | ⟨rfl, -⟩ | ⟨rfl, -⟩ | ⟨_, _, _, rfl, -⟩ <;> exact Or.inl rfl
    | poll current available back tok pc =>
      rcases hnext with ⟨_, rfl⟩ | rfl | rfl <;> exact Or.inl rfl
    | push current available back => rcases hnext with rfl | ⟨_, rfl⟩ <;> exact Or.inl rfl
  | pollWaiting x tok pc =>
    rw [hf] at h
    obtain rfl := Option.some.inj h
    obtain ⟨f, hframes, hnext⟩ := pollWaiting_next s t x tok b pc
    refine ⟨f, hframes, ?_⟩
    rcases hnext with ⟨_, rfl⟩ | rfl | rfl | ⟨_, -, rfl⟩ <;> exact Or.inl rfl
  | release r ret pc =>
    rw [hf] at h
    obtain rfl := Option.some.inj h
    obtain ⟨f, hframes, hafter⟩ := release_next s t r ret b pc
    exact ⟨f, hframes, hafter.dropping⟩
  | dropFuture x pc =>
    rw [hf] at h
    obtain ⟨f, hframes, hdrops⟩ := dropFuture_next h
    exact ⟨f, hframes, hdrops.dropping⟩

/-- A call drops a future or none. -/
theorem call_dropping {c : Call} (h : s.call t c = some s') :
    ∃ f, s'.frames = update s.frames t f ∧ s'.live = s.live ∧ s'.mem = s.mem ∧
      match c with
      | .dropFuture a => f.dropping = some a ∧ a ∈ s.live ∧ (f.Lingers s.mem →
          s.mem.step a = .waiting ∧ (s.mem.waker a).state.load ≠ .finished true)
      | _ => f.dropping = none := by
  cases c with
  | poll a =>
    simp only [call] at h
    split_ifs at h
    cases hst : s.mem.step a <;> rw [hst] at h <;> obtain rfl := Option.some.inj h <;>
      exact ⟨_, rfl, rfl, rfl, rfl⟩
  | dropFuture a =>
    simp only [call] at h
    split_ifs at h with hlive
    cases hst : s.mem.step a with
    | waiting =>
      rw [hst] at h
      obtain rfl := Option.some.inj h
      exact ⟨_, rfl, rfl, rfl, rfl, hlive.1, fun hl => ⟨hst, hl⟩⟩
    | _ =>
      rw [hst] at h
      obtain rfl := Option.some.inj h
      exact ⟨_, rfl, rfl, rfl, rfl, hlive.1, fun hl => hl.elim⟩
  | tryAcquire n => obtain rfl := Option.some.inj h; exact ⟨_, rfl, rfl, rfl, rfl⟩
  | release n => obtain rfl := Option.some.inj h; exact ⟨_, rfl, rfl, rfl, rfl⟩
  | poison => obtain rfl := Option.some.inj h; exact ⟨_, rfl, rfl, rfl, rfl⟩
  | dropGuard i =>
    simp only [call] at h
    split at h
    · cases h
    · split_ifs at h <;> obtain rfl := Option.some.inj h <;> exact ⟨_, rfl, rfl, rfl, rfl⟩

/-- A destructor that need not access the semaphore any more does not come to it, and touches no
other waker. -/
theorem step_not_lingers (hloc : Local s) (h : s.step t b = some s')
    (hd : (s.frames t).dropping = some a) (hl : ¬ (s.frames t).Lingers s.mem) :
    ¬ (s'.frames t).Lingers s'.mem ∧ ∀ x, x ≠ a → s'.mem.waker x = s.mem.waker x := by
  unfold step at h
  cases hf : s.frames t with
  | dropFuture x pc =>
    have hok := hloc.ok t
    rw [hf] at h hd hl hok
    obtain rfl : x = a := Option.some.inj hd
    have hother {π ρ : Type} (r : AtomicWaker.Step ι π ρ) (y : Ptr) (hy : y ≠ x) :
        (s.runWaker x r).mem.waker y = s.mem.waker y := update_of_ne hy _ _
    have hself {π ρ : Type} (r : AtomicWaker.Step ι π ρ) :
        (s.runWaker x r).mem.waker x = r.waker := update_self ..
    cases pc with
    | loadCancel => exact absurd trivial hl
    | pushCancel current => exact absurd trivial hl
    | startCancel pc =>
      have hfin : (s.mem.waker x).kind = .finished true := by
        rw [AtomicWaker.kind, not_not.mp hl]
        rfl
      have hspec := AtomicWaker.startCancel_spec b hok.2.2
      simp only [dropFuture] at h
      split at h <;> obtain rfl := Option.some.inj h
      · next pc' hflow =>
        rw [hflow] at hspec
        refine ⟨?_, hother _⟩
        simp only [goto, update_self, Frame.Lingers, hself]
        exact not_not.mpr (Waker.State.kind_eq_finished (hspec.2.trans hfin))
      · next hflow =>
        rw [hflow] at hspec
        rw [hfin] at hspec
        cases hspec.1
      · refine ⟨?_, hother _⟩
        simp [goto, Frame.Lingers]
      · next hflow =>
        rw [hflow] at hspec
        rw [hfin] at hspec
        cases hspec.1
      · next hflow =>
        rw [hflow] at hspec
        exact hspec.elim
    | waitCancel pc =>
      cases pc with
      | load =>
        simp only [dropFuture] at h
        split at h <;> obtain rfl := Option.some.inj h
        all_goals
          refine ⟨?_, hother _⟩
          simp [goto, Frame.Lingers]
      | park =>
        simp only [dropFuture] at h
        split_ifs at h
        obtain rfl := Option.some.inj h
        refine ⟨?_, fun _ _ => rfl⟩
        simp [goto, Frame.Lingers]
    | waker =>
      simp only [dropFuture] at h
      split at h <;> obtain rfl := Option.some.inj h
      all_goals
        refine ⟨?_, hother _⟩
        simp [goto, setUser, Frame.Lingers]
  | release r ret pc =>
    rw [hf] at hd hl
    cases ret with
    | cancelling x => exact absurd trivial hl
    | gaveBack x => exact absurd trivial hl
    | _ => cases hd
  | _ => rw [hf] at hd; cases hd

/-- Only the destructor of a future frees its memory. -/
theorem step_live (h : s.step t b = some s') (hx : x ∈ s.live) :
    x ∈ s'.live ∨ (s.frames t).dropping = some x := by
  unfold step at h
  cases hf : s.frames t with
  | idle r => simp [hf] at h
  | panicked => simp [hf] at h
  | tryAcquire n pc =>
    rw [hf] at h
    obtain rfl := Option.some.inj h
    refine Or.inl ?_
    unfold tryAcquire
    repeat' split
    all_goals exact hx
  | pollEnter y pc =>
    rw [hf] at h
    obtain rfl := Option.some.inj h
    refine Or.inl ?_
    unfold pollEnter
    dsimp only
    repeat' split
    all_goals exact hx
  | pollWaiting y tok pc =>
    rw [hf] at h
    obtain rfl := Option.some.inj h
    refine Or.inl ?_
    unfold pollWaiting
    dsimp only
    split <;> exact hx
  | release r ret pc =>
    rw [hf] at h
    obtain rfl := Option.some.inj h
    exact Or.inl ((release_inside s t r ret b pc).live ▸ hx)
  | dropFuture y pc =>
    rw [hf] at h
    by_cases hy : x = y
    · exact Or.inr (congrArg some hy.symm)
    refine Or.inl ?_
    cases pc with
    | waker =>
      simp only [dropFuture] at h
      split at h <;> obtain rfl := Option.some.inj h
      · exact hx
      · exact Finset.mem_erase.mpr ⟨hy, hx⟩
    | waitCancel pc =>
      cases pc with
      | load =>
        simp only [dropFuture] at h
        split at h <;> obtain rfl := Option.some.inj h <;> exact hx
      | park =>
        simp only [dropFuture] at h
        split_ifs at h
        obtain rfl := Option.some.inj h
        exact hx
    | startCancel pc =>
      simp only [dropFuture] at h
      split at h <;> obtain rfl := Option.some.inj h <;> exact hx
    | loadCancel =>
      obtain rfl := Option.some.inj h
      exact hx
    | pushCancel current =>
      simp only [dropFuture] at h
      split at h <;> obtain rfl := Option.some.inj h <;> exact hx

end Sys

end WeightedSemaphore
