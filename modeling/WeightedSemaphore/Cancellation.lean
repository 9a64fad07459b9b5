import WeightedSemaphore.Refinement

/-!
# Cancellation never strands its thread

A thread that waits for the acceptance of its cancellation finds the release lock owned by another
thread, which has taken the waiter or is bound to take it in a later pass.
-/

namespace WeightedSemaphore

open AtomicWaker (WaitCancelPc)
open Protocol (Inv Life Owner Phase)
open Links

section

variable [Usize] {ι : Type}

/-- The lock owner's list of cancelling waiters that it has taken and not yet accepted. -/
def ReleasePc.Taken (nextCancel : Ptr → Ptr) : ReleasePc ι → List Ptr → Prop
  | flipLoad head, l => Path null nextCancel head l
  | flip head _, l => Path null nextCancel head l
  | walk head _ _, l => Path null nextCancel head l
  | cancel head, l => Path null nextCancel head l
  | accept _ head (.unpark _), l => Path null nextCancel head l
  | accept waker head _, l => ∃ rest, l = waker :: rest ∧ Path null nextCancel head rest
  | _, l => l = []

variable {sem : Semaphore} {mem : Waiters ι} {life : Ptr → Life} {linked : List Ptr}
  {o : Owner ι Ptr} {pc : ReleasePc ι}

theorem ReleasePc.Ok.not_locks (h : pc.Ok sem mem life linked o) : pc.locks = false := by
  cases pc <;> first | rfl | exact h.elim

theorem ReleasePc.Ok.swap (h : pc.Ok sem mem life linked o) (hp : o.phase = .swap) :
    pc = .swapCancel := by
  cases pc with
  | swapCancel => rfl
  | lockLoad => exact h.elim
  | lock current => exact h.elim
  | flip nextCancel current =>
    have hphase := h.1
    split at hphase <;> simp [hp] at hphase
  | accept waker nextCancel pc => cases pc <;> simp [ReleasePc.Ok, hp] at h
  | _ => exact absurd (hp.symm.trans h.1) (by simp)

/-- The protocol's account of the taken waiters is the one in the owner's locals. -/
theorem ReleasePc.Ok.taken (h : pc.Ok sem mem life linked o)
    (hnil : o.phase = .swap ∨ o.phase = .pop ∨ o.phase = .unlock → o.taken = []) :
    pc.Taken mem.nextCancel (o.phase.accepting ++ o.taken) := by
  have hempty : ∀ p, o.phase = p → p = .swap ∨ p = .pop ∨ p = .unlock →
      o.phase.accepting ++ o.taken = [] := by
    rintro p hp hor
    rw [hnil (hp ▸ hor), hp]
    rcases hor with rfl | rfl | rfl <;> rfl
  cases pc with
  | lockLoad => exact h.elim
  | lock current => exact h.elim
  | swapCancel => exact hempty _ h.1 (by simp)
  | flipLoad nextCancel =>
    obtain ⟨hp, htaken, -⟩ := h
    rw [hp]
    exact htaken
  | flip nextCancel current =>
    obtain ⟨hp, htaken, -⟩ := h
    split at hp
    · rw [hp]; exact htaken
    · rw [hp]; exact htaken
  | walk nextCancel back waiter =>
    obtain ⟨hp, htaken, -⟩ := h
    rw [hp]
    exact htaken
  | cancel nextCancel =>
    obtain ⟨hp, htaken, -⟩ := h
    rw [hp]
    exact htaken
  | accept waker nextCancel pc =>
    cases pc with
    | unpark thread =>
      obtain ⟨hp, htaken, -⟩ := h
      rw [hp]
      exact htaken
    | load =>
      obtain ⟨hp, -, htaken, -⟩ := h
      rw [hp]
      exact ⟨_, rfl, htaken⟩
    | exchange current =>
      obtain ⟨hp, -, htaken, -⟩ := h
      rw [hp]
      exact ⟨_, rfl, htaken⟩
  | tryPop => exact hempty _ h.1 (by simp)
  | finish pop pc => exact hempty _ h.1 (by simp)
  | wake pop data vtable => exact hempty _ h.1 (by simp)
  | relink pop => exact hempty _ h.1 (by simp)
  | unlockLoad => exact hempty _ h.1 (by simp)
  | unlock current => exact hempty _ h.1 (by simp)

end

namespace Protocol

variable {ι ω : Type} {a : State ι ω} {t : ι} {x : ω}

/-- A waiter whose thread waits is in the hands of the lock owner, or announced to it. -/
theorem Inv.waiting (hi : Inv a) (hr : a.role t = .waiting x) (hx : a.life x = .cancelling) :
    ∃ o, a.owner = some o ∧ (x ∈ o.phase.accepting ++ o.taken ∨
      x ∈ a.cstack ∧ (o.phase = .swap ∨ ∃ p, a.rel = .lockedDirty p)) := by
  have hm := hi.holds.mem_marked t x (by rw [hr]; rfl) (by rw [hr]; simp) hx
  have howner : (∃ o, a.owner = some o) ∨ a.accepting ++ a.taken = [] := by
    cases ho : a.owner with
    | some o => exact Or.inl ⟨o, rfl⟩
    | none => exact Or.inr (by simp [State.accepting, State.taken, ho])
  rcases List.mem_append.mp hm with hc | htaken
  · rcases hi.duty.cstack t x (Or.inl hr) hc with ⟨o, ho, hp⟩ | ⟨p, hp⟩
    · exact ⟨o, ho, Or.inr ⟨hc, Or.inl hp⟩⟩
    · cases ho : a.owner with
      | some o => exact ⟨o, rfl, Or.inr ⟨hc, Or.inr ⟨p, hp⟩⟩⟩
      | none =>
        obtain ⟨q, hq⟩ := hi.lock.owner_none.mp ho
        simp [hp] at hq
  · rcases howner with ⟨o, ho⟩ | hnil
    · rw [accepting_of_owner ho, taken_of_owner ho] at htaken
      exact ⟨o, ho, Or.inl htaken⟩
    · simp [hnil] at htaken

end Protocol

section

variable [Usize] {ι : Type} [DecidableEq ι] {s : Sys ι} {t : ι} {x : Ptr} {pc : WaitCancelPc}
  {initial : ℕ}

omit [DecidableEq ι] in
theorem Sim.waiting {a : Protocol.State ι Ptr} (hs : Sim s a)
    (ht : s.frames t = .dropFuture x (.waitCancel pc))
    (hx : (s.mem.waker x).state.load = .cancelling) :
    a.role t = .waiting x ∧ a.life x = .cancelling := by
  have huser : s.user x = some t := (hs.loc.users t x).mp (by rw [ht]; rfl)
  have hlive := hs.loc.user_live t x huser
  have hok := hs.frame_ok ht
  have hkind : (s.mem.waker x).kind = .cancelling := by rw [AtomicWaker.kind, hx]; rfl
  have hclaim : s.ghost.claimed x = false := by
    by_contra hc
    obtain ⟨p, hp⟩ := hs.loc.claimed x hlive (by simpa using hc)
    simp [hkind] at hp
  constructor
  · rw [hs.view.role, ht]
    rfl
  · rw [hs.view.life, Sys.lifeOf_kind hlive hok.1 hclaim hkind]
    rfl

/-- While a thread waits for its cancellation to be accepted, another thread owns the release lock.
Either that thread has taken the waiter, or the waiter is on the cancel stack and the owner is about
to swap the stack, or must make another pass because the lock is dirty. -/
theorem wait_cancel_not_stranded (h : Reachable initial s)
    (ht : s.frames t = .dropFuture x (.waitCancel pc))
    (hx : (s.mem.waker x).state.load = .cancelling) :
    (∀ p, s.sem.release.load ≠ .unlocked p) ∧
      ∃ (u : ι) (r : Permits) (ret : Cont) (pcu : ReleasePc ι), u ≠ t ∧
        s.frames u = .release r ret pcu ∧ pcu.locks = false ∧
        ((∃ l, pcu.Taken s.mem.nextCancel l ∧ x ∈ l) ∨
          (∃ l, Path null s.mem.nextCancel s.sem.nextCancel.load l ∧ x ∈ l) ∧
            (pcu = .swapCancel ∨ ∃ p, s.sem.release.load = .lockedDirty p)) := by
  obtain ⟨a, hs, hi, -⟩ := h.represents
  obtain ⟨hrole, hlife⟩ := hs.waiting ht hx
  obtain ⟨o, ho, hwhere⟩ := hi.waiting hrole hlife
  obtain ⟨r, ret, pcu, hf, -, hpc⟩ := hs.pass.owned o ho
  have hdirty : ∀ p, a.rel = .lockedDirty p → ∃ p, s.sem.release.load = .lockedDirty p := by
    intro p hp
    rw [hs.words.rel] at hp
    cases hload : s.sem.release.load with
    | lockedDirty q => exact ⟨q, rfl⟩
    | locked => simp [hload, ReleaseState.rel] at hp
    | unlocked q => simp [hload, ReleaseState.rel] at hp
  constructor
  · intro p hp
    exact hi.rel_of_owner ho p.intoUsize (by rw [hs.words.rel, hp]; rfl)
  · refine ⟨o.thread, r, ret, pcu, ?_, hf, hpc.not_locks, ?_⟩
    · rintro rfl
      simp [ht] at hf
    · rcases hwhere with htaken | ⟨hc, hnext⟩
      · exact Or.inl ⟨_, hpc.taken (hi.marked.taken_nil o ho), htaken⟩
      · refine Or.inr ⟨⟨_, hs.words.cstack, hc⟩, ?_⟩
        rcases hnext with hp | ⟨p, hp⟩
        · exact Or.inl (hpc.swap hp)
        · exact Or.inr (hdirty p hp)

end

attribute [local instance] usize64

/-- A release holds the lock while another thread cancels and defers its own release to it. -/
def deferring : Sys Bool :=
  Runs.final Sys.next
    ([.acquire (usize64.ptr 0) 1, .call true (.poll (usize64.ptr 0))] ++ Act.steps true 20 ++
      [.call false (.release 0)] ++ Act.steps false 3 ++
      [.call true (.dropFuture (usize64.ptr 0))] ++ Act.steps true 7)
    (Sys.init 0) (by decide +kernel)

theorem wait_cancel_not_stranded_deferring :
    (∀ p, deferring.sem.release.load ≠ .unlocked p) ∧
      deferring.sem.nextCancel.load = usize64.ptr 0 :=
  ⟨(wait_cancel_not_stranded (t := true) (x := usize64.ptr 0) (Runs.reaches_final _) rfl
    (by decide +kernel)).1, by decide +kernel⟩

end WeightedSemaphore
