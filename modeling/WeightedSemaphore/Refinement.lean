import WeightedSemaphore.ProtocolHistory
import WeightedSemaphore.RefinePop

/-!
# The transition system refines the protocol

Every action of the semaphore is matched by at most one step of the protocol. So every reachable
state represents a state in which the invariants of the protocol hold.
-/

namespace WeightedSemaphore

open Protocol (Inv HistOk)

variable [Usize] {ι : Type} [DecidableEq ι] {s s' : Sys ι} {a : Protocol.State ι Ptr} {t : ι}
  {spurious : Bool} {initial : ℕ}

theorem refine_release (hs : Sim s a) (hi : Inv a) {r : Permits} {ret : Cont} {pc : ReleasePc ι}
    (hf : s.frames t = .release r ret pc) : Follows a (s.release t r ret spurious pc) := by
  cases pc with
  | lockLoad =>
    exact Or.inl (hs.goto_free rfl rfl rfl rfl SameView.goto (by rw [hf]; rfl) (by rw [hf]; rfl)
      (by simp [Frame.role, ReleasePc.locks]) (hs.cont_ok hf))
  | lock current => exact refine_lockOrElseDefer hs hi hf
  | swapCancel => exact refine_swapCancel hs hi hf
  | flipLoad nextCancel =>
    obtain ⟨o, ho, hot, -, hr, hphase, htaken, hlink⟩ := hs.owner_of hi hf rfl
    exact refine_flipLoad hs hi hf rfl ho hot hr hphase htaken hlink
  | flip nextCancel current => exact refine_flip hs hi hf
  | walk nextCancel back waiter => exact refine_walk hs hi hf
  | cancel nextCancel => exact refine_cancel hs hi hf
  | accept waker nextCancel pc => exact refine_accept hs hi hf
  | tryPop => exact refine_tryPop hs hi hf
  | finish pop pc => exact refine_finish hs hi hf
  | wake pop data vtable =>
    obtain ⟨o, ho, hot, -, hr, hphase, hpop⟩ := hs.owner_of hi hf rfl
    refine Or.inl (hs.goto rfl rfl rfl rfl ⟨rfl, rfl, rfl, rfl, rfl, rfl, rfl, rfl, rfl⟩
      (by rw [hf]; rfl) (by rw [hf]; rfl) (hs.cont_ok hf) fun o₁ ho₁ _ => ?_)
    obtain rfl : o₁ = o := Option.some.inj (ho₁.symm.trans ho)
    exact ⟨r, ret, _, rfl, hr, hphase, hpop⟩
  | relink pop => exact refine_relink hs hi hf
  | unlockLoad =>
    obtain ⟨o, ho, hot, -, hr, hphase, hlink⟩ := hs.owner_of hi hf rfl
    refine Or.inl (hs.goto_owner hf rfl ho rfl hr ⟨hphase, fun p hp => ?_, hlink⟩)
    exact hi.rel_of_owner ho p.intoUsize (by rw [hs.words.rel, hp]; rfl)
  | unlock current => exact refine_tryUnlock hs hi hf

theorem refine_step (hs : Sim s a) (hi : Inv a) (h : s.step t spurious = some s') :
    Follows a s' := by
  unfold Sys.step at h
  cases hf : s.frames t with
  | idle ret => simp [hf] at h
  | panicked => simp [hf] at h
  | tryAcquire amount pc =>
    rw [hf] at h
    obtain rfl := (Option.some.inj h).symm
    exact refine_tryAcquire hs hf
  | pollEnter x pc =>
    rw [hf] at h
    obtain rfl := (Option.some.inj h).symm
    exact refine_pollEnter hs hi hf
  | pollWaiting x tok pc =>
    rw [hf] at h
    obtain rfl := (Option.some.inj h).symm
    exact refine_pollWaiting hs hf
  | release r ret pc =>
    rw [hf] at h
    obtain rfl := (Option.some.inj h).symm
    exact refine_release hs hi hf
  | dropFuture x pc =>
    rw [hf] at h
    exact refine_dropFuture hs hi hf h

/-- One action is at most one step of the protocol. -/
theorem refine_next (hs : Sim s a) (hi : Inv a) (act : Act ι) (h : s.next act = some s') :
    Follows a s' := by
  cases act with
  | call t c =>
    simp only [Sys.next] at h
    split_ifs at h with hidle
    exact refine_call hs hidle h
  | step t spurious => exact refine_step hs hi h
  | acquire x amount => exact refine_acquire hs hi h
  | forget i => exact refine_forget hs h
  | setPanicking t panicking =>
    simp only [Sys.next] at h
    split_ifs at h
    obtain rfl := (Option.some.inj h).symm
    exact Or.inl ⟨{ hs.view with }, hs.words, { hs.pass with }, { hs.loc with }⟩

structure Represents (s : Sys ι) (a : Protocol.State ι Ptr) : Prop where
  sim : Sim s a
  inv : Inv a
  hist : HistOk a

omit [DecidableEq ι] in
theorem Represents.init (initial : ℕ) :
    Represents (Sys.init initial : Sys ι) (Protocol.State.init maxAvailable initial) :=
  ⟨Sim.init initial, Inv.init _ _, HistOk.init _ _⟩

theorem Represents.next (hr : Represents s a) {act : Act ι} (h : s.next act = some s') :
    Represents s' a ∨ ∃ b, Protocol.Step maxAvailable a b ∧ Represents s' b := by
  rcases refine_next hr.sim hr.inv act h with hs | ⟨b, hstep, hs⟩
  · exact Or.inl ⟨hs, hr.inv, hr.hist⟩
  · exact Or.inr ⟨b, hstep, hs, hr.inv.step hstep, hr.hist.step hstep hr.inv⟩

/-- Runs of the semaphore simulate runs of the protocol. -/
theorem Reachable.refines (h : Reachable initial s) :
    ∃ a, Relation.ReflTransGen (Protocol.Step maxAvailable)
      (Protocol.State.init maxAvailable initial) a ∧ Represents s a := by
  refine Runs.Steps.simulate (fun s act s' a hr _ hn => ?_) (Represents.init initial) h
  rcases hr.next hn with hr | ⟨b, hstep, hr⟩
  · exact ⟨a, .refl, hr⟩
  · exact ⟨b, .single hstep, hr⟩

theorem Reachable.represents (h : Reachable initial s) : ∃ a, Represents s a :=
  let ⟨a, _, hr⟩ := h.refines
  ⟨a, hr⟩

/-- What the steps of the protocol keep, runs of the semaphore keep. -/
theorem kept_of_run {ok : Sys ι → Act ι → Prop} {P : Protocol.State ι Ptr → Prop}
    (hstep : ∀ s a b, Runs.Steps Sys.next ok (Sys.init initial) s → Represents s a → P a →
      Protocol.Step maxAvailable a b → P b)
    (hinit : P (.init maxAvailable initial)) (h : Runs.Steps Sys.next ok (Sys.init initial) s) :
    ∃ a, Represents s a ∧ P a := by
  refine h.invariant_reached (I := fun s => ∃ a, Represents s a ∧ P a) ?_ ⟨_, .init initial, hinit⟩
  rintro s act s' hs ⟨a, hr, ha⟩ - hn
  rcases hr.next hn with hr' | ⟨b, hab, hr'⟩
  · exact ⟨a, hr', ha⟩
  · exact ⟨b, hr', hstep s a b hs hr ha hab⟩

theorem Reachable.not_panicked (h : Reachable initial s) (t : ι) : s.frames t ≠ .panicked := by
  obtain ⟨a, hr⟩ := h.represents
  intro hf
  have := hr.sim.loc.ok t
  rw [hf] at this
  exact this

end WeightedSemaphore
