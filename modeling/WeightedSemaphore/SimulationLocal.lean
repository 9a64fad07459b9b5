import WeightedSemaphore.Simulation

/-!
# Steps and the knowledge of other threads

A thread changes the step, the claim and the waker of a waiter only while it borrows its future, but
for the lock owner, which finishes waiters and accepts cancellations. `Local` survives both.
-/

namespace WeightedSemaphore

open Function (update)
open Protocol (Life Role)
open Waker (Kind)
open AtomicWaker (PollPc StartCancelPc)

variable [Usize] {ι : Type} {s s' : Sys ι} {t u : ι} {f : Frame ι} {a x : Ptr}

structure SameAt (mem mem' : Waiters ι) (claimed claimed' : Ptr → Bool) (a : Ptr) : Prop where
  step : mem'.step a = mem.step a
  amount : mem'.amount a = mem.amount a
  waker : mem'.waker a = mem.waker a
  claimed : claimed' a = claimed a

section Mem

variable {mem mem' : Waiters ι} {claimed claimed' : Ptr → Bool}

theorem SameAt.refl : SameAt mem mem claimed claimed a := ⟨rfl, rfl, rfl, rfl⟩

theorem Cont.Ok.congr {ret : Cont} (h : ret.Ok mem claimed)
    (hs : ∀ a, ret.uses = some a → SameAt mem mem' claimed claimed' a) : ret.Ok mem' claimed' := by
  cases ret with
  | caller => trivial
  | pollEnter a =>
    obtain ⟨h₁, -, h₃, h₄⟩ := hs a rfl
    simpa only [Cont.Ok, h₁, h₃, h₄] using h
  | cancelling a =>
    obtain ⟨h₁, -, h₃, -⟩ := hs a rfl
    simpa only [Cont.Ok, h₁, h₃] using h
  | gaveBack a =>
    obtain ⟨h₁, -, h₃, h₄⟩ := hs a rfl
    simpa only [Cont.Ok, h₁, h₃, h₄] using h

theorem Frame.Ok.congr (h : f.Ok mem claimed t)
    (hs : ∀ a, f.uses = some a → SameAt mem mem' claimed claimed' a) : f.Ok mem' claimed' t := by
  cases f with
  | idle ret => trivial
  | panicked => exact h
  | tryAcquire amount pc => trivial
  | pollEnter a pc =>
    obtain ⟨h₁, h₂, h₃, -⟩ := hs a rfl
    simpa only [Frame.Ok, h₁, h₂, h₃] using h
  | pollWaiting a tok pc =>
    obtain ⟨h₁, -, h₃, h₄⟩ := hs a rfl
    simpa only [Frame.Ok, h₁, h₃, h₄] using h
  | release releasable ret pc => exact Cont.Ok.congr h hs
  | dropFuture a pc =>
    obtain ⟨h₁, -, h₃, h₄⟩ := hs a rfl
    cases pc <;> simpa only [Frame.Ok, DropPc.Ok, h₁, h₃, h₄] using h

theorem Resting.congr (h : Resting mem claimed a) (hs : SameAt mem mem' claimed claimed' a) :
    Resting mem' claimed' a := by
  obtain ⟨h₁, -, h₃, h₄⟩ := hs
  exact ⟨by rw [h₃]; exact h.rest, by rw [h₁, h₃]; exact h.entering,
    by rw [h₁, h₄]; exact h.waiting⟩

end Mem

namespace Local

/-- Two threads do not borrow one future. -/
theorem user_eq (h : Local s) (ht : (s.frames t).uses = some a) (hu : (s.frames u).uses = some a) :
    t = u := by
  have h₁ := (h.users t a).mp ht
  have h₂ := (h.users u a).mp hu
  exact Option.some.inj (h₁.symm.trans h₂)

theorem create (h : Local s) (hframes : s'.frames = s.frames)
    (huser : s'.user = update s.user x none) (hlive : s'.live = insert x s.live) (hx : x ∉ s.live)
    (hs : ∀ a ≠ x, SameAt s.mem s'.mem s.ghost.claimed s'.ghost.claimed a)
    (hrest : Resting s'.mem s'.ghost.claimed x) (hclaimed : s'.ghost.claimed x = false)
    (hnext : ∀ a, s'.mem.next a = update s.mem.next x null a) (hne : x ≠ null) : Local s' where
  users v a := by
    rw [hframes, huser, h.users]
    by_cases ha : a = x
    · subst ha
      have := mt (h.user_live v a) hx
      simp [this]
    · rw [Function.update_of_ne ha]
  user_live v a hva := by
    rw [huser] at hva
    rw [hlive]
    by_cases ha : a = x
    · simp [ha]
    · exact Finset.mem_insert_of_mem (h.user_live v a (by rwa [Function.update_of_ne ha] at hva))
  ok v := by
    rw [hframes]
    refine (h.ok v).congr fun a ha => hs a ?_
    rintro rfl
    exact hx (h.user_live v a ((h.users v a).mp ha))
  resting a ha hnone := by
    by_cases hax : a = x
    · exact hax ▸ hrest
    · rw [huser, Function.update_of_ne hax] at hnone
      rw [hlive] at ha
      exact (h.resting a (Finset.mem_of_mem_insert_of_ne ha hax) hnone).congr (hs a hax)
  claimed a ha hc := by
    have hax : a ≠ x := by rintro rfl; simp [hclaimed] at hc
    rw [hlive] at ha
    rw [(hs a hax).waker]
    exact h.claimed a (Finset.mem_of_mem_insert_of_ne ha hax) ((hs a hax).claimed ▸ hc)
  next_null a ha he := by
    rw [hnext]
    by_cases hax : a = x
    · simp [hax]
    · rw [hlive] at ha
      rw [Function.update_of_ne hax]
      exact h.next_null a (Finset.mem_of_mem_insert_of_ne ha hax) ((hs a hax).step ▸ he)
  ne_null a ha := by
    by_cases hax : a = x
    · exact hax ▸ hne
    · rw [hlive] at ha
      exact h.ne_null a (Finset.mem_of_mem_insert_of_ne ha hax)
  thread a ha hk := by
    by_cases hax : a = x
    · subst hax
      rcases hrest.rest with hr | ⟨p, hr⟩ <;> simp [hr] at hk
    · rw [hlive] at ha
      rw [huser, Function.update_of_ne hax]
      rw [(hs a hax).waker] at hk ⊢
      exact h.thread a (Finset.mem_of_mem_insert_of_ne ha hax) hk

theorem next_null_update (h : Local s) {st : AcquireStep} (hst : st ≠ .entering) {y : Ptr}
    (hy : y ∈ s.live) (he : update s.mem.step x st y = .entering) : s.mem.next y = null := by
  by_cases hyx : y = x
  · subst hyx; exact absurd (by simpa using he) hst
  · exact h.next_null y hy (by rwa [Function.update_of_ne hyx] at he)

variable [DecidableEq ι]

theorem users_goto (h : Local s) (huses : f.uses = (s.frames t).uses) (v : ι) (a : Ptr) :
    (update s.frames t f v).uses = some a ↔ s.user a = some v := by
  by_cases hv : v = t
  · subst hv
    rw [Function.update_self, huses]
    exact h.users v a
  · rw [Function.update_of_ne hv]
    exact h.users v a

/-- A thread moves on and keeps what it borrows. -/
theorem keep (h : Local s) (hframes : s'.frames = update s.frames t f)
    (huser : s'.user = s.user) (hlive : s'.live = s.live)
    (huses : f.uses = (s.frames t).uses)
    (hs : ∀ a, s.user a ≠ some t → SameAt s.mem s'.mem s.ghost.claimed s'.ghost.claimed a)
    (hok : f.Ok s'.mem s'.ghost.claimed t)
    (hnext : ∀ a ∈ s.live, s'.mem.step a = .entering → s'.mem.next a = null)
    (hclaimed : ∀ a, s.user a = some t → s'.ghost.claimed a = true →
      ∃ p, (s'.mem.waker a).kind = .finished p)
    (hthread : ∀ a, s.user a = some t → (s'.mem.waker a).kind = .cancelling →
      (s'.mem.waker a).thread = some t) : Local s' where
  users v a := by
    rw [hframes, huser]
    exact h.users_goto huses v a
  user_live v a := by rw [huser, hlive]; exact h.user_live v a
  ok v := by
    rw [hframes]
    by_cases hv : v = t
    · subst hv; rwa [Function.update_self]
    · rw [Function.update_of_ne hv]
      refine (h.ok v).congr fun a ha => hs a fun hat => hv ?_
      exact Option.some.inj (((h.users v a).mp ha).symm.trans hat)
  resting a ha hnone := by
    rw [huser] at hnone
    exact (h.resting a (hlive ▸ ha) hnone).congr (hs a (by simp [hnone]))
  claimed a ha hc := by
    by_cases hat : s.user a = some t
    · exact hclaimed a hat hc
    · have hsa := hs a hat
      rw [hsa.waker]
      exact h.claimed a (hlive ▸ ha) (hsa.claimed ▸ hc)
  next_null a ha := hnext a (hlive ▸ ha)
  ne_null a ha := h.ne_null a (hlive ▸ ha)
  thread a ha hk := by
    rw [huser]
    by_cases hat : s.user a = some t
    · exact ⟨t, hthread a hat hk, hat⟩
    · have hsa := hs a hat
      rw [hsa.waker] at hk ⊢
      exact h.thread a (hlive ▸ ha) hk

/-- As `keep`, where no local field changes. -/
theorem goto (h : Local s) (hframes : s'.frames = update s.frames t f)
    (huser : s'.user = s.user) (hlive : s'.live = s.live)
    (huses : f.uses = (s.frames t).uses) (hstep : s'.mem.step = s.mem.step)
    (hamount : s'.mem.amount = s.mem.amount) (hwaker : s'.mem.waker = s.mem.waker)
    (hclaim : s'.ghost.claimed = s.ghost.claimed)
    (hnext : ∀ a ∈ s.live, s.mem.step a = .entering → s'.mem.next a = s.mem.next a)
    (hok : f.Ok s.mem s.ghost.claimed t) : Local s' := by
  have hsame (a : Ptr) : SameAt s.mem s'.mem s.ghost.claimed s'.ghost.claimed a :=
    ⟨by rw [hstep], by rw [hamount], by rw [hwaker], by rw [hclaim]⟩
  refine h.keep hframes huser hlive huses (fun a _ => hsame a)
    (hok.congr fun a _ => hsame a) ?_ ?_ ?_
  · intro a ha he
    rw [hstep] at he
    rw [hnext a ha he, h.next_null a ha he]
  · intro a ha hc
    rw [hwaker]
    exact h.claimed a (h.user_live t a ha) (hclaim ▸ hc)
  · intro a ha hk
    rw [hwaker] at hk ⊢
    obtain ⟨v, hv, hu⟩ := h.thread a (h.user_live t a ha) hk
    rwa [← Option.some.inj (hu.symm.trans ha)]

/-- A thread that returns the future it borrowed uses none, and the others keep theirs. -/
theorem users_return (h : Local s) (hx : (s.frames t).uses = some x) (huses : f.uses = none)
    (v : ι) (a : Ptr) :
    (update s.frames t f v).uses = some a ↔ update s.user x none a = some v := by
  by_cases hv : v = t
  · subst hv
    rw [Function.update_self, huses]
    by_cases ha : a = x
    · simp [ha]
    · rw [Function.update_of_ne ha, ← h.users v a, hx]
      simp [Ne.symm ha]
  · rw [Function.update_of_ne hv]
    by_cases ha : a = x
    · subst ha
      have hne : (s.frames v).uses ≠ some a := fun hva => hv (h.user_eq hva hx)
      simp [hne]
    · rw [Function.update_of_ne ha]
      exact h.users v a

/-- A thread returns the future it borrowed. -/
theorem leave (h : Local s) (hframes : s'.frames = update s.frames t f)
    (huser : s'.user = update s.user x none) (hlive : s'.live = s.live)
    (hx : (s.frames t).uses = some x) (huses : f.uses = none)
    (hs : ∀ a ≠ x, SameAt s.mem s'.mem s.ghost.claimed s'.ghost.claimed a)
    (hok : f.Ok s'.mem s'.ghost.claimed t) (hrest : Resting s'.mem s'.ghost.claimed x)
    (hnext : ∀ a ∈ s.live, s'.mem.step a = .entering → s'.mem.next a = null)
    (hclaimed : s'.ghost.claimed x = true → ∃ p, (s'.mem.waker x).kind = .finished p) :
    Local s' where
  users v a := by
    rw [hframes, huser]
    exact h.users_return hx huses v a
  user_live v a hva := by
    rw [huser] at hva
    rw [hlive]
    by_cases ha : a = x
    · subst ha; simp at hva
    · exact h.user_live v a (by rwa [Function.update_of_ne ha] at hva)
  ok v := by
    rw [hframes]
    by_cases hv : v = t
    · subst hv; rwa [Function.update_self]
    · rw [Function.update_of_ne hv]
      refine (h.ok v).congr fun a ha => hs a ?_
      rintro rfl
      exact hv (h.user_eq ha hx)
  resting a ha hnone := by
    by_cases hax : a = x
    · exact hax ▸ hrest
    · rw [huser, Function.update_of_ne hax] at hnone
      exact (h.resting a (hlive ▸ ha) hnone).congr (hs a hax)
  claimed a ha hc := by
    by_cases hax : a = x
    · subst hax; exact hclaimed hc
    · rw [(hs a hax).waker]
      exact h.claimed a (hlive ▸ ha) ((hs a hax).claimed ▸ hc)
  next_null a ha := hnext a (hlive ▸ ha)
  ne_null a ha := h.ne_null a (hlive ▸ ha)
  thread a ha hk := by
    by_cases hax : a = x
    · subst hax
      rcases hrest.rest with hr | ⟨p, hr⟩ <;> simp [hr] at hk
    · rw [huser, Function.update_of_ne hax]
      rw [(hs a hax).waker] at hk ⊢
      exact h.thread a (hlive ▸ ha) hk

theorem ready (h : Local s) {ret : Ret} (hx : (s.frames t).uses = some x)
    (hr : (s.mem.waker x).kind.Rest) (hframes : s'.frames = update s.frames t (.idle ret))
    (hmem : s'.mem = { s.mem with step := update s.mem.step x .done })
    (huser : s'.user = update s.user x none) (hlive : s'.live = s.live)
    (hclaim : ∀ y ≠ x, s'.ghost.claimed y = s.ghost.claimed y)
    (hfin : s'.ghost.claimed x = true → ∃ p, (s.mem.waker x).kind = .finished p) : Local s' := by
  refine h.leave hframes huser hlive hx rfl (fun y hy => ?_) trivial ⟨?_, ?_, ?_⟩
    (fun y hy hst => ?_) fun hc => ?_
  · rw [hmem]
    exact ⟨Function.update_of_ne hy _ _, rfl, rfl, hclaim y hy⟩
  · rw [hmem]; exact hr
  · intro hst; simp [hmem] at hst
  · intro hst; simp [hmem] at hst
  · rw [hmem] at hst ⊢
    exact h.next_null_update (by simp) hy hst
  · rw [hmem]; exact hfin hc

/-- A thread outside of any call borrows a future. -/
theorem borrow (h : Local s) (hframes : s'.frames = update s.frames t f)
    (huser : s'.user = update s.user x (some t)) (hlive : s'.live = s.live) (hmem : s'.mem = s.mem)
    (hclaim : s'.ghost.claimed = s.ghost.claimed) (hxl : x ∈ s.live) (hx : s.user x = none)
    (hidle : (s.frames t).uses = none) (huses : f.uses = some x)
    (hok : f.Ok s.mem s.ghost.claimed t) : Local s' where
  users v a := by
    rw [hframes, huser]
    by_cases hv : v = t
    · subst hv
      rw [Function.update_self, huses]
      by_cases ha : a = x
      · simp [ha]
      · rw [Function.update_of_ne ha, ← h.users v a, hidle]
        simp [Ne.symm ha]
    · rw [Function.update_of_ne hv]
      by_cases ha : a = x
      · subst ha
        have hne : (s.frames v).uses ≠ some a := fun hva => by
          have := (h.users v a).mp hva
          simp [hx] at this
        simp [hne, Ne.symm hv]
      · rw [Function.update_of_ne ha]
        exact h.users v a
  user_live v a hva := by
    rw [huser] at hva
    rw [hlive]
    by_cases ha : a = x
    · exact ha ▸ hxl
    · exact h.user_live v a (by rwa [Function.update_of_ne ha] at hva)
  ok v := by
    rw [hframes, hmem, hclaim]
    by_cases hv : v = t
    · subst hv; rwa [Function.update_self]
    · rw [Function.update_of_ne hv]; exact h.ok v
  resting a ha hnone := by
    rw [huser] at hnone
    have hax : a ≠ x := by rintro rfl; simp at hnone
    rw [Function.update_of_ne hax] at hnone
    rw [hmem, hclaim]
    exact h.resting a (hlive ▸ ha) hnone
  claimed := by rw [hlive, hmem, hclaim]; exact h.claimed
  next_null := by rw [hlive, hmem]; exact h.next_null
  ne_null := by rw [hlive]; exact h.ne_null
  thread a ha hk := by
    rw [hmem] at hk ⊢
    obtain ⟨v, hv, hu⟩ := h.thread a (hlive ▸ ha) hk
    refine ⟨v, hv, ?_⟩
    rw [huser, Function.update_of_ne (by rintro rfl; simp [hx] at hu), hu]

/-- A thread drops the future it borrowed. -/
theorem drop (h : Local s) (hframes : s'.frames = update s.frames t f)
    (huser : s'.user = update s.user x none) (hlive : s'.live = s.live.erase x)
    (hmem : s'.mem = s.mem) (hclaim : s'.ghost.claimed = s.ghost.claimed)
    (hx : (s.frames t).uses = some x) (huses : f.uses = none)
    (hok : f.Ok s.mem s.ghost.claimed t) : Local s' where
  users v a := by
    rw [hframes, huser]
    exact h.users_return hx huses v a
  user_live v a hva := by
    rw [huser] at hva
    rw [hlive]
    by_cases ha : a = x
    · subst ha; simp at hva
    · exact Finset.mem_erase.mpr
        ⟨ha, h.user_live v a (by rwa [Function.update_of_ne ha] at hva)⟩
  ok v := by
    rw [hframes, hmem, hclaim]
    by_cases hv : v = t
    · subst hv; rwa [Function.update_self]
    · rw [Function.update_of_ne hv]; exact h.ok v
  resting a ha hnone := by
    rw [hlive] at ha
    obtain ⟨hax, ha⟩ := Finset.mem_erase.mp ha
    rw [huser, Function.update_of_ne hax] at hnone
    rw [hmem, hclaim]
    exact h.resting a ha hnone
  claimed a ha hc := by
    rw [hlive] at ha
    rw [hmem]
    exact h.claimed a (Finset.mem_of_mem_erase ha) (hclaim ▸ hc)
  next_null a ha := by
    rw [hlive] at ha
    rw [hmem]
    exact h.next_null a (Finset.mem_of_mem_erase ha)
  ne_null a ha := by
    rw [hlive] at ha
    exact h.ne_null a (Finset.mem_of_mem_erase ha)
  thread a ha hk := by
    rw [hlive] at ha
    obtain ⟨hax, ha⟩ := Finset.mem_erase.mp ha
    rw [hmem] at hk ⊢
    rw [huser, Function.update_of_ne hax]
    exact h.thread a ha hk

/-- The lock owner changes the waker of `x` behind the back of its future. -/
theorem produce (h : Local s) (hframes : s'.frames = update s.frames t f)
    (huser : s'.user = s.user) (hlive : s'.live = s.live)
    (hclaim : s'.ghost.claimed = s.ghost.claimed) (huses : f.uses = (s.frames t).uses)
    (hs : ∀ a ≠ x, SameAt s.mem s'.mem s.ghost.claimed s'.ghost.claimed a)
    (hstep : s'.mem.step = s.mem.step) (hnext : s'.mem.next = s.mem.next)
    (hx : ∀ v, (s.frames v).uses = some x → (s.frames v).Ok s'.mem s'.ghost.claimed v)
    (hf : (s.frames t).Ok s'.mem s'.ghost.claimed t → f.Ok s'.mem s'.ghost.claimed t)
    (hrest : s.user x = none → Resting s'.mem s'.ghost.claimed x)
    (hclaimed : s.ghost.claimed x = false) (hk : (s'.mem.waker x).kind ≠ .cancelling) :
    Local s' := by
  have hok (v : ι) : (s.frames v).Ok s'.mem s'.ghost.claimed v := by
    by_cases hv : (s.frames v).uses = some x
    · exact hx v hv
    · exact (h.ok v).congr fun a ha => hs a (by rintro rfl; exact hv ha)
  constructor
  · intro v a
    rw [hframes, huser]
    exact h.users_goto huses v a
  · rw [huser, hlive]; exact h.user_live
  · intro v
    rw [hframes]
    by_cases hv : v = t
    · subst hv
      rw [Function.update_self]
      exact hf (hok v)
    · rw [Function.update_of_ne hv]; exact hok v
  · intro a ha hnone
    rw [huser] at hnone
    by_cases hax : a = x
    · subst hax; exact hrest hnone
    · exact (h.resting a (hlive ▸ ha) hnone).congr (hs a hax)
  · intro a ha hc
    rw [hclaim] at hc
    have hax : a ≠ x := by rintro rfl; simp [hclaimed] at hc
    rw [(hs a hax).waker]
    exact h.claimed a (hlive ▸ ha) hc
  · rw [hlive, hstep, hnext]; exact h.next_null
  · rw [hlive]; exact h.ne_null
  · intro a ha hka
    have hax : a ≠ x := by rintro rfl; exact hk hka
    rw [(hs a hax).waker] at hka ⊢
    rw [huser]
    exact h.thread a (hlive ▸ ha) hka

end Local

section Produce

variable {mem mem' : Waiters ι} {claimed : Ptr → Bool} {p : Bool}

theorem Frame.Ok.finished (h : f.Ok mem claimed t) (hx : f.uses = some x)
    (hk : (mem.waker x).kind = .pending ∨ (mem.waker x).kind = .storing)
    (hw : mem.step x = .waiting) (hc : claimed x = false) (hstep : mem'.step x = mem.step x)
    (hk' : (mem'.waker x).kind = .finished p)
    (hth : (mem'.waker x).thread = (mem.waker x).thread) : f.Ok mem' claimed t := by
  have hrest : Kind.Rest (.finished p) := Or.inr ⟨p, rfl⟩
  cases f with
  | idle ret => trivial
  | panicked => exact h
  | tryAcquire amount pc => trivial
  | pollEnter a pc =>
    obtain rfl : a = x := Option.some.inj hx
    exact absurd (h.1.symm.trans hw) (by simp)
  | pollWaiting a tok pc =>
    obtain rfl : a = x := Option.some.inj hx
    refine ⟨hstep.trans h.1, h.2.1, ?_⟩
    rw [hk']
    exact PollPc.ok_finished h.2.2 hk
  | release releasable ret pc =>
    cases ret with
    | caller => trivial
    | pollEnter a =>
      obtain rfl : a = x := Option.some.inj hx
      exact ⟨hstep.trans h.1, h.2.1, hk' ▸ hrest⟩
    | cancelling a =>
      obtain rfl : a = x := Option.some.inj hx
      rcases h.2 with h | h <;> simp [h] at hk
    | gaveBack a =>
      obtain rfl : a = x := Option.some.inj hx
      exact absurd (h.2.1.symm.trans hc) (by simp)
  | dropFuture a pc =>
    obtain rfl : a = x := Option.some.inj hx
    cases pc with
    | startCancel pc =>
      refine ⟨hstep.trans h.1, h.2.1, ?_⟩
      cases pc with
      | load =>
        change (mem'.waker a).kind.Rest
        exact hk' ▸ hrest
      | exchange current =>
        obtain ⟨hr, ht, hcur⟩ := h.2.2
        refine ⟨hk' ▸ hrest, hth.trans ht, Or.inl ?_⟩
        rcases hcur with hcur | hcur
        · exact hcur
        · rcases hk with hk | hk
          · exact hcur.trans hk
          · rcases hr with hr | ⟨q, hr⟩ <;> simp [hk] at hr
    | loadCancel =>
      have := h.2
      rcases hk with hk | hk <;> simp [hk] at this
    | pushCancel current =>
      have := h.2
      rcases hk with hk | hk <;> simp [hk] at this
    | waitCancel pc =>
      have := h.2
      rcases hk with hk | hk <;> simp [hk] at this
    | waker =>
      have := h.2 hw
      rcases hk with hk | hk <;> simp [hk, hc] at this

theorem Frame.Ok.accepted (h : f.Ok mem claimed t) (hx : f.uses = some x)
    (hk : (mem.waker x).kind = .cancelling) (hw : mem.step x = .waiting)
    (hstep : mem'.step x = mem.step x) (hk' : (mem'.waker x).kind = .cancelled)
    (hrole : f.role ≠ .cancelling x) : f.Ok mem' claimed t := by
  have hnr : ¬ (mem.waker x).kind.Rest := by simp [hk, Kind.Rest]
  cases f with
  | idle ret => trivial
  | panicked => exact h
  | tryAcquire amount pc => trivial
  | pollEnter a pc =>
    obtain rfl : a = x := Option.some.inj hx
    exact absurd (h.1.symm.trans hw) (by simp)
  | pollWaiting a tok pc =>
    obtain rfl : a = x := Option.some.inj hx
    exact absurd (hk ▸ h.2.2) PollPc.not_ok_cancelling
  | release releasable ret pc =>
    cases ret with
    | caller => trivial
    | pollEnter a =>
      obtain rfl : a = x := Option.some.inj hx
      exact absurd h.2.2 hnr
    | cancelling a =>
      obtain rfl : a = x := Option.some.inj hx
      exact ⟨hstep.trans h.1, Or.inr hk'⟩
    | gaveBack a =>
      obtain rfl : a = x := Option.some.inj hx
      obtain ⟨-, -, p, hp⟩ := h
      simp [hk] at hp
  | dropFuture a pc =>
    obtain rfl : a = x := Option.some.inj hx
    cases pc with
    | startCancel pc =>
      cases pc with
      | load => exact absurd h.2.2 hnr
      | exchange current => exact absurd h.2.2.1 hnr
    | loadCancel => exact absurd rfl hrole
    | pushCancel current => exact absurd rfl hrole
    | waitCancel pc => exact ⟨hstep.trans h.1, Or.inr hk'⟩
    | waker =>
      rcases h.1 with h | h
      · exact absurd h hnr
      · simp [hk] at h

end Produce

end WeightedSemaphore
