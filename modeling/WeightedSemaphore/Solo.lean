import WeightedSemaphore.Operations

/-!
# One call at a time

The invariant of sequential calls. The operation of the call in progress may be due: `enter` until
the waiter is pushed, `drop` until its cancellation has begun. Performing it leads the queue that
the state stands for to the abstract one.
-/

namespace WeightedSemaphore

open Function (update update_self update_of_ne update_eq_self)
open Protocol (Inv HistOk Abstracts Change Role)
open Links

theorem Protocol.Abstracts.init {ι ω : Type} [DecidableEq ι] (cap initial : ℕ) :
    Abstracts cap (.init cap initial : Protocol.State ι ω) (Fifo.init cap initial) := by
  refine ⟨?_, rfl, fun x hx => absurd rfl hx, fun _ _ => rfl⟩
  have hrest := Protocol.State.holds_at_rest cap (a := (.init cap initial : Protocol.State ι ω))
    rfl fun _ => rfl
  have hpermits : Tally.add cap (Tally.ofNat cap initial)
      (Tally.add cap (some 0) (some 0)) = Tally.ofNat cap initial := by
    rw [Tally.add_zero_add]
    exact Tally.add_zero fun n hn => by
      obtain ⟨rfl, hle⟩ := Tally.ofNat_eq_some.mp hn
      exact hle
  change Protocol.State.Holds cap (Tally.ofNat cap initial) _
  rwa [← hpermits]

/-- A thread that is in no call defers to nobody. -/
theorem Protocol.Step.clean {ι ω : Type} [DecidableEq ι] [DecidableEq ω] {cap : ℕ}
    {a b : Protocol.State ι ω} {who : Option ι} (h : Protocol.Step cap a b) (hi : Inv a)
    (hclean : ∀ q, a.rel ≠ .lockedDirty q) (halone : ∀ t, who ≠ some t → a.role t = .quiet) :
    ∀ q, b.rel ≠ .lockedDirty q := by
  cases h with
  | deferLocked t p after hr hrel =>
    have howner : a.owner ≠ none := by
      intro ho
      obtain ⟨q, hq⟩ := hi.lock.owner_none.mp ho
      rw [hrel] at hq
      cases hq
    obtain ⟨o, ho⟩ := Option.ne_none_iff_exists'.mp howner
    obtain ⟨k, hk⟩ := hi.lock.owner_role o ho
    have ht : who = some t := by
      by_contra hne
      rw [halone t hne] at hr
      cases hr
    have hot : who = some o.thread := by
      by_contra hne
      rw [halone _ hne] at hk
      cases hk
    obtain rfl : t = o.thread := Option.some.inj (ht.symm.trans hot)
    rw [hr] at hk
    cases hk
  | deferDirty t p q after hr hrel => exact absurd hrel (hclean q)
  | lock => simp
  | relock => simp
  | unlock => simp
  | _ => exact hclean

section

variable [Usize] {ι : Type}

/-- The operation that a call has yet to perform. -/
def Frame.due (uid amount : Ptr → ℕ) : Frame ι → Option (Fifo.Op ℕ)
  | .pollEnter x _ => some (.enter (uid x) (amount x))
  | .dropFuture x (.startCancel _) => some (.drop (uid x))
  | _ => none

theorem Frame.due_idle {f : Frame ι} {uid amount : Ptr → ℕ} (h : f.isIdle = true) :
    f.due uid amount = none := by
  cases f with
  | idle ret => rfl
  | _ => cases h

def Sys.due (s : Sys ι) (who : Option ι) : Option (Fifo.Op ℕ) :=
  who.bind fun t => (s.frames t).due s.ghost.uid s.mem.amount

/-- `A` is the queue that `s` stands for, and nobody has deferred to the lock owner. -/
structure Stands [DecidableEq ι] (s : Sys ι) (a : Protocol.State ι Ptr) (A : Fifo ℕ) : Prop where
  represents : Represents s a
  abstracts : Abstracts maxAvailable a A
  clean : ∀ q, a.rel ≠ .lockedDirty q

/-- What sequential calls keep: only thread `who` is in a call, and the queue `F`, which has
finished `os`, is what `A` comes to once the operation that is due is performed. -/
structure Solo [DecidableEq ι] (F : Fifo ℕ) (os : List (ℕ × Bool)) (s : Sys ι)
    (a : Protocol.State ι Ptr) (A : Fifo ℕ) (who : Option ι) : Prop extends Stands s a A where
  alone : ∀ t, who ≠ some t → (s.frames t).isIdle = true
  current : ∀ t x v, s.frames t = .pollEnter x (.loop v) → v = s.sem.acquire.load
  serve : F = ((s.due who).elim A (A.apply maxAvailable)).serve
  finished : A.finished = os

variable [DecidableEq ι] {F A B : Fifo ℕ} {os : List (ℕ × Bool)} {s s' : Sys ι}
  {a b : Protocol.State ι Ptr} {who : Option ι} {t : ι} {f : Frame ι} {act : Act ι}

def Sys.Refines (s : Sys ι) (F : Fifo ℕ) (os : List (ℕ × Bool)) : Prop :=
  ∃ a A who, Solo F os s a A who

namespace Stands

theorem quiet (h : Stands s a A) (halone : ∀ t, who ≠ some t → (s.frames t).isIdle = true) (t : ι)
    (ht : who ≠ some t) : a.role t = .quiet :=
  (h.represents.sim.view.role t).trans (Frame.role_idle (halone t ht))

/-- All permits are with the lock owner, and they are at most as many as it can hold. -/
theorem safe (h : Stands s a A) (hquiet : ∀ t, who ≠ some t → a.role t = .quiet)
    (o : Protocol.Owner ι Ptr) (n : ℕ) (ho : a.owner = some o) (hl : a.linked ≠ [])
    (hr : o.releasable = some n) : A.permits ≠ none := by
  have hi := h.represents.inv
  obtain ⟨r, ret, pc, -, hreleasable, -⟩ := h.represents.sim.pass.owned o ho
  have hn : n ≤ maxAvailable :=
    (Permits.intoUsize_eq_some.mp (hreleasable.symm.trans hr)).2
  obtain ⟨k, hk⟩ := hi.lock.owner_role o ho
  have hroles : ∀ u, (a.role u).permits = some 0 := by
    intro u
    by_cases hu : who = some u
    · have hown : who = some o.thread := by
        by_contra hne
        rw [hquiet _ hne] at hk
        cases hk
      obtain rfl : u = o.thread := Option.some.inj (hu.symm.trans hown)
      rw [hk]
      rfl
    · rw [hquiet u hu]
      rfl
  have hacq : a.acq.permits = some 0 := by
    cases hacq : a.acq with
    | available p => exact absurd (hi.available.linked_nil p hacq) hl
    | queued pushed => rfl
  have hrel : a.rel.permits = some 0 := by
    cases hrel : a.rel with
    | unlocked p =>
      rw [hi.lock.owner_none.mpr ⟨p, hrel⟩] at ho
      cases ho
    | locked => rfl
    | lockedDirty q => exact absurd hrel (h.clean q)
  obtain ⟨T, -, hT⟩ := h.abstracts.permits
  have hsum : Tally.sum maxAvailable T (fun u => (a.role u).permits) = some 0 := by
    rw [Tally.sum_subset (Finset.empty_subset T) fun u _ _ => hroles u]
    rfl
  have htotal : A.permits = some n := by
    rw [hT, Protocol.State.total, hsum, hacq, hrel]
    simp [Protocol.State.ownerPermits, ho, hr, Tally.add, Tally.ofNat, hn]
  rw [htotal]
  exact Option.some_ne_none n

theorem next (h : Stands s a A) (halone : ∀ t, who ≠ some t → (s.frames t).isIdle = true)
    (hn : s.next act = some s') :
    ∃ b B, Stands s' b B ∧ Change maxAvailable a b A B := by
  have hquiet := h.quiet halone
  rcases h.represents.next hn with hr | ⟨b, hstep, hr⟩
  · exact ⟨a, A, ⟨hr, h.abstracts, h.clean⟩, .silent (Or.inl rfl) (fun x p hx => by simp [hx])
      (fun _ ht => ht) rfl⟩
  · obtain ⟨B, hchange, hB⟩ := h.abstracts.step hstep h.represents.inv h.represents.hist
      fun o n ho _ hl hr => h.safe hquiet o n ho hl hr
    exact ⟨b, B, ⟨hr, hB, hstep.clean h.represents.inv h.clean hquiet⟩, hchange⟩

theorem still (h : Stands s a A) (halone : ∀ t, who ≠ some t → (s.frames t).isIdle = true)
    (hn : s.next act = some s')
    (hhist : s'.ghost.hist = s.ghost.hist ∨
      ∃ e, s'.ghost.hist = e :: s.ghost.hist ∧ e.Silent)
    (hdone : ∀ x p, s.lifeOf x = .finished p → s'.lifeOf x ≠ .done)
    (hrole : ∀ t, (s.frames t).role = .quiet → (s'.frames t).role = .quiet) :
    ∃ b, Stands s' b A := by
  obtain ⟨b, B, hb, hchange⟩ := h.next halone hn
  have hv := h.represents.sim.view
  have hv' := hb.represents.sim.view
  obtain rfl : B = A := by
    refine hchange.still ?_ (fun x p hx => ?_) fun t ht => ?_
    · rw [hv.hist, hv'.hist]
      exact hhist
    · rw [hv.life] at hx
      rw [hv'.life]
      exact hdone x p hx
    · rw [hv.role] at ht
      rw [hv'.role]
      exact hrole t ht
  exact ⟨b, hb⟩

theorem not_panicked (h : Stands s a A) (halone : ∀ t, who ≠ some t → (s.frames t).isIdle = true)
    {s₁ : Sys ι} : s.next act ≠ some (s₁.goto t .panicked) := by
  intro hn
  obtain ⟨b, B, hb, -⟩ := h.next halone hn
  exact hb.represents.sim.frame_ok (t := t) (f := .panicked) (update_self ..)

/-- While no thread is past `poll_enter` in a call, the queue is settled. -/
theorem settled (h : Stands s a A) (hrole : ∀ t, (s.frames t).role = .quiet) :
    a.owner = none ∧ A.Settled ∧ A.permits = s.tally := by
  have hquiet (t : ι) : a.role t = .quiet := (h.represents.sim.view.role t).trans (hrole t)
  have ho : a.owner = none := by
    by_contra hne
    obtain ⟨o, ho⟩ := Option.ne_none_iff_exists'.mp hne
    obtain ⟨k, hk⟩ := h.represents.inv.lock.owner_role o ho
    rw [hquiet] at hk
    cases hk
  exact ⟨ho, h.represents.settled h.abstracts ho hquiet,
    h.represents.tally h.abstracts ho hquiet⟩

/-- Nobody waits as long as the acquire word has permits. -/
theorem available (h : Stands s a A) (hrole : ∀ t, (s.frames t).role = .quiet) {q : Permits}
    (hacq : a.acq = .available q.intoUsize) : A.permits = q.intoUsize ∧ A.queue = [] := by
  have hi := h.represents.inv
  have hquiet (t : ι) : a.role t = .quiet := (h.represents.sim.view.role t).trans (hrole t)
  obtain ⟨ho, -, -⟩ := h.settled hrole
  obtain ⟨r, hr⟩ := hi.lock.owner_none.mp ho
  obtain rfl := hi.available.unlocked _ r hacq hr
  constructor
  · rw [h.abstracts.permits.unique (Protocol.State.holds_at_rest maxAvailable ho hquiet), hacq, hr]
    simp only [Protocol.Acq.permits, Protocol.Rel.permits, Tally.add_zero_add]
    exact Tally.add_zero fun n hn => (Permits.intoUsize_eq_some.mp hn).2
  · rw [h.abstracts.queue, (hi.waiting_at_rest ho hquiet).2, hi.available.linked_nil _ hacq]
    rfl

/-- Who neither waits nor has permits to give back withdraws nothing. -/
theorem apply_drop (h : Stands s a A) {x : Ptr} (hx : a.life x ≠ .absent)
    (hqueued : a.life x ≠ .queued) (hfin : a.life x ≠ .finished false) :
    A.apply maxAvailable (.drop (s.ghost.uid x)) = A := by
  have hr := h.represents
  rw [← hr.sim.view.uid]
  refine Fifo.apply_drop ?_ fun e he heq => ?_
  · rw [h.abstracts.granted.1 x hx, if_neg hfin]
  · rw [h.abstracts.queue, Protocol.State.waiting] at he
    obtain ⟨y, hy, rfl⟩ := List.mem_map.mp he
    obtain ⟨-, hlife⟩ := List.mem_filter.mp hy
    have hlife : a.life y = .queued := by simpa using hlife
    obtain rfl := hr.hist.uid_inj y x (by simp [hlife]) hx heq
    exact hqueued hlife

/-- The state of the protocol does not remember who was finished. -/
theorem finish (h : Stands s a A) (l : List (ℕ × Bool)) :
    Stands s a { A with finished := A.finished ++ l } :=
  ⟨h.represents, ⟨h.abstracts.permits, h.abstracts.queue, h.abstracts.granted⟩, h.clean⟩

end Stands

namespace Solo

theorem who_eq (h : Solo F os s a A who) (ht : (s.frames t).isIdle = false) : who = some t := by
  by_contra hne
  rw [h.alone t hne] at ht
  cases ht

/-- Apart from thread `t`, everybody is in no call. -/
theorem serve_eq (h : Solo F os s a A who) (hidle : ∀ u, u ≠ t → (s.frames u).isIdle = true) :
    F = (((s.frames t).due s.ghost.uid s.mem.amount).elim A (A.apply maxAvailable)).serve := by
  have hserve := h.serve
  cases hw : who with
  | none =>
    rw [Frame.due_idle (h.alone t (by simp [hw]))]
    rwa [hw] at hserve
  | some u =>
    rw [hw] at hserve
    by_cases hu : u = t
    · subst hu
      exact hserve
    · rw [Frame.due_idle (h.alone t (by simp [hw, hu]))]
      rwa [Sys.due, Option.bind_some, Frame.due_idle (hidle u hu)] at hserve

end Solo

/-- The step of a thread `t` that is alone in a call, or that begins one. -/
theorem Stands.solo (h : Stands s' b B) (hframes : s'.frames = update s.frames t f)
    (hidle : ∀ u, u ≠ t → (s.frames u).isIdle = true)
    (hcurrent : ∀ x v, f = .pollEnter x (.loop v) → v = s'.sem.acquire.load)
    (hserve : F = ((f.due s'.ghost.uid s'.mem.amount).elim B (B.apply maxAvailable)).serve)
    (hfin : B.finished = os) : s'.Refines F os := by
  refine ⟨b, B, some t, ⟨h, fun u hu => ?_, fun u x v hu => ?_, ?_, hfin⟩⟩
  · rw [hframes, update_of_ne fun he => hu (by rw [he])]
    exact hidle u fun he => hu (by rw [he])
  · by_cases hut : u = t
    · subst hut
      rw [hframes, update_self] at hu
      exact hcurrent x v hu
    · have := hidle u hut
      rw [hframes, update_of_ne hut] at hu
      rw [hu] at this
      cases this
  · rw [Sys.due, Option.bind_some, hframes, update_self]
    exact hserve

def Sys.Advances (s : Sys ι) (act : Act ι) (s' : Sys ι) (F : Fifo ℕ)
    (os : List (ℕ × Bool)) : Prop :=
  s'.Refines (F.run maxAvailable (s.op act s').toList) (os ++ (s.done act s').toList)

omit [DecidableEq ι] in
theorem Sys.op_step {spurious : Bool} (hacq : s'.frames t ≠ .idle .acquired)
    (hready : s'.frames t ≠ .idle .ready) : s.op (.step t spurious) s' = none := by
  simp only [op]
  split <;> simp_all

omit [DecidableEq ι] in
theorem Sys.done_step {spurious : Bool} (hready : s'.frames t ≠ .idle .ready)
    (herr : s'.frames t ≠ .idle .readyErr) (hrel : ∀ r ret pc, s.frames t ≠ .release r ret pc) :
    s.done (.step t spurious) s' = none := by
  simp only [done]
  split <;> simp_all

theorem role_update (hframes : s'.frames = update s.frames t f)
    (hrole : (s.frames t).role = .quiet → f.role = .quiet) (u : ι)
    (hu : (s.frames u).role = .quiet) : (s'.frames u).role = .quiet := by
  by_cases hut : u = t
  · subst hut
    rw [hframes, update_self]
    exact hrole hu
  · rw [hframes, update_of_ne hut]
    exact hu

omit [DecidableEq ι] in
theorem Frame.After.due {ret : Cont} {uid amount : Ptr → ℕ} (h : f.After ret) :
    f.due uid amount = none := by
  cases f with
  | pollEnter x pc => exact h.elim
  | dropFuture x pc =>
    cases pc with
    | startCancel pc => exact h.elim
    | _ => rfl
  | _ => rfl

/-- Only `finish` finishes a waiter. -/
theorem release_outcomes {spurious : Bool} {r : Permits} {ret : Cont} {pc : ReleasePc ι}
    (hpc : ∀ pop pc', pc ≠ .finish pop pc') :
    (s.release t r ret spurious pc).ghost.hist.outcomes = s.ghost.hist.outcomes := by
  have hafter (s : Sys ι) : (s.afterRelease t ret).ghost.hist = s.ghost.hist := by
    cases ret <;> rfl
  cases pc with
  | lock current =>
    simp only [Sys.release, Sys.lockOrElseDefer]
    cases current <;> dsimp only <;> split
    all_goals first | rfl | rw [hafter]
  | flip nextCancel current =>
    simp only [Sys.release, Sys.flip]
    cases current with
    | queued back =>
      dsimp only
      split_ifs
      · split <;> rfl
      · rfl
      · split <;> rfl
    | available q =>
      dsimp only
      split
      · split_ifs <;> rfl
      · rfl
  | walk nextCancel back waiter =>
    simp only [Sys.release, Sys.walk]
    split_ifs <;> rfl
  | cancel nextCancel =>
    simp only [Sys.release, Sys.cancel]
    split_ifs <;> rfl
  | accept waker nextCancel pc =>
    simp only [Sys.release, Sys.accept]
    split <;> rfl
  | tryPop =>
    simp only [Sys.release, Sys.tryPop]
    split_ifs
    · rfl
    · split
      · split_ifs <;> rfl
      · rfl
  | finish pop pc => exact absurd rfl (hpc pop pc)
  | unlock current =>
    simp only [Sys.release, Sys.tryUnlock]
    cases current with
    | unlocked q => rfl
    | _ => dsimp only; split <;> first | rfl | rw [hafter]
  | _ => rfl

theorem release_done (spurious : Bool) {r : Permits} {ret : Cont} {pc : ReleasePc ι}
    (hf : s.frames t = .release r ret pc) :
    (s.release t r ret spurious pc).ghost.hist.outcomes = s.ghost.hist.outcomes ++
      (s.done (.step t spurious) (s.release t r ret spurious pc)).toList := by
  cases pc with
  | finish pop pc =>
    simp only [Sys.release, Sys.finish]
    split
    all_goals simp only [Sys.done, hf, Sys.goto, update_self, Option.toList_none,
      Option.toList_some, List.append_nil]
    all_goals rfl
  | _ =>
    rw [release_outcomes (by simp)]
    simp only [Sys.done, hf, Option.toList_none, List.append_nil]

namespace Solo

theorem others (h : Solo F os s a A who) (ht : (s.frames t).isIdle = false) (u : ι) (hu : u ≠ t) :
    (s.frames u).isIdle = true := by
  refine h.alone u ?_
  rw [h.who_eq ht]
  exact fun he => hu (Option.some.inj he).symm

/-- A step of `t` that performs no operation, or only what was due. -/
theorem go (h : Solo F os s a A who) (hidle : ∀ u, u ≠ t → (s.frames u).isIdle = true)
    (hn : s.next act = some s') (hframes : s'.frames = update s.frames t f)
    (hhist : s'.ghost.hist = s.ghost.hist ∨
      ∃ e, s'.ghost.hist = e :: s.ghost.hist ∧ e.Silent)
    (hdone : ∀ x p, s.lifeOf x = .finished p → s'.lifeOf x ≠ .done)
    (hrole : (s.frames t).role = .quiet → f.role = .quiet)
    (hcurrent : ∀ x v, f = .pollEnter x (.loop v) → v = s'.sem.acquire.load)
    (hserve : F.run maxAvailable (s.op act s').toList =
      ((f.due s'.ghost.uid s'.mem.amount).elim A (A.apply maxAvailable)).serve)
    (hnone : s.done act s' = none) : s.Advances act s' F os := by
  obtain ⟨b, hb⟩ := h.still h.alone hn hhist hdone (role_update hframes hrole)
  refine hb.solo hframes hidle hcurrent hserve ?_
  rw [h.finished, hnone, Option.toList_none, List.append_nil]

variable {spurious : Bool}

theorem inside (h : Solo F os s a A who) (hbusy : (s.frames t).isIdle = false)
    (hrel : ∀ r ret pc, s.frames t ≠ .release r ret pc)
    (hn : s.next (.step t spurious) = some s') (hframes : s'.frames = update s.frames t f)
    (hhist : s'.ghost.hist = s.ghost.hist) (hstep : s'.mem.step = s.mem.step)
    (hclaim : s'.ghost.claimed = s.ghost.claimed)
    (hrole : (s.frames t).role = .quiet → f.role = .quiet)
    (hcurrent : ∀ x v, f = .pollEnter x (.loop v) → v = s'.sem.acquire.load)
    (hret : ∀ r, f = .idle r → r ≠ .acquired ∧ r ≠ .ready ∧ r ≠ .readyErr)
    (hserve : F = ((f.due s'.ghost.uid s'.mem.amount).elim A (A.apply maxAvailable)).serve) :
    s.Advances (.step t spurious) s' F os := by
  have hf : s'.frames t = f := by rw [hframes, update_self]
  have hnot (r : Ret) (hr : r = .acquired ∨ r = .ready ∨ r = .readyErr) :
      s'.frames t ≠ .idle r := by
    rintro he
    obtain ⟨h₁, h₂, h₃⟩ := hret r (hf.symm.trans he)
    rcases hr with rfl | rfl | rfl
    exacts [h₁ rfl, h₂ rfl, h₃ rfl]
  have hop : s.op (.step t spurious) s' = none :=
    Sys.op_step (hnot _ (by simp)) (hnot _ (by simp))
  have hnone : s.done (.step t spurious) s' = none :=
    Sys.done_step (hnot _ (by simp)) (hnot _ (by simp)) hrel
  refine h.go (h.others hbusy) hn hframes (Or.inl hhist) (Sys.not_done hstep hclaim) hrole hcurrent
    ?_ hnone
  rw [hop]
  exact hserve

/-- While the calling thread owes nothing to the protocol, no thread does. -/
theorem quiet (h : Solo F os s a A who) (hbusy : (s.frames t).isIdle = false)
    (ht : (s.frames t).role = .quiet) (u : ι) : (s.frames u).role = .quiet := by
  by_cases hu : u = t
  · rw [hu]
    exact ht
  · exact Frame.role_idle (h.others hbusy u hu)

end Solo

end

end WeightedSemaphore
