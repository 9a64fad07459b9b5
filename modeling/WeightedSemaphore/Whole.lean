import WeightedSemaphore.Demand
import WeightedSemaphore.Losses
import WeightedSemaphore.Outcomes

/-!
# When the semaphore is whole again

A pass of the lock owner that empties the queue leaves `Queued(null)` behind, and what is left in
the release word is not offered to anybody. This is made good by the next pass. If the queue got
empty by grants, there is a next pass, since the permits that were granted come back; if it got
empty by a cancellation, there may be none.
-/

namespace WeightedSemaphore

open Function (update update_self update_of_ne)

namespace Protocol

variable {ι ω : Type} {cap initial : ℕ} {a b : State ι ω} {t : ι} {x : ω}

/-- Nothing will put the permits into the acquire word unless another release begins. -/
structure State.Emptied (a : State ι ω) : Prop where
  queued : a.acq = .queued []
  linked : a.linked = []
  clean : ∀ q, a.rel ≠ .lockedDirty q
  flipped : ∀ o, a.owner = some o → o.phase.Flipped

def State.InUse (a : State ι ω) : Prop :=
  0 < a.granted ∨ 0 < a.held ∨ ∃ t, 0 < (a.role t).permits.count

/-- Unless permits got lost, or a cancellation has emptied the queue. -/
def State.Owed (a : State ι ω) : Prop :=
  ¬ a.Poisoned → (∀ u, .cancelling u ∉ a.hist) → History.forgotten a.hist = 0 → a.Emptied → a.InUse

theorem State.Owed.init (cap initial : ℕ) : (State.init cap initial : State ι ω).Owed := by
  intro _ _ _ hempty
  cases hempty.queued

theorem State.InUse.mono (h : a.InUse) (hgranted : b.granted = a.granted) (hheld : a.held ≤ b.held)
    (hrole : ∀ t, (a.role t).permits.count ≤ (b.role t).permits.count) : b.InUse := by
  rcases h with h | h | ⟨t, ht⟩
  · exact Or.inl (hgranted ▸ h)
  · exact Or.inr (Or.inl (h.trans_le hheld))
  · exact Or.inr (Or.inr ⟨t, ht.trans_le (hrole t)⟩)

variable [DecidableEq ι]

theorem count_role_le {r : Role ω} (hr : (a.role t).permits.count ≤ r.permits.count) (u : ι) :
    (a.role u).permits.count ≤ (update a.role t r u).permits.count := by
  by_cases hu : u = t
  · rw [hu, update_self]
    exact hr
  · rw [update_of_ne hu]

/-- Permits that come back are in use until they are put in. -/
theorem State.InUse.of_release {n : ℕ} {k : Option ω} (hp : ¬ b.Poisoned)
    (hrole : b.role = update a.role t (.releasing (Tally.ofNat cap n) k)) (hn : 0 < n) :
    b.InUse := by
  have ht : (b.role t).permits = Tally.ofNat cap n := by rw [hrole, update_self]; rfl
  have hne : Tally.ofNat cap n ≠ none := fun hnone =>
    hp (Or.inr (Or.inr (Or.inr ⟨t, ht.trans hnone⟩)))
  refine Or.inr (Or.inr ⟨t, ?_⟩)
  rwa [ht, Tally.count_ofNat hne]

variable [DecidableEq ω]

omit [DecidableEq ι] in
theorem State.InUse.of_grant (hx : x ∈ a.live) (hqueued : a.life x = .queued)
    (hlive : b.live = a.live) (hamount : b.amount = a.amount)
    (hlife : b.life = update a.life x (.finished false)) (hpos : 0 < a.amount x) : b.InUse := by
  have hgr := granted_update hx hlive hamount hlife
  simp only [hqueued, Life.granted, if_true, reduceCtorEq, if_false] at hgr
  exact Or.inl (by omega)

theorem Step.hist_suffix (h : Step cap a b) : ∃ later, b.hist = later ++ a.hist := by
  cases h with
  | fast n m hacq hn => exact ⟨[_], rfl⟩
  | fastPoll x m hacq hx hn => exact ⟨[_], rfl⟩
  | enter t x n pushed hr hx hacq => exact ⟨[_], rfl⟩
  | release t n hr => exact ⟨[_], rfl⟩
  | poison t n hr hn => exact ⟨[_], rfl⟩
  | forget n hn => exact ⟨[_], rfl⟩
  | startCancel t x hr hx => exact ⟨[_], rfl⟩
  | unlink o x taken ho hp ht => exact ⟨[_], rfl⟩
  | accept o x ho hp => exact ⟨[_], rfl⟩
  | grant o x linked n ho hp hl hx hr hn => exact ⟨[_], rfl⟩
  | fail o x linked ho hp hl hx hr => exact ⟨[_], rfl⟩
  | _ => exact ⟨[], rfl⟩

theorem forgotten_le_append (later h : History) :
    History.forgotten h ≤ History.forgotten (later ++ h) := by
  induction later with
  | nil => exact le_rfl
  | cons e later ih =>
    cases e with
    | forgot n =>
      simp only [List.cons_append, History.forgotten]
      omega
    | _ => exact ih

theorem State.Owed.step (ht : a.Owed) (hi : Inv a) (hh : HistOk a)
    (hpos : ∀ x ∈ a.live, 0 < a.amount x) (h : Step cap a b) : b.Owed := by
  intro hp hcancel hforgot hempty
  have hpa : ¬ a.Poisoned := fun h' => hp (h'.step hi h)
  obtain ⟨later, hlater⟩ := h.hist_suffix
  have hcancel' (u : ℕ) : .cancelling u ∉ a.hist := fun hu =>
    hcancel u (hlater ▸ List.mem_append_right _ hu)
  have hforgot' : History.forgotten a.hist = 0 := by
    have := forgotten_le_append later a.hist
    rw [hlater] at hforgot
    omega
  have hinuse : a.Emptied → a.InUse := ht hpa hcancel' hforgot'
  have hlive {x : ω} {l : Life} (hx : a.life x = l) (hl : l ≠ .absent) : x ∈ a.live :=
    (hi.live x).mpr (hx ▸ hl)
  have hsame {o : Owner ι ω} (ho : a.owner = some o) (hacq : a.acq = .queued [])
    (hl : a.linked = [])
      (hrel : ∀ q, a.rel ≠ .lockedDirty q) (hf : o.phase.Flipped) : a.Emptied :=
    ⟨hacq, hl, hrel, fun o' ho' => by rwa [← Option.some.inj (ho.symm.trans ho')]⟩
  obtain ⟨hacq, hl, hrel, hflip⟩ := id hempty
  cases h with
  | create x n hx =>
    exact (hinuse ⟨hacq, hl, hrel, hflip⟩).mono
      (granted_create (by simp [hi.live, hx]) n rfl rfl rfl) le_rfl fun _ => le_rfl
  | free x hx hr =>
    have hne : a.life x ≠ .finished false := by rintro he; simp [he] at hx
    exact (hinuse ⟨hacq, hl, hrel, hflip⟩).mono (granted_free hne rfl rfl rfl) le_rfl
      fun _ => le_rfl
  | retire x hx =>
    exact (hinuse ⟨hacq, hl, hrel, hflip⟩).mono
      (granted_same (hlive hx (by simp)) rfl rfl rfl (by simp) (by simp [hx])) le_rfl
      fun _ => le_rfl
  | fast n m hacq' hn => cases hacq
  | fastPoll x m hacq' hx hn => cases hacq
  | enter t x n pushed hr hx hacq' => cases hacq
  | release t n hr =>
    exact (hinuse ⟨hacq, hl, hrel, hflip⟩).mono rfl le_rfl
      (count_role_le (by simp [hr, Role.permits]))
  | poison t n hr hn => exact absurd (Or.inr (Or.inr (Or.inr ⟨t, by simp [Role.permits]⟩))) hp
  | dropGuard t n hr hn =>
    rcases Nat.eq_zero_or_pos n with rfl | hn'
    · exact (hinuse ⟨hacq, hl, hrel, hflip⟩).mono rfl le_rfl
        (count_role_le (by simp [hr, Role.permits]))
    · exact .of_release hp rfl hn'
  | forget n hn =>
    obtain rfl : n = 0 := by
      simp only [History.forgotten] at hforgot
      omega
    exact (hinuse ⟨hacq, hl, hrel, hflip⟩).mono rfl le_rfl fun _ => le_rfl
  | claim x p hx =>
    cases p with
    | false => exact Or.inr (Or.inl (Nat.add_pos_right _ (hpos x (hlive hx (by simp)))))
    | true =>
      exact (hinuse ⟨hacq, hl, hrel, hflip⟩).mono
        (granted_same (hlive hx (by simp)) rfl rfl rfl (by simp) (by simp [hx])) le_rfl
        fun _ => le_rfl
  | giveBack t x hr hx => exact .of_release hp rfl (hpos x (hlive hx (by simp)))
  | startCancel t x hr hx => exact absurd List.mem_cons_self (hcancel (a.uid x))
  | pushCancel t x hr =>
    exact (hinuse ⟨hacq, hl, hrel, hflip⟩).mono rfl le_rfl
      (count_role_le (by simp [hr, Role.permits]))
  | waited t x hr hx =>
    exact (hinuse ⟨hacq, hl, hrel, hflip⟩).mono rfl le_rfl
      (count_role_le (by simp [hr, Role.permits]))
  | lock t p q after hr hrel' => exact (hflip _ rfl).elim
  | deferLocked t p after hr hrel' => exact absurd rfl (hrel p)
  | deferDirty t p q after hr hrel' => exact absurd rfl (hrel _)
  | swap o ho hp' => exact (hflip _ rfl).elim
  | flipAvailable o ho hp' hacq' hl' => cases hacq
  | flipAdd o q ho hp' hacq' => cases hacq
  | flipTake o pushed ho hp' hacq' hpush =>
    exact absurd (List.reverse_eq_nil_iff.mp (List.append_eq_nil_iff.mp hl).2) hpush
  | flipSkip o ho hp' hacq' hl' => exact absurd hl hl'
  | unlink o x taken ho hp' ht' =>
    have hx : x ∈ a.taken := by simp [taken_of_owner ho, ht']
    exact absurd (hh.cancelling x (hi.taken_life hx)) (hcancel' _)
  | accept o x ho hp' =>
    have hx : x ∈ a.accepting := by simp [accepting_of_owner ho, hp', Phase.accepting]
    exact absurd (hh.cancelling x (hi.accepting_life hx)) (hcancel' _)
  | cancelled o ho hp' ht' =>
    exact (hinuse (hsame ho hacq hl hrel (by simp [hp', Phase.Flipped]))).mono rfl le_rfl
      fun _ => le_rfl
  | grant o x linked n ho hp' hl' hx hr hn =>
    have hxa := hlive hx (by simp)
    exact .of_grant hxa hx rfl rfl rfl (hpos x hxa)
  | fail o x linked ho hp' hl' hx hr =>
    exact absurd (Or.inr (Or.inr (Or.inl ((ownerPermits_of_owner ho).trans hr)))) hpa
  | stop o ho hp' hb =>
    exact (hinuse (hsame ho hacq hl hrel (by simp [hp', Phase.Flipped]))).mono rfl le_rfl
      fun _ => le_rfl
  | relock o q ho hp' hrel' => exact (hflip _ rfl).elim
  | unlock o after ho hp' hrel' hr =>
    exact (hinuse (hsame ho hacq hl (by simp [hrel'])
      (by simp [hp', Phase.Flipped]))).mono rfl le_rfl
      (count_role_le (by simp [hr, Role.permits]))

end Protocol

section

variable [Usize] {ι : Type} [DecidableEq ι] {s : Sys ι} {initial : ℕ}

theorem owed_of_run (h : Runs.Steps Sys.next (fun _ act => act.Asks (0 < ·)) (Sys.init initial) s) :
    ∃ a, Represents s a ∧ a.Owed := by
  refine kept_of_run (fun s a b hs hr ho hstep => ?_) (.init maxAvailable initial) h
  refine ho.step hr.inv hr.hist (fun x hx => ?_) hstep
  rw [hr.sim.view.amount]
  exact (asks_of_run hs).futures x (hr.sim.view.live ▸ hx)

omit [DecidableEq ι] in
/-- At rest with nothing in use and nobody waiting, the permits are back in the acquire word, unless
an acquire was cancelled or a guard forgotten. -/
theorem available_of_owed {a : Protocol.State ι Ptr} (hr : Represents s a) (ho : a.Owed)
    (hq : s.Quiescent) (hp : ¬ s.Poisoned) (hcancel : ∀ u, .cancelling u ∉ s.ghost.hist)
    (hforgot : s.ghost.hist.forgotten = 0) (hwaits : ∀ x, ¬ s.Waits x) (hgranted : s.granted = 0)
    (hguarded : s.guarded = 0) :
    ∃ p m, s.sem.acquire.load = .available p ∧ p.intoUsize = some m := by
  cases hload : s.sem.acquire.load with
  | available p =>
    obtain ⟨m, hm⟩ := Option.ne_none_iff_exists'.mp fun hnone : p.intoUsize = none =>
      hp (Or.inl (by rw [hload]; exact hnone))
    exact ⟨p, m, rfl, hm⟩
  | queued back =>
    have hv := hr.sim.view
    have hrole (t : ι) : a.role t = .quiet := (hv.role t).trans (Frame.role_idle (hq t))
    have howner := hr.sim.owner_of_quiescent hq
    obtain ⟨hpush, -, -, r, hrel, -⟩ := hr.inv.at_rest howner hrole
    have hacq : a.acq = .queued [] := by
      have hrep := hr.sim.words.acq
      rw [hload] at hrep
      obtain ⟨pushed, hacq, -⟩ := hrep
      simp only [Protocol.State.pushed, hacq] at hpush
      rw [hacq, hpush]
    have hlinked : a.linked = [] := List.eq_nil_iff_forall_not_mem.mpr fun x hx =>
      hwaits x ((hr.waits_iff howner hrole x).mpr hx)
    have hempty : a.Emptied := ⟨hacq, hlinked, by simp [hrel], by simp [howner]⟩
    have hinuse := ho (mt (hr.sim.poisoned_iff hr.inv).mpr hp) (by rwa [hv.hist])
      (by rwa [hv.hist]) hempty
    rcases hinuse with h | h | ⟨t, ht⟩
    · rw [hv.granted, hgranted] at h
      exact absurd h (Nat.lt_irrefl 0)
    · rw [hv.held] at h
      exact absurd hguarded h.ne'
    · rw [hrole] at ht
      exact absurd ht (Nat.lt_irrefl 0)

theorem Reachable.total_at_rest (h : Reachable initial s) (hq : s.Quiescent) (hp : ¬ s.Poisoned)
    (hforgot : s.ghost.hist.forgotten = 0) (hgranted : s.granted = 0) (hguarded : s.guarded = 0) :
    s.total = initial + s.ghost.hist.given := by
  have hledger := h.ledger_at_rest hq hp
  unfold Sys.total
  omega

/-- Whatever calls overlapped: at rest with nothing in use and nobody waiting, the semaphore offers
all that was put in, unless it is poisoned, or an acquire was cancelled or a guard forgotten. -/
theorem whole_again (h : Runs.Steps Sys.next (fun _ act => act.Asks (0 < ·)) (Sys.init initial) s)
    (hq : s.Quiescent) (hp : ¬ s.Poisoned) (hcancel : ∀ u, .cancelling u ∉ s.ghost.hist)
    (hforgot : s.ghost.hist.forgotten = 0) (hwaits : ∀ x, ¬ s.Waits x) (hgranted : s.granted = 0)
    (hguarded : s.guarded = 0) :
    s.total = initial + s.ghost.hist.given ∧
      ∀ t x n, x ∉ s.live → x ≠ null → s.Offers t x n := by
  have hreach : Reachable initial s := h.reaches
  obtain ⟨a, hr, ho⟩ := owed_of_run h
  obtain ⟨p, m, hload, hm⟩ :=
    available_of_owed hr ho hq hp hcancel hforgot hwaits hgranted hguarded
  have htotal : s.total = m := by
    rw [hreach.total_of_available hq hload, Permits.count, hm, Tally.count_some]
  refine ⟨hreach.total_at_rest hq hp hforgot hgranted hguarded, fun t x n hx hnull => ?_⟩
  have hfits : s.sem.acquire.load.Fits n ↔ n ≤ s.total := by
    rw [htotal, hload]
    simp [AcquireState.Fits, hm]
  exact ⟨Sys.tryAcquire_returns hq t n,
    fun r hr => (Sys.Returns.tryAcquire hr).acquired_iff.trans hfits,
    fun hle => Sys.poll_ready hx hnull hq (hfits.mpr hle),
    fun r hr => (Sys.PollReturns.answer hx hnull hq hr).ready_iff.trans hfits⟩

end

attribute [local instance] usize64

/-- A waiter is granted by a guard's drop, and drops its own guard before that is over. -/
def relayedSchedule : List (Act Bool) :=
  [.call true (.tryAcquire 2)] ++ Act.steps true 2 ++
    [.acquire (usize64.ptr 0) 2, .call false (.poll (usize64.ptr 0))] ++ Act.steps false 20 ++
    [.call true (.dropGuard 0)] ++ Act.steps true 13 ++
    [.call false (.poll (usize64.ptr 0))] ++ Act.steps false 2 ++
    [.call false (.dropFuture (usize64.ptr 0)), .step false false, .call false (.dropGuard 0)] ++
    Act.steps false 2 ++ Act.steps true 10

def relayed : Sys Bool := Runs.final Sys.next relayedSchedule (Sys.init 3) (by decide +kernel)

theorem whole_again_relayed :
    relayed.total = 3 + relayed.ghost.hist.given ∧
      ∀ t x n, x ∉ relayed.live → x ≠ null → relayed.Offers t x n := by
  have hexec : Runs.exec Sys.next relayedSchedule (Sys.init 3) = some relayed := Runs.exec_final _
  have hasks : Runs.Steps Sys.next (fun _ act => act.Asks (0 < ·)) (Sys.init 3) relayed :=
    (Runs.steps_of_admits (P := fun _ act => decide (act.Asks (0 < ·))) hexec
      (by decide +kernel)).mono fun _ _ h => of_decide_eq_true h
  have hq : relayed.Quiescent := fun t => by cases t <;> rfl
  have hhist : relayed.ghost.hist = [.finished 0 false, .installed 0, .fastPath 2] := by
    decide +kernel
  have hacq : relayed.sem.acquire.load = .available (Permits.new 3) := by decide +kernel
  have hrel : relayed.sem.release.load = .unlocked (Permits.new 0) := by decide +kernel
  have hlive : relayed.live = ∅ := by decide +kernel
  have hp : ¬ relayed.Poisoned :=
    hq.not_poisoned (by rw [hacq]; exact (by decide +kernel : (Permits.new 3).intoUsize ≠ none))
      hrel (by decide +kernel)
  refine whole_again hasks hq hp (fun u hu => ?_) (by decide +kernel) (fun x hx => ?_)
    (by decide +kernel) (by decide +kernel)
  · rw [hhist] at hu
    simp at hu
  · have hx' := hx.1
    simp [hlive] at hx'

end WeightedSemaphore
