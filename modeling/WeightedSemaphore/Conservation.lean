import WeightedSemaphore.ProtocolPermits
import WeightedSemaphore.Refinement
import WeightedSemaphore.Returns

/-!
# Conservation of permits

In a run that is never poisoned by its users, and in which the permits outside of the hands of users
stay within `maxAvailable`, no permit is lost or duplicated, and nothing else poisons the semaphore.
-/

namespace WeightedSemaphore

open Function (update)
open Protocol (Inv Clean)

section

variable [Usize] {ι : Type}

def Permits.count (p : Permits) : ℕ := Tally.count p.intoUsize

def AcquireState.permits : AcquireState → ℕ
  | available p => p.count
  | queued _ => 0

def ReleaseState.permits : ReleaseState → ℕ
  | unlocked p => p.count
  | locked => 0
  | lockedDirty p => p.count

def Frame.carried : Frame ι → ℕ
  | release releasable _ _ => releasable.count
  | _ => 0

namespace Sys

/-- The waiter was granted its permits, which are neither with a guard nor given back. -/
def Granted (s : Sys ι) (x : Ptr) : Prop :=
  s.mem.step x = .waiting ∧ s.ghost.claimed x = false ∧
    (s.mem.waker x).state.load = .finished false

instance (s : Sys ι) (x : Ptr) : Decidable (s.Granted x) := inferInstanceAs (Decidable (_ ∧ _ ∧ _))

def granted (s : Sys ι) : ℕ := ∑ x ∈ s.live, if s.Granted x then s.mem.amount x else 0

def guarded (s : Sys ι) : ℕ := (s.guards.map SemaphoreGuard.amount).sum

/-- No call to `poison` and no guard dropped by a panic so far, and at most `maxAvailable` permits
held neither by guards nor by granted waiters. -/
def Calm (initial : ℕ) (s : Sys ι) : Prop :=
  .poison ∉ s.ghost.hist ∧
    initial + s.ghost.hist.given ≤
      maxAvailable + s.ghost.hist.forgotten + s.guarded + s.granted

instance (initial : ℕ) (s : Sys ι) : Decidable (s.Calm initial) :=
  inferInstanceAs (Decidable (_ ∧ _))

structure Unpoisoned (s : Sys ι) : Prop where
  acquire : ¬ s.sem.acquire.load.Poisoned
  unlocked : ∀ p, s.sem.release.load = .unlocked p → p.intoUsize ≠ none
  lockedDirty : ∀ p, s.sem.release.load = .lockedDirty p → p.intoUsize ≠ none
  releasing : ∀ t r ret pc, s.frames t = .release r ret pc → r.intoUsize ≠ none
  waiters : ∀ u, .finished u true ∉ s.ghost.hist
  results : ∀ t, s.frames t ≠ .idle .poisoned ∧ s.frames t ≠ .idle .readyErr

end Sys

section View

variable {s : Sys ι} {a : Protocol.State ι Ptr}

theorem View.granted_iff (h : View s a) {x : Ptr} (hx : x ∈ s.live) :
    a.life x = .finished false ↔ s.Granted x := by
  rw [h.life]
  constructor
  · intro hlife
    obtain ⟨-, hst, hc, hk⟩ := Sys.lifeOf_reachable hlife (by simp)
    refine ⟨hst, hc, Waker.State.kind_eq_finished ?_⟩
    change (s.mem.waker x).kind = _
    cases hkind : (s.mem.waker x).kind <;> simp_all [Waker.Kind.life]
  · rintro ⟨hst, hc, hload⟩
    exact Sys.lifeOf_kind hx hst hc (k := .finished false) (by rw [AtomicWaker.kind, hload]; rfl)

theorem View.granted (h : View s a) : a.granted = s.granted := by
  unfold Protocol.State.granted Sys.granted
  rw [h.live, h.amount]
  refine Finset.sum_congr rfl fun x hx => ?_
  by_cases hg : s.Granted x
  · rw [if_pos hg, Protocol.Life.granted, if_pos ((h.granted_iff hx).mpr hg)]
  · rw [if_neg hg, Protocol.Life.granted, if_neg (mt (h.granted_iff hx).mp hg)]

theorem View.budget (h : View s a) {initial : ℕ} (hcalm : s.Calm initial) :
    a.Budget maxAvailable initial := by
  unfold Protocol.State.Budget
  rw [h.hist, h.held, h.granted]
  exact hcalm.2

theorem Words.acq_permits (h : Words s.sem s.mem a) :
    (a.acq.permits = none ↔ s.sem.acquire.load.Poisoned) ∧
      a.acq.permits.count = s.sem.acquire.load.permits := by
  have hacq := h.acq
  cases hload : s.sem.acquire.load with
  | available p =>
    rw [hload] at hacq
    rw [show a.acq = .available p.intoUsize from hacq]
    exact ⟨Iff.rfl, rfl⟩
  | queued back =>
    rw [hload] at hacq
    obtain ⟨pushed, hpushed, -⟩ := hacq
    rw [hpushed]
    simp [Protocol.Acq.permits, AcquireState.Poisoned, AcquireState.permits]

theorem Words.rel_count (h : Words s.sem s.mem a) :
    a.rel.permits.count = s.sem.release.load.permits := by
  rw [h.rel]
  cases s.sem.release.load <;> rfl

/-- What the threads carry is with the lock owner and with the threads that want the lock. -/
theorem Sim.carried [DecidableEq ι] (hs : Sim s a) (hi : Inv a) {T : Finset ι}
    (hT : ∀ t ∉ T, (s.frames t).isIdle = true) :
    ∑ t ∈ T, (s.frames t).carried =
      a.ownerPermits.count + ∑ t ∈ T, (a.role t).permits.count := by
  have hother : ∀ t, (∀ o, a.owner = some o → o.thread ≠ t) →
      (s.frames t).carried = (a.role t).permits.count := by
    intro t ht
    rw [hs.view.role]
    cases hf : s.frames t with
    | release r ret pc =>
      cases hl : pc.locks with
      | true => simp [Frame.carried, Frame.role, hl, Permits.count, Protocol.Role.permits]
      | false =>
        obtain ⟨o, ho, hot, -⟩ := hs.owner_of hi hf hl
        exact absurd hot (ht o ho)
    | dropFuture x pc => cases pc <;> rfl
    | _ => rfl
  cases ho : a.owner with
  | none =>
    simp only [Protocol.State.ownerPermits, ho, Tally.count_some, Nat.zero_add]
    exact Finset.sum_congr rfl fun t _ => hother t (by simp [ho])
  | some o =>
    obtain ⟨r, ret, pc, hf, hr, hpc⟩ := hs.pass.owned o ho
    have hmem : o.thread ∈ T := by
      by_contra hnot
      have := hT o.thread hnot
      simp [hf, Frame.isIdle] at this
    have hchange := Sums.sum_change (f := fun t => (s.frames t).carried)
      (g := fun t => (a.role t).permits.count) hmem fun t _ ht => hother t fun o' ho' he => by
        rw [ho] at ho'
        obtain rfl := Option.some.inj ho'
        exact ht he.symm
    have hrole : (a.role o.thread).permits.count = 0 := by
      obtain ⟨k, hk⟩ := hi.lock.owner_role o ho
      rw [hk]
      rfl
    have hcarried : (s.frames o.thread).carried = o.releasable.count := by
      rw [hf, hr]
      rfl
    rw [hrole, hcarried] at hchange
    simp only [Protocol.State.ownerPermits, ho]
    omega

theorem Sim.ledger [DecidableEq ι] (hs : Sim s a) (hi : Inv a) {S T : Finset ι}
    (hS : a.CarriedBy S) (hT : ∀ t ∉ T, (s.frames t).isIdle = true) :
    s.sem.acquire.load.permits + s.sem.release.load.permits + ∑ t ∈ T, (s.frames t).carried +
        s.granted + s.guarded + s.ghost.hist.forgotten =
      a.ledger + ∑ t ∈ S, (a.role t).permits.count := by
  have hT' : ∀ t ∉ T, (a.role t).permits.count = 0 := fun t ht => by
    rw [hs.view.role, Frame.role_idle (hT t ht)]
    rfl
  rw [Sums.sum_support (fun t ht => by rw [hS t ht]; rfl) hT', hs.carried hi hT,
    ← hs.words.acq_permits.2, ← hs.words.rel_count, ← hs.view.granted, ← hs.view.hist, Sys.guarded,
    ← hs.view.held]
  unfold Protocol.State.ledger
  omega

end View

section Results

def Frame.Clean : Frame ι → Prop
  | idle ret => ret ≠ .poisoned ∧ ret ≠ .readyErr
  | tryAcquire _ (.loop current) => ¬ current.Poisoned
  | pollEnter _ (.loop current) => ¬ current.Poisoned
  | _ => True

theorem Frame.Clean.of_after {f : Frame ι} {ret : Cont} (h : f.After ret) : f.Clean := by
  cases f with
  | idle ret => cases ret <;> first | exact h.elim | simp [Clean]
  | tryAcquire amount pc => exact h.elim
  | pollEnter a pc => exact h.elim
  | _ => trivial

theorem Frame.Clean.of_drops {f : Frame ι} {a : Ptr} (h : f.Drops a) : f.Clean := by
  cases f with
  | idle ret => cases ret <;> first | exact h.elim | simp [Clean]
  | tryAcquire amount pc => exact h.elim
  | pollEnter a pc => exact h.elim
  | _ => trivial

theorem TryAcquirePc.Next.clean {pc : TryAcquirePc} {word : AcquireState} {amount : ℕ}
    {f : Frame ι} (h : pc.Next word amount f) (hword : ¬ word.Poisoned)
    (hpc : (Frame.tryAcquire amount pc : Frame ι).Clean) : f.Clean := by
  cases pc with
  | load =>
    obtain rfl : f = _ := h
    exact hword
  | loop current =>
    rcases h with ⟨-, hp⟩ | ⟨rfl, -⟩ | ⟨rfl, -⟩ | ⟨rfl, -⟩
    · exact absurd hp hpc
    · simp [Frame.Clean]
    · simp [Frame.Clean]
    · exact hword

theorem EnterPc.Next.clean {pc : EnterPc} {word : AcquireState} {a : Ptr} {amount : ℕ}
    {f : Frame ι} (h : pc.Next word a amount f) (hword : ¬ word.Poisoned)
    (hpc : (Frame.pollEnter a pc : Frame ι).Clean) : f.Clean := by
  cases pc with
  | load =>
    obtain rfl : f = _ := h
    exact hword
  | loop current =>
    rcases h with ⟨-, hp⟩ | ⟨rfl, -⟩ | ⟨rfl, -⟩ | ⟨available, back, tok, rfl, -⟩
    · exact absurd hp hpc
    · simp [Frame.Clean]
    · exact hword
    · trivial
  | poll current available back tok pc =>
    rcases h with ⟨pc, rfl⟩ | rfl | rfl <;> trivial
  | push current available back =>
    rcases h with rfl | ⟨r, rfl⟩
    · exact hword
    · trivial

variable [DecidableEq ι] {s s' : Sys ι} {act : Act ι}

/-- While nothing is poisoned, no call comes to report poison. -/
theorem Sys.next_clean (h : s.next act = some s') (hclean : ∀ t, (s.frames t).Clean)
    (hword : ¬ s.sem.acquire.load.Poisoned) (hl : Local s)
    (hlife : ∀ x, s.lifeOf x ≠ .finished true) (t : ι) : (s'.frames t).Clean := by
  have key : ∀ {u : ι} {f : Frame ι}, s'.frames = update s.frames u f → f.Clean →
      (s'.frames t).Clean := by
    intro u f hs' hf
    rw [hs']
    by_cases ht : t = u
    · subst ht; simpa using hf
    · rw [Function.update_of_ne ht]
      exact hclean t
  cases act with
  | call u c =>
    simp only [next] at h
    split_ifs at h
    obtain ⟨f, hf, hc⟩ := call_next h
    refine key hf ?_
    cases c with
    | poll a =>
      rcases hc with ⟨-, rfl⟩ | ⟨-, tok, rfl⟩ | ⟨-, rfl⟩ <;> simp [Frame.Clean]
    | dropFuture a => exact .of_drops hc
    | tryAcquire amount => rw [hc]; trivial
    | release amount => obtain ⟨r, rfl⟩ := hc; trivial
    | poison => obtain ⟨r, rfl⟩ := hc; trivial
    | dropGuard i => obtain ⟨r, rfl⟩ := hc; trivial
  | step u spurious =>
    have hu := hclean u
    have hok := hl.ok u
    simp only [next, step] at h
    cases hf : s.frames u with
    | idle r => simp [hf] at h
    | panicked => simp [hf] at h
    | tryAcquire amount pc =>
      rw [hf] at h hu
      obtain rfl := Option.some.inj h
      obtain ⟨f, hframes, hnext, -⟩ := tryAcquire_next s u amount spurious pc
      exact key hframes (hnext.clean hword hu)
    | pollEnter a pc =>
      rw [hf] at h hu
      obtain rfl := Option.some.inj h
      obtain ⟨f, hframes, hnext, -⟩ := pollEnter_next s u a spurious pc
      exact key hframes (hnext.clean hword hu)
    | pollWaiting a tok pc =>
      rw [hf] at h hok
      obtain ⟨hstep, hclaim, hpc⟩ := hok
      obtain rfl := Option.some.inj h
      obtain ⟨f, hframes, hnext⟩ := pollWaiting_next s u a tok spurious pc
      refine key hframes ?_
      rcases hnext with ⟨pc, rfl⟩ | rfl | rfl | ⟨p, hflow, rfl⟩
      · trivial
      · simp [Frame.Clean]
      · trivial
      · have hspec := (AtomicWaker.poll_spec tok spurious hpc).2
        rw [hflow] at hspec
        have hlive := hl.user_live u a ((hl.users u a).mp (by rw [hf]; rfl))
        cases p with
        | false => simp [Frame.Clean]
        | true => exact absurd (Sys.lifeOf_kind hlive hstep hclaim hspec.1) (hlife a)
    | release r ret pc =>
      rw [hf] at h
      obtain rfl := Option.some.inj h
      obtain ⟨f, hframes, hafter⟩ := release_next s u r ret spurious pc
      exact key hframes (.of_after hafter)
    | dropFuture a pc =>
      rw [hf] at h
      obtain ⟨f, hframes, hdrops⟩ := dropFuture_next h
      exact key hframes (.of_drops hdrops)
  | acquire a amount =>
    simp only [next, acquire] at h
    split_ifs at h
    obtain rfl := Option.some.inj h
    exact hclean t
  | forget i =>
    simp only [next, forget] at h
    split at h
    · cases h
    · obtain rfl := Option.some.inj h
      exact hclean t
  | setPanicking u panicking =>
    simp only [next] at h
    split_ifs at h
    obtain rfl := Option.some.inj h
    exact hclean t

end Results

section Theorem

variable [DecidableEq ι] {s : Sys ι} {initial : ℕ}

structure Accounts (initial : ℕ) (s : Sys ι) (a : Protocol.State ι Ptr) : Prop where
  represents : Represents s a
  clean : Clean a
  balanced : a.Balanced initial
  budget : a.Budget maxAvailable initial
  frames : ∀ t, (s.frames t).Clean

omit [DecidableEq ι] in
theorem Accounts.init (h : initial ≤ maxAvailable) :
    Accounts initial (Sys.init initial : Sys ι) (Protocol.State.init maxAvailable initial) where
  represents := Represents.init initial
  clean := Clean.init h
  balanced := Protocol.State.Balanced.init h
  budget := by
    simp only [Protocol.State.Budget, Protocol.State.init, History.given, History.forgotten]
    omega
  frames t := by simp [Sys.init, Frame.Clean]

theorem Accounts.next {a : Protocol.State ι Ptr} {s' : Sys ι} {act : Act ι}
    (h : Accounts initial s a) (hn : s.next act = some s') (hcalm : s'.Calm initial) :
    ∃ b, Accounts initial s' b ∧ (b = a ∨ Protocol.Step maxAvailable a b) := by
  have hs := h.represents.sim
  have hword : ¬ s.sem.acquire.load.Poisoned := mt hs.words.acq_permits.1.mpr h.clean.acq
  have hframes := Sys.next_clean hn h.frames hword hs.loc fun x => by
    rw [← hs.view.life]
    exact h.clean.life x
  rcases h.represents.next hn with hr | ⟨b, hstep, hr⟩
  · exact ⟨a, ⟨hr, h.clean, h.balanced, h.budget, hframes⟩, Or.inl rfl⟩
  · have hbudget := hr.sim.view.budget hcalm
    have hpoison : .poison ∉ b.hist := by
      rw [hr.sim.view.hist]
      exact hcalm.1
    have hclean := h.clean.step hstep h.represents.inv h.balanced h.budget hbudget hpoison
    have hbalanced := h.balanced.step hstep h.represents.inv h.clean hclean hpoison
    exact ⟨b, ⟨hr, hclean, hbalanced, hbudget, hframes⟩, Or.inr hstep⟩

theorem Accounts.balance {a : Protocol.State ι Ptr} (h : Accounts initial s a) {T : Finset ι}
    (hT : ∀ t ∉ T, (s.frames t).isIdle = true) :
    s.sem.acquire.load.permits + s.sem.release.load.permits +
        ∑ t ∈ T, (s.frames t).carried + s.granted + s.guarded + s.ghost.hist.forgotten =
      initial + s.ghost.hist.given := by
  obtain ⟨S, hS, hsum⟩ := h.balanced
  rw [h.represents.sim.ledger h.represents.inv hS hT, hsum, h.represents.sim.view.hist]

/-- In every state of a calm run: nothing is poisoned, and the permits in the two words, with the
threads inside `release`, with granted waiters and with guards are those put in and not forgotten.
`T` is any set of threads outside of which no thread is in a call. -/
theorem permits_conserved (hinit : initial ≤ maxAvailable)
    (h : Runs.Steps Sys.next (fun s act => ∀ s', s.next act = some s' → s'.Calm initial)
      (Sys.init initial) s) :
    s.Unpoisoned ∧ ∀ T : Finset ι, (∀ t ∉ T, (s.frames t).isIdle = true) →
      s.sem.acquire.load.permits + s.sem.release.load.permits +
          ∑ t ∈ T, (s.frames t).carried + s.granted + s.guarded + s.ghost.hist.forgotten =
        initial + s.ghost.hist.given := by
  obtain ⟨a, ha⟩ : ∃ a, Accounts initial s a :=
    h.invariant (I := fun s => ∃ a, Accounts initial s a)
      (fun t act u ⟨a, ha⟩ hok hn => by
        obtain ⟨b, hb, -⟩ := ha.next hn (hok u hn)
        exact ⟨b, hb⟩) ⟨_, Accounts.init hinit⟩
  have hr := ha.represents
  have hclean := ha.clean
  have hframes := ha.frames
  have hs := hr.sim
  have hrel := hclean.rel
  rw [hs.words.rel] at hrel
  refine ⟨⟨mt hs.words.acq_permits.1.mpr hclean.acq, fun p hp => ?_, fun p hp => ?_,
    fun t r ret pc hf => ?_, fun u => ?_, fun t => ?_⟩, fun T hT => ?_⟩
  · rw [hp] at hrel
    exact hrel
  · rw [hp] at hrel
    exact hrel
  · cases hl : pc.locks with
    | false =>
      obtain ⟨o, ho, -, -, hro, -⟩ := hs.owner_of hr.inv hf hl
      rw [← hro]
      exact hclean.owner o ho
    | true =>
      have hrole := hclean.role t
      rw [hs.view.role, hf] at hrole
      simpa [Frame.role, hl, Protocol.Role.permits] using hrole
  · rw [← hs.view.hist]
    exact hclean.hist u
  · have ht := hframes t
    constructor <;> rintro hf <;> simp [hf, Frame.Clean] at ht
  · exact ha.balance hT

end Theorem

end

attribute [local instance] usize64

/-- One permit goes to a guard, a waiter asks for five, and a release of three is on its way. -/
def sharingSchedule : List (Act Bool) :=
  [.call false (.tryAcquire 1)] ++ Act.steps false 2 ++
    [.acquire (usize64.ptr 0) 5, .call false (.poll (usize64.ptr 0))] ++ Act.steps false 20 ++
    [.call false (.release 3)] ++ Act.steps false 2

def sharing : Sys Bool :=
  Runs.final Sys.next sharingSchedule (Sys.init 3) (by decide +kernel)

theorem permits_conserved_sharing :
    (sharing.frames false).carried = 5 ∧ sharing.guarded = 1 ∧
      sharing.sem.acquire.load.permits + sharing.sem.release.load.permits +
          ∑ t ∈ {false}, (sharing.frames t).carried + sharing.granted + sharing.guarded +
          sharing.ghost.hist.forgotten =
        3 + sharing.ghost.hist.given := by
  have hrun : Runs.exec Sys.next sharingSchedule (Sys.init 3) = some sharing :=
    Runs.exec_final _
  have hcalm : Runs.checks Sys.next (fun s => decide (s.Calm 3)) sharingSchedule
      (Sys.init 3) = true := by decide +kernel
  have hsteps := (Runs.steps_of_checks hrun hcalm).mono fun s act hok s' hn =>
    of_decide_eq_true (hok s' hn)
  exact ⟨by decide +kernel, by decide +kernel,
    (permits_conserved (by decide +kernel) hsteps).2 {false} (by decide +kernel)⟩

end WeightedSemaphore
