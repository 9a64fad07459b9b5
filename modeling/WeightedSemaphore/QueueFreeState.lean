import WeightedSemaphore.CallOrder

/-!
# What queue-free calls keep

Without futures the acquire word always has permits and the queue is empty. The invariant relates
the two words to the order of the calls, and every frame to the call that its thread is in.
-/

namespace WeightedSemaphore

open Function (update update_self update_of_ne)
open Linear (earlier answer state)

variable [Usize] {ι : Type}

namespace Frame

def pastLock : Frame ι → Bool
  | release _ _ pc => !pc.locks
  | _ => false

end Frame

section Trace

variable (s₀ : Tally) (g : Calls ι) (order batch dirty : List ℕ) (t : ι)

def TryAcquirePc.Traces (amount : ℕ) : TryAcquirePc → Prop
  | load => g.current t ∉ order
  | loop v =>
    (v.Fits amount → g.current t ∉ order) ∧
      (¬ v.Fits amount → g.current t ∈ order ∧
        (v.Poisoned →
          answer (CounterOp.apply maxAvailable) g.op s₀ order (g.current t) = .poisoned) ∧
        (¬ v.Poisoned →
          answer (CounterOp.apply maxAvailable) g.op s₀ order (g.current t) = .wouldBlock))

/-- A lock owner that has not flipped in this pass has the permits of `batch`. -/
def Holding (r : Permits) : Prop :=
  g.holder = g.current t ∧ r.intoUsize = CounterOp.pending maxAvailable g.op batch ∧
    g.current t ∈ order ++ batch

def Flipped (r : Permits) : Prop :=
  g.holder = g.current t ∧ r.intoUsize = some 0 ∧ batch = [] ∧ g.current t ∈ order

def ReleasePc.Traces (r : Permits) : ReleasePc ι → Prop
  | lockLoad =>
    r.intoUsize = (g.op (g.current t)).permits maxAvailable ∧
      g.current t ∉ order ++ (batch ++ dirty)
  | lock _ =>
    r.intoUsize = (g.op (g.current t)).permits maxAvailable ∧
      g.current t ∉ order ++ (batch ++ dirty)
  | swapCancel => Holding g order batch t r
  | flipLoad nextCancel => nextCancel = null ∧ Holding g order batch t r
  | flip nextCancel current =>
    nextCancel = null ∧ (∃ q, current = .available q) ∧ Holding g order batch t r
  | cancel nextCancel => nextCancel = null ∧ Flipped g order batch t r
  | tryPop => Flipped g order batch t r
  | unlockLoad => Flipped g order batch t r
  | unlock _ => Flipped g order batch t r
  | _ => False

def Frame.Traces : Frame ι → Prop
  | idle _ => True
  | tryAcquire amount pc =>
    g.op (g.current t) = .tryAcquire amount ∧ g.current t ∉ batch ++ dirty ∧
      pc.Traces s₀ g order t amount
  | release r ret pc =>
    ret = .caller ∧ (g.op (g.current t)).Adds ∧ pc.Traces g order batch dirty t r
  | _ => False

def ReleaseState.Traces : ReleaseState → Prop
  | unlocked _ => batch = [] ∧ dirty = []
  | locked => dirty = []
  | lockedDirty p => p.intoUsize = CounterOp.pending maxAvailable g.op dirty

end Trace

structure QueueFree (s₀ : Tally) (s : Sys ι) (g : Calls ι) (order batch dirty : List ℕ) : Prop where
  ordered : Ordered maxAvailable s₀ g order (batch ++ dirty)
  taken : ∀ k ∈ order, answer (CounterOp.apply maxAvailable) g.op s₀ order k = .acquired →
    g.result k = some .acquired
  capped : ∀ n, s₀ = some n → n ≤ maxAvailable
  counter : ∃ q, s.sem.acquire.load = .available q ∧
    q.intoUsize = state (CounterOp.apply maxAvailable) g.op s₀ order
  front : s.sem.front = null
  cancels : s.sem.nextCancel.load = null
  word : s.sem.release.load.Traces g batch dirty
  frames : ∀ t, (s.frames t).Traces s₀ g order batch dirty t
  active : ∀ t, (s.frames t).isIdle = false →
    g.current t < g.count ∧ g.ended (g.current t) = none
  distinct : ∀ t u, (s.frames t).isIdle = false → (s.frames u).isIdle = false →
    g.current t = g.current u → t = u

section Owner

variable {s : Sys ι} {a : Protocol.State ι Ptr} {t u : ι}

theorem Frame.pastLock_eq_true {f : Frame ι} (h : f.pastLock = true) :
    ∃ r ret pc, f = .release r ret pc ∧ pc.locks = false := by
  cases f with
  | release r ret pc => exact ⟨r, ret, pc, rfl, by simpa [pastLock] using h⟩
  | _ => cases h

theorem Represents.pastLock_unique (hr : Represents s a) (ht : (s.frames t).pastLock = true)
    (hu : (s.frames u).pastLock = true) : t = u := by
  obtain ⟨r, ret, pc, hf, hl⟩ := Frame.pastLock_eq_true ht
  obtain ⟨r', ret', pc', hf', hl'⟩ := Frame.pastLock_eq_true hu
  obtain ⟨o, ho, rfl, -⟩ := hr.sim.owner_of hr.inv hf hl
  obtain ⟨o', ho', rfl, -⟩ := hr.sim.owner_of hr.inv hf' hl'
  rw [Option.some.inj (ho.symm.trans ho')]

/-- The lock is free just when no thread is past it. -/
theorem Represents.unlocked_iff (hr : Represents s a) :
    (∃ p, s.sem.release.load = .unlocked p) ↔ ∀ u, (s.frames u).pastLock = false := by
  have hrel := hr.sim.words.rel
  constructor
  · rintro ⟨p, hp⟩ u
    by_contra hu
    obtain ⟨r, ret, pc, hf, hl⟩ := Frame.pastLock_eq_true (by simpa using hu)
    obtain ⟨o, ho, -⟩ := hr.sim.owner_of hr.inv hf hl
    rw [hr.inv.lock.owner_none.mpr ⟨p.intoUsize, by rw [hrel, hp]; rfl⟩] at ho
    cases ho
  · intro hfree
    have ho : a.owner = none := by
      by_contra hne
      obtain ⟨o, ho⟩ := Option.ne_none_iff_exists'.mp hne
      obtain ⟨r, ret, pc, hf, hl, -⟩ := hr.sim.owner_role ho
      have := hfree o.thread
      rw [hf, Frame.pastLock, hl] at this
      cases this
    obtain ⟨p, hp⟩ := hr.inv.lock.owner_none.mp ho
    rw [hrel] at hp
    cases hw : s.sem.release.load with
    | unlocked q => exact ⟨q, rfl⟩
    | locked => rw [hw] at hp; cases hp
    | lockedDirty q => rw [hw] at hp; cases hp

/-- While the acquire word has permits, the free lock has none. -/
theorem Represents.unlocked_zero (hr : Represents s a) {p q : Permits}
    (hacq : s.sem.acquire.load = .available q) (hrel : s.sem.release.load = .unlocked p) :
    p.intoUsize = some 0 := by
  refine hr.inv.available.unlocked _ _ (hr.sim.words.acq_available hacq) ?_
  rw [hr.sim.words.rel, hrel]
  rfl

end Owner

section Canon

variable {g : Calls ι} {batch dirty : List ℕ}

@[simp] theorem ReleaseState.traces_canon (v : ReleaseState) :
    (Packable.canon v).Traces g batch dirty ↔ v.Traces g batch dirty := by
  cases v with
  | unlocked p => rfl
  | locked => rfl
  | lockedDirty p =>
    change p.canon.intoUsize = _ ↔ p.intoUsize = _
    rw [Permits.intoUsize_canon]

end Canon

section Step

variable {s₀ : Tally} {g g' : Calls ι} {order batch dirty batch' dirty' l : List ℕ} {s s' : Sys ι}
  {a : Protocol.State ι Ptr} {t u : ι} {f : Frame ι} {r : Permits} {ret : Cont}

/-- Whoever is neither idle nor past the lock has no permits with the lock owner. -/
theorem Frame.Traces.not_mem (h : f.Traces s₀ g order batch dirty u) (hbusy : f.isIdle = false)
    (hfree : f.pastLock = false) : g.current u ∉ batch ++ dirty := by
  cases f with
  | idle ret => cases hbusy
  | tryAcquire amount pc => exact h.2.1
  | release r ret pc =>
    obtain ⟨-, -, hpc⟩ := h
    cases pc with
    | lockLoad => exact fun hm => hpc.2 (List.mem_append_right _ hm)
    | lock current => exact fun hm => hpc.2 (List.mem_append_right _ hm)
    | _ => cases hfree
  | _ => exact h.elim

/-- The frame of a thread that does not step. -/
theorem Frame.Traces.other (h : f.Traces s₀ g order batch dirty u)
    (hlt : ∀ k ∈ order ++ (batch ++ dirty), k < g.count)
    (hu : f.isIdle = false → g.current u < g.count) (hcur : g'.current u = g.current u)
    (hop : ∀ k < g.count, g'.op k = g.op k)
    (hl : f.isIdle = false → f.pastLock = false → g.current u ∉ l)
    (hrest : f.isIdle = false → f.pastLock = false → g.current u ∉ batch' ++ dirty')
    (hhold : f.pastLock = true → g'.holder = g.holder ∧ batch' = batch) :
    f.Traces s₀ g' (order ++ l) batch' dirty' u := by
  have horder : ∀ k ∈ order, g'.op k = g.op k := fun k hk =>
    hop k (hlt k (List.mem_append_left _ hk))
  have holding {r : Permits} (hf : f.pastLock = true) (h : Holding g order batch u r) :
      Holding g' (order ++ l) batch' u r := by
    obtain ⟨hholder, hbatch⟩ := hhold hf
    obtain ⟨h₁, h₂, h₃⟩ := h
    refine ⟨by rw [hholder, hcur, h₁], ?_, ?_⟩
    · rw [hbatch, h₂]
      refine (CounterOp.pending_congr fun k hk => hop k (hlt k ?_)).symm
      exact List.mem_append_right _ (List.mem_append_left _ hk)
    · rw [hbatch, hcur]
      rcases List.mem_append.mp h₃ with hm | hm
      · exact List.mem_append_left _ (List.mem_append_left _ hm)
      · exact List.mem_append_right _ hm
  have flipped {r : Permits} (hf : f.pastLock = true) (h : Flipped g order batch u r) :
      Flipped g' (order ++ l) batch' u r := by
    obtain ⟨hholder, hbatch⟩ := hhold hf
    obtain ⟨h₁, h₂, h₃, h₄⟩ := h
    exact ⟨by rw [hholder, hcur, h₁], h₂, hbatch.trans h₃,
      hcur ▸ List.mem_append_left _ h₄⟩
  cases f with
  | idle ret => trivial
  | tryAcquire amount pc =>
    obtain ⟨h₁, -, hpc⟩ := h
    have hc := hop _ (hu rfl)
    refine ⟨by rw [hcur, hc, h₁], by rw [hcur]; exact hrest rfl rfl, ?_⟩
    have hnot (hm : g.current u ∉ order) : g'.current u ∉ order ++ l := by
      rw [hcur]
      exact fun hm' => (List.mem_append.mp hm').elim hm (hl rfl rfl)
    cases pc with
    | load => exact hnot hpc
    | loop v =>
      refine ⟨fun hv => hnot (hpc.1 hv), fun hv => ?_⟩
      obtain ⟨hm, hpois, hblock⟩ := hpc.2 hv
      have hans : answer (CounterOp.apply maxAvailable) g'.op s₀ (order ++ l) (g'.current u) =
          answer (CounterOp.apply maxAvailable) g.op s₀ order (g.current u) := by
        rw [hcur, Linear.answer_append hm, Linear.answer_congr horder hc]
      rw [hans, hcur]
      exact ⟨List.mem_append_left _ hm, hpois, hblock⟩
  | release r ret pc =>
    obtain ⟨hret, hadds, hpc⟩ := h
    have hc := hop _ (hu rfl)
    refine ⟨hret, by rw [hcur, hc]; exact hadds, ?_⟩
    have locks (hf : pc.locks = true) (h : r.intoUsize = (g.op (g.current u)).permits maxAvailable ∧
        g.current u ∉ order ++ (batch ++ dirty)) :
        r.intoUsize = (g'.op (g'.current u)).permits maxAvailable ∧
          g'.current u ∉ order ++ l ++ (batch' ++ dirty') := by
      have hfree : (Frame.release r ret pc : Frame ι).pastLock = false := by simp [pastLock, hf]
      rw [hcur, hc]
      refine ⟨h.1, fun hm => ?_⟩
      rcases List.mem_append.mp hm with hm | hm
      · rcases List.mem_append.mp hm with hm | hm
        · exact h.2 (List.mem_append_left _ hm)
        · exact hl rfl hfree hm
      · exact hrest rfl hfree hm
    cases pc with
    | lockLoad => exact locks rfl hpc
    | lock current => exact locks rfl hpc
    | swapCancel => exact holding rfl hpc
    | flipLoad nextCancel => exact ⟨hpc.1, holding rfl hpc.2⟩
    | flip nextCancel current => exact ⟨hpc.1, hpc.2.1, holding rfl hpc.2.2⟩
    | cancel nextCancel => exact ⟨hpc.1, flipped rfl hpc.2⟩
    | tryPop => exact flipped rfl hpc
    | unlockLoad => exact flipped rfl hpc
    | unlock current => exact flipped rfl hpc
    | _ => exact hpc.elim
  | _ => exact h.elim

variable [DecidableEq ι]

/-- A step of thread `t`. -/
theorem QueueFree.step (h : QueueFree s₀ s g order batch dirty)
    (hbusy : (s.frames t).isIdle = false) (hframes : s'.frames = update s.frames t f)
    (hcur : g'.current = g.current) (hop : g'.op = g.op) (hcount : g'.count = g.count)
    (hended : ∀ k, k ≠ g.current t → g'.ended k = g.ended k)
    (hord : Ordered maxAvailable s₀ g' (order ++ l) (batch' ++ dirty'))
    (htaken : ∀ k ∈ order ++ l, answer (CounterOp.apply maxAvailable) g.op s₀ (order ++ l) k =
      .acquired → g'.result k = some .acquired)
    (hcounter : ∃ q, s'.sem.acquire.load = .available q ∧
      q.intoUsize = state (CounterOp.apply maxAvailable) g.op s₀ (order ++ l))
    (hfront : s'.sem.front = null) (hcancels : s'.sem.nextCancel.load = null)
    (hword : s'.sem.release.load.Traces g batch' dirty')
    (hf : f.Traces s₀ g' (order ++ l) batch' dirty' t)
    (hact : f.isIdle = false → g'.ended (g.current t) = none)
    (hl : ∀ k ∈ l, k = g.current t ∨ k ∈ batch)
    (hrest : ∀ k ∈ batch' ++ dirty', k = g.current t ∨ k ∈ batch ++ dirty)
    (hhold : ∀ u, u ≠ t → (s.frames u).pastLock = true → g'.holder = g.holder ∧ batch' = batch) :
    QueueFree s₀ s' g' (order ++ l) batch' dirty' := by
  have hne {u : ι} (hu : u ≠ t) (hidle : (s.frames u).isIdle = false) :
      g.current u ≠ g.current t := fun he => hu (h.distinct u t hidle hbusy he)
  -- an idle thread stays idle, and `t` was not idle
  have hidle {u : ι} (hu : (s'.frames u).isIdle = false) : (s.frames u).isIdle = false := by
    by_cases hut : u = t
    · rwa [hut]
    · rwa [hframes, update_of_ne hut] at hu
  constructor
  case ordered => exact hord
  case taken =>
    rw [hop]
    exact htaken
  case capped => exact h.capped
  case counter =>
    rw [hop]
    exact hcounter
  case front => exact hfront
  case cancels => exact hcancels
  case word =>
    cases hw : s'.sem.release.load with
    | unlocked p => rwa [hw] at hword
    | locked => rwa [hw] at hword
    | lockedDirty p =>
      rw [hw] at hword
      simp only [ReleaseState.Traces] at hword ⊢
      rw [hop]
      exact hword
  case frames =>
    intro u
    by_cases hut : u = t
    · subst hut
      rw [hframes, update_self]
      exact hf
    · rw [hframes, update_of_ne hut]
      have hu := h.frames u
      refine hu.other h.ordered.begun (fun hb => (h.active u hb).1) (by rw [hcur])
        (fun k _ => by rw [hop]) (fun hb hfree hm => ?_) (fun hb hfree hm => ?_) (hhold u hut)
      · rcases hl _ hm with he | hm
        · exact hne hut hb he
        · exact hu.not_mem hb hfree (List.mem_append_left _ hm)
      · rcases hrest _ hm with he | hm
        · exact hne hut hb he
        · exact hu.not_mem hb hfree hm
  case active =>
    intro u hu
    rw [hcur, hcount]
    refine ⟨(h.active u (hidle hu)).1, ?_⟩
    by_cases hut : u = t
    · subst hut
      rw [hframes, update_self] at hu
      exact hact hu
    · rw [hended _ (hne hut (hidle hu))]
      exact (h.active u (hidle hu)).2
  case distinct =>
    intro u v hu hv
    rw [hcur]
    exact h.distinct u v (hidle hu) (hidle hv)

/-- A step that nothing but the frame shows. -/
theorem QueueFree.still (h : QueueFree s₀ s g order batch dirty)
    (hbusy : (s.frames t).isIdle = false) (hframes : s'.frames = update s.frames t f)
    (hacq : s'.sem.acquire = s.sem.acquire) (hrel : s'.sem.release = s.sem.release)
    (hfront : s'.sem.front = null) (hcancels : s'.sem.nextCancel.load = null)
    (hf : f.Traces s₀ g order batch dirty t) : QueueFree s₀ s' g order batch dirty := by
  have happend : order ++ [] = order := List.append_nil order
  rw [← happend] at hf ⊢
  refine h.step hbusy hframes rfl rfl rfl (fun _ _ => rfl) ?_ ?_ ?_ hfront hcancels ?_ hf
    (fun _ => (h.active t hbusy).2) (by simp) (fun _ => Or.inr) fun _ _ _ => ⟨rfl, rfl⟩
  · rw [happend]
    exact h.ordered
  · rw [happend]
    exact h.taken
  · rw [happend, hacq]
    exact h.counter
  · rw [hrel]
    exact h.word

theorem QueueFree.finish {ret : Ret} (h : QueueFree s₀ s g order batch dirty)
    (hbusy : (s.frames t).isIdle = false) (hframes : s'.frames = update s.frames t (.idle ret))
    (hacq : s'.sem.acquire = s.sem.acquire) (hfront : s'.sem.front = null)
    (hcancels : s'.sem.nextCancel.load = null) (hword : s'.sem.release.load.Traces g batch dirty)
    (hk : g.current t ∈ order)
    (hret : answer (CounterOp.apply maxAvailable) g.op s₀ order (g.current t) = ret) :
    QueueFree s₀ s' (g.finish t ret) order batch dirty := by
  have happend : order ++ [] = order := List.append_nil order
  rw [← happend]
  refine h.step (f := .idle ret) hbusy hframes rfl rfl rfl (fun k hk => update_of_ne hk _ _) ?_ ?_
    ?_ hfront hcancels hword trivial (by simp [Frame.isIdle]) (by simp) (fun _ => Or.inr)
    fun _ _ _ => ⟨rfl, rfl⟩
  · rw [happend]
    exact h.ordered.finish hk hret
  · rw [happend]
    exact Calls.taken_finish (fun k hk _ => h.taken k hk) hret
  · rw [happend, hacq]
    exact h.counter

end Step

end WeightedSemaphore
