import WeightedSemaphore.QueueFreeSteps

/-!
# Queue-free calls are linearizable up to deferral

The calls can be put in an order that explains all results on a plain counter. It respects real
time, except that a release or a poison that finds the lock taken counts as over when the call with
the lock returns: until then `try_acquire` may miss it.
-/

namespace WeightedSemaphore

open Linear (earlier answer state Explains)

namespace CounterOp

variable {cap n j : ℕ} {op : ℕ → CounterOp} {p : Tally} {l : List ℕ}

def Covers (n : ℕ) (available : Tally) : Prop := ∀ m, available = some m → n ≤ m

theorem Covers.apply {o : CounterOp} (h : Covers n p) (hfail : (o.apply cap p).2 ≠ .acquired) :
    Covers n (o.apply cap p).1 := by
  intro m hm
  cases o with
  | release amount =>
    obtain ⟨k, l, hk, hl, rfl, -⟩ := Tally.add_eq_some.mp hm
    exact Nat.le_add_right_of_le (h k hk)
  | poison => cases hm
  | tryAcquire amount =>
    cases p with
    | none => cases hm
    | some k =>
      by_cases hle : amount ≤ k
      · exact absurd (by simp [CounterOp.apply, hle]) hfail
      · simp only [CounterOp.apply, if_neg hle] at hm
        exact h m hm

theorem covers_release : Covers n ((release n).apply cap p).1 := by
  intro m hm
  obtain ⟨k, l, -, hl, rfl, -⟩ := Tally.add_eq_some.mp hm
  obtain ⟨rfl, -⟩ := Tally.ofNat_eq_some.mp hl
  exact Nat.le_add_left n k

/-- What a counter answers that has the permits. -/
theorem Covers.tryAcquire (cap : ℕ) (h : Covers n p) :
    ((CounterOp.tryAcquire n).apply cap p).2 = .acquired ∨
      ((CounterOp.tryAcquire n).apply cap p).2 = .poisoned := by
  cases p with
  | none => exact Or.inr rfl
  | some m =>
    refine Or.inl ?_
    simp only [CounterOp.apply, if_pos (h m rfl)]

/-- As long as nobody acquires, permits that were released stay. -/
theorem covers_of_release (hj : j ∈ l) (hop : op j = .release n) (hnd : l.Nodup)
    (hfail : ∀ k ∈ l, answer (CounterOp.apply cap) op p l k ≠ .acquired) :
    Covers n (state (CounterOp.apply cap) op p l) := by
  induction l using List.reverseRecOn with
  | nil => cases hj
  | append_singleton l k ih =>
    obtain ⟨hl, -, hdisj⟩ := List.nodup_append.mp hnd
    have hself := hfail k (List.mem_append_right _ (List.mem_singleton_self k))
    rw [Linear.answer_append_self fun hk => hdisj k hk k (List.mem_singleton_self k) rfl] at hself
    rw [Linear.state_append]
    change Covers n ((op k).apply cap (state (CounterOp.apply cap) op p l)).1
    rcases List.mem_append.mp hj with hj | hj
    · refine (ih hj hl fun i hi ha => ?_).apply hself
      exact hfail i (List.mem_append_left _ hi) ((Linear.answer_append hi).trans ha)
    · obtain rfl := List.mem_singleton.mp hj
      rw [hop]
      exact covers_release

theorem state_none (l : List ℕ) : state (CounterOp.apply cap) op none l = none := by
  induction l with
  | nil => rfl
  | cons k l ih =>
    have hk : ((op k).apply cap none).1 = none := by cases op k <;> rfl
    simp only [state, List.foldl_cons, hk] at ih ⊢
    exact ih

/-- Nothing brings a poisoned counter back. -/
theorem state_of_poison (hj : j ∈ l) (hop : op j = .poison) :
    state (CounterOp.apply cap) op p l = none := by
  induction l generalizing p with
  | nil => cases hj
  | cons k l ih =>
    rcases List.mem_cons.mp hj with rfl | hj
    · simp only [state, List.foldl_cons, hop, CounterOp.apply]
      exact state_none l
    · exact ih hj

end CounterOp

namespace Calls

variable {ι : Type}

/-- The results of the calls are those of a plain counter, in an order that respects `precedes`: if
nobody else acquires, permits are there for `try_acquire` after their release, and there are none
after a poison. -/
structure Linearizable (initial cap : ℕ) (g : Calls ι) (precedes : ℕ → ℕ → Prop) : Prop where
  explained : ∃ order, Explains (CounterOp.apply cap) g.op (Tally.ofNat cap initial) (· < g.count)
    g.result precedes order
  released : ∀ j k n r, g.op j = .release n → g.op k = .tryAcquire n → precedes j k →
    (∀ i, i ≠ k → g.result i ≠ some .acquired) → g.result k = some r →
      r = .acquired ∨ r = .poisoned
  poisoned : ∀ j k n r, g.op j = .poison → g.op k = .tryAcquire n → precedes j k →
    g.result k = some r → r = .poisoned

end Calls

section

variable [Usize] {ι : Type} [DecidableEq ι] {s : Sys ι} {g : Calls ι} {initial : ℕ}

theorem QueueFreeRun.queueFree (h : QueueFreeRun initial s g) :
    Reachable initial s ∧ ∃ order batch dirty,
      QueueFree (Tally.ofNat maxAvailable initial) s g order batch dirty := by
  suffices ∀ p : Sys ι × Calls ι, Runs.Steps Calls.next (fun _ act => act.QueueFree = true)
      (Sys.init initial, Calls.init) p → Reachable initial p.1 ∧ ∃ order batch dirty,
        QueueFree (Tally.ofNat maxAvailable initial) p.1 p.2 order batch dirty from this _ h
  intro p hp
  induction hp with
  | refl => exact ⟨.refl, [], [], [], .init initial⟩
  | tail act _ hfree hn ih =>
    obtain ⟨hreach, order, batch, dirty, hinv⟩ := ih
    obtain ⟨s', hs', rfl⟩ := Option.map_eq_some_iff.mp hn
    obtain ⟨a, hr⟩ := hreach.represents
    exact ⟨hreach.tail act trivial hs', hinv.next hr hfree hs'⟩

namespace QueueFree

omit [DecidableEq ι]

variable {s₀ : Tally} {order batch dirty : List ℕ} {j k n : ℕ} {r : Ret}

/-- A call that returned anything but `()` is answered on what took effect before it. -/
theorem answered (h : QueueFree s₀ s g order batch dirty) (hk : g.result k = some r)
    (hop : g.op k = .tryAcquire n) : k ∈ order ∧
      ((CounterOp.tryAcquire n).apply maxAvailable
        (state (CounterOp.apply maxAvailable) g.op s₀ (earlier order k))).2 = r := by
  rcases h.ordered.complete k r hk with ⟨hmem, ha⟩ | ⟨hmem, -⟩
  · rw [answer, hop] at ha
    exact ⟨hmem, ha⟩
  · have hadds := h.ordered.adds k hmem
    rw [hop] at hadds
    exact hadds.elim

theorem before (h : QueueFree s₀ s g order batch dirty) (hk : k ∈ order) (hs : g.Settles j k) :
    j ∈ earlier order k :=
  h.ordered.realTime j k (h.ordered.begun k (List.mem_append_left _ hk)) hs

theorem released (h : QueueFree s₀ s g order batch dirty) (hj : g.op j = .release n)
    (hk : g.op k = .tryAcquire n) (hs : g.Settles j k)
    (halone : ∀ i, i ≠ k → g.result i ≠ some .acquired) (hr : g.result k = some r) :
    r = .acquired ∨ r = .poisoned := by
  obtain ⟨hmem, rfl⟩ := h.answered hr hk
  have hnd : (earlier order k).Nodup :=
    Linear.nodup_earlier (List.nodup_append.mp h.ordered.nodup).1
  refine (CounterOp.covers_of_release (h.before hmem hs) hj hnd fun i hi ha => ?_).tryAcquire _
  rw [Linear.answer_earlier hi] at ha
  exact halone i (Linear.ne_of_mem_earlier hi) (h.taken i (Linear.mem_of_mem_earlier hi) ha)

theorem poisoned (h : QueueFree s₀ s g order batch dirty) (hj : g.op j = .poison)
    (hk : g.op k = .tryAcquire n) (hs : g.Settles j k) (hr : g.result k = some r) :
    r = .poisoned := by
  obtain ⟨hmem, rfl⟩ := h.answered hr hk
  rw [CounterOp.state_of_poison (h.before hmem hs) hj]
  rfl

end QueueFree

/-- A schedule of calls that need no queue, from a state that such a run has led to. -/
theorem QueueFreeRun.exec {schedule : List (Act ι)} {v w : Sys ι × Calls ι}
    (h : QueueFreeRun initial v.1 v.2) (hexec : Runs.exec Calls.next schedule v = some w)
    (hfree : schedule.all Act.QueueFree = true) : QueueFreeRun initial w.1 w.2 :=
  h.trans (Runs.steps_of_exec hexec fun act hact _ => List.all_eq_true.mp hfree act hact)

end

attribute [local instance] usize64

/-- Call 1 finds that call 0 has the lock and returns; call 2 of the same thread then misses the
permits of call 1. -/
def missedSchedule : List (Act Bool) :=
  [.call false (.release 0)] ++ Act.steps false 5 ++ [.call true (.release 5)] ++
    Act.steps true 2 ++ [.call true (.tryAcquire 5)] ++ Act.steps true 2

def missed : Sys Bool × Calls Bool :=
  Runs.final Calls.next missedSchedule (Sys.init 0, Calls.init) (by decide +kernel)

def foundSchedule : List (Act Bool) :=
  Act.steps false 11 ++ [.call true (.tryAcquire 5)] ++ Act.steps true 2

def found : Sys Bool × Calls Bool := Runs.final Calls.next foundSchedule missed (by decide +kernel)

theorem missed_run : QueueFreeRun 0 missed.1 missed.2 :=
  .exec (v := (Sys.init 0, Calls.init)) .refl (Runs.exec_final _) (by decide +kernel)

theorem found_run : QueueFreeRun 0 found.1 found.2 :=
  missed_run.exec (Runs.exec_final _) (by decide +kernel)

/-- Call 1 poisons while call 0 has the lock, and returns; call 2 of the same thread then gets
permits. -/
def evadedSchedule : List (Act Bool) :=
  [.call false (.release 0)] ++ Act.steps false 5 ++ [.call true .poison] ++ Act.steps true 2 ++
    [.call true (.tryAcquire 2)] ++ Act.steps true 2

def evaded : Sys Bool × Calls Bool :=
  Runs.final Calls.next evadedSchedule (Sys.init 3, Calls.init) (by decide +kernel)

theorem evaded_run : QueueFreeRun 3 evaded.1 evaded.2 :=
  .exec (v := (Sys.init 3, Calls.init)) .refl (Runs.exec_final _) (by decide +kernel)

end WeightedSemaphore
