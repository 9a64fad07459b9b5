import WeightedSemaphore.Guard
import WeightedSemaphore.GuardFrame
import WeightedSemaphore.Lib.Shares
import WeightedSemaphore.Poison

/-!
# The algebra of guards

Splitting and merging move permits between guards, `forget` and drops take them out, and nothing is
lost on the way. The semaphore itself sees the drops only.
-/

namespace WeightedSemaphore

open Protocol (Inv HistOk)

section

variable [Usize] {ι α : Type} [DecidableEq ι] [DecidableEq α]

section Guards

variable {guard other : SemaphoreGuard} {permits : ℕ}

theorem saturatingAdd_of_le {a b : ℕ} (h : a + b ≤ usizeMax) : saturatingAdd a b = a + b :=
  Nat.min_eq_left h

theorem saturatingAdd_of_gt {a b : ℕ} (h : usizeMax < a + b) : saturatingAdd a b = usizeMax :=
  Nat.min_eq_right h.le

namespace SemaphoreGuard

omit [Usize] in
theorem split_ok (h : permits ≤ guard.amount) :
    guard.split permits =
      ({ guard with amount := guard.amount - permits }, .ok ⟨permits, guard.panicking⟩) :=
  if_pos h

omit [Usize] in
theorem split_underflow (h : guard.amount < permits) :
    guard.split permits = (guard, .error .underflow) :=
  if_neg (Nat.not_le.mpr h)

end SemaphoreGuard

namespace SemaphoreGuardArc

variable {guard other : SemaphoreGuardArc α} {sem : α}

omit [Usize] [DecidableEq α] in
theorem split_ok (h : permits ≤ guard.amount) :
    guard.split permits = ({ guard with amount := guard.amount - permits },
      .ok ⟨guard.semaphore, permits, guard.panicking⟩) :=
  if_pos h

omit [Usize] [DecidableEq α] in
theorem split_underflow (h : guard.amount < permits) :
    guard.split permits = (guard, .error .underflow) :=
  if_neg (Nat.not_le.mpr h)

theorem extend_same (h : guard.semaphore = some sem) (h' : other.semaphore = some sem) :
    guard.extend other =
      some { guard with amount := saturatingAdd guard.amount other.amount } := by
  simp [extend, h, h', forget]

def toGuard (guard : SemaphoreGuardArc α) : SemaphoreGuard := ⟨guard.amount, guard.panicking⟩

end SemaphoreGuardArc

end Guards

namespace Shared

def live (s : Shared ι α) : ℕ := s.sys.guarded + Shares.total SemaphoreGuardArc.amount s.arcs

/-- Guards of the second kind hold a reference to the semaphore, and nothing has happened yet. -/
structure Fresh (s : Shared ι α) : Prop where
  held : ∀ guard ∈ s.arcs, guard.semaphore = some s.arc
  panicked : s.panicked = false
  acquired : s.acquired = 0
  released : s.released = 0
  forgotten : s.forgotten = 0

/-- No guard is dropped by a panic, and no merged amount exceeds `usize::MAX`. -/
def Orderly (s : Shared ι α) : Act ι → Prop
  | .sys (.call t (.dropGuard _)) => s.sys.panicking t = false
  | .dropArc t _ => s.sys.panicking t = false
  | .extend i j => ∀ guard other, s.sys.guards[i]? = some guard → s.sys.guards[j]? = some other →
      guard.amount + other.amount ≤ usizeMax
  | .extendArc i j => ∀ guard other, s.arcs[i]? = some guard → s.arcs[j]? = some other →
      guard.amount + other.amount ≤ usizeMax
  | _ => True

structure Held (s : Shared ι α) : Prop where
  arcs : ∀ guard ∈ s.arcs, guard.semaphore = some s.arc
  panicked : s.panicked = false

variable {s s' : Shared ι α}

omit [DecidableEq ι] [DecidableEq α] in
theorem Held.init (arc : α) (initial : ℕ) : Held (init arc initial : Shared ι α) :=
  ⟨by simp [Shared.init], rfl⟩

/-- A merge of guards of the second kind, for which the assertion of `extend` holds. -/
theorem Held.next_extendArc (h : Held s) {i j : ℕ} (hn : s.next (.extendArc i j) = some s') :
    ∃ guard other, s.arcs[i]? = some guard ∧ s.arcs[j]? = some other ∧ i ≠ j ∧
      s' = { s with
        arcs := (s.arcs.set i
          { guard with amount := saturatingAdd guard.amount other.amount }).eraseIdx j } := by
  simp only [Shared.next] at hn
  cases hi : s.arcs[i]? with
  | none => simp [hi] at hn
  | some guard =>
    cases hj : s.arcs[j]? with
    | none => simp [hi, hj] at hn
    | some other =>
      have hsem := h.arcs guard (List.mem_of_getElem? hi)
      have hsem' := h.arcs other (List.mem_of_getElem? hj)
      simp only [hi, hj, SemaphoreGuardArc.extend_same hsem hsem'] at hn
      split_ifs at hn with hij
      exact ⟨guard, other, rfl, rfl, hij, (Option.some.inj hn).symm⟩

/-- Every guard of the second kind that there is holds its reference. -/
theorem Held.next (h : Held s) {act : Act ι} (hn : s.next act = some s') : Held s' := by
  cases act with
  | sys act =>
    obtain ⟨sys, -, rfl⟩ := Option.map_eq_some_iff.mp hn
    exact ⟨h.arcs, h.panicked⟩
  | split i permits =>
    obtain ⟨guard, -, rfl⟩ := Option.map_eq_some_iff.mp hn
    split <;> exact ⟨h.arcs, h.panicked⟩
  | extend i j =>
    simp only [Shared.next] at hn
    split at hn
    · split_ifs at hn
      obtain rfl := Option.some.inj hn
      exact ⟨h.arcs, h.panicked⟩
    · cases hn
  | intoArc t i =>
    obtain ⟨guard, -, rfl⟩ := Option.map_eq_some_iff.mp hn
    refine ⟨fun g hg => ?_, h.panicked⟩
    rcases List.mem_cons.mp hg with rfl | hg
    · rfl
    · exact h.arcs g hg
  | splitArc i permits =>
    obtain ⟨guard, hi, rfl⟩ := Option.map_eq_some_iff.mp hn
    have hsem := h.arcs guard (List.mem_of_getElem? hi)
    by_cases hp : permits ≤ guard.amount
    · rw [SemaphoreGuardArc.split_ok hp]
      refine ⟨fun g hg => ?_, h.panicked⟩
      rcases List.mem_cons.mp hg with rfl | hg
      · exact hsem
      · rcases List.mem_or_eq_of_mem_set hg with hg | rfl
        · exact h.arcs g hg
        · exact hsem
    · rw [SemaphoreGuardArc.split_underflow (Nat.lt_of_not_le hp)]
      refine ⟨fun g hg => ?_, h.panicked⟩
      rcases List.mem_or_eq_of_mem_set hg with hg | rfl
      · exact h.arcs g hg
      · exact hsem
  | extendArc i j =>
    obtain ⟨guard, other, hi, -, -, rfl⟩ := h.next_extendArc hn
    refine ⟨fun g hg => ?_, h.panicked⟩
    rcases List.mem_or_eq_of_mem_set (List.mem_of_mem_eraseIdx hg) with hg | rfl
    · exact h.arcs g hg
    · exact h.arcs guard (List.mem_of_getElem? hi)
  | forgetArc i =>
    obtain ⟨guard, -, rfl⟩ := Option.map_eq_some_iff.mp hn
    exact ⟨fun g hg => h.arcs g (List.mem_of_mem_eraseIdx hg), h.panicked⟩
  | dropArc t i =>
    simp only [Shared.next] at hn
    split_ifs at hn
    obtain ⟨guard, -, rfl⟩ := Option.map_eq_some_iff.mp hn
    split <;> exact ⟨fun g hg => h.arcs g (List.mem_of_mem_eraseIdx hg), h.panicked⟩

omit [DecidableEq α] in
theorem sys_ledger {sys : Sys ι} {act : WeightedSemaphore.Act ι} (hn : s.sys.next act = some sys)
    (hok : s.Orderly (.sys act)) :
    sys.guarded + dropped s.sys act + forgot s.sys act =
      s.sys.guarded + (sys.guarded - s.sys.guarded) := by
  have same (h : sys.guards = s.sys.guards) : sys.guarded = s.sys.guarded := by
    rw [Sys.guarded, Sys.guarded, h]
  cases act with
  | call t c =>
    simp only [Sys.next] at hn
    split_ifs at hn with hidle
    by_cases hc : ∃ i, c = .dropGuard i
    · obtain ⟨i, rfl⟩ := hc
      simp only [Sys.call] at hn
      cases hg : s.sys.guards[i]? with
      | none => simp [hg] at hn
      | some guard =>
        have herase := Shares.eraseIdx SemaphoreGuard.amount hg
        have hp : s.sys.panicking t = false := hok
        simp only [hg, hp, Bool.and_false, Bool.false_eq_true, if_false] at hn
        obtain rfl := Option.some.inj hn
        have hd : dropped s.sys (.call t (.dropGuard i)) = guard.amount := by
          simp [dropped, hg, hp, SemaphoreGuard.drop, releasedBy]
        rw [hd]
        change Shares.total _ (s.sys.guards.eraseIdx i) + _ + 0 = Shares.total _ s.sys.guards +
          (Shares.total _ (s.sys.guards.eraseIdx i) - Shares.total _ s.sys.guards)
        omega
    · have hne (i : ℕ) : c ≠ .dropGuard i := fun h => hc ⟨i, h⟩
      have hd : dropped s.sys (.call t c) = 0 := by
        cases c with
        | dropGuard i => exact absurd rfl (hne i)
        | _ => rfl
      have := same (Sys.call_guards hn hne)
      rw [hd]
      change sys.guarded + 0 + 0 = _
      omega
  | step t spurious =>
    obtain ⟨gs, hgs⟩ := Sys.step_guards hn
    have : sys.guarded = Shares.total SemaphoreGuard.amount gs + s.sys.guarded := by
      change Shares.total _ sys.guards = _
      rw [hgs, Shares.total_append]
      rfl
    change sys.guarded + 0 + 0 = _
    omega
  | acquire a amount =>
    simp only [Sys.next, Sys.acquire] at hn
    split_ifs at hn
    obtain rfl := Option.some.inj hn
    have := same rfl
    change Sys.guarded _ + 0 + 0 = _
    omega
  | forget i =>
    simp only [Sys.next, Sys.forget] at hn
    cases hg : s.sys.guards[i]? with
    | none => simp [hg] at hn
    | some guard =>
      have herase := Shares.eraseIdx SemaphoreGuard.amount hg
      rw [hg] at hn
      obtain rfl := Option.some.inj hn
      have hd : forgot s.sys (.forget i) = guard.amount := by
        simp [forgot, hg, SemaphoreGuard.forget]
      rw [hd]
      change Shares.total _ (s.sys.guards.eraseIdx i) + 0 + _ = Shares.total _ s.sys.guards +
        (Shares.total _ (s.sys.guards.eraseIdx i) - Shares.total _ s.sys.guards)
      omega
  | setPanicking t p =>
    simp only [Sys.next] at hn
    split_ifs at hn
    obtain rfl := Option.some.inj hn
    have := same rfl
    change Sys.guarded _ + 0 + 0 = _
    omega

theorem ledger_step (h : Held s) {act : Act ι} (hok : s.Orderly act) (hn : s.next act = some s') :
    s'.live + s'.released + s'.forgotten + s.acquired =
      s.live + s.released + s.forgotten + s'.acquired := by
  cases act with
  | sys act =>
    obtain ⟨sys, hsys, rfl⟩ := Option.map_eq_some_iff.mp hn
    have := sys_ledger hsys hok
    simp only [live]
    omega
  | split i permits =>
    obtain ⟨guard, hi, rfl⟩ := Option.map_eq_some_iff.mp hn
    by_cases hp : permits ≤ guard.amount
    · rw [SemaphoreGuard.split_ok hp]
      have := Shares.split SemaphoreGuard.amount hi
        (y := { guard with amount := guard.amount - permits }) (z := ⟨permits, guard.panicking⟩)
        (Nat.sub_add_cancel hp)
      simp only [live, Sys.guarded] at this ⊢
      change Shares.total _ _ + _ + _ + _ + _ = Shares.total _ _ + _ + _ + _ + _
      omega
    · rw [SemaphoreGuard.split_underflow (Nat.lt_of_not_le hp)]
      have := Shares.set SemaphoreGuard.amount hi guard
      simp only [live, Sys.guarded]
      change Shares.total _ _ + _ + _ + _ + _ = Shares.total _ _ + _ + _ + _ + _
      omega
  | extend i j =>
    simp only [Shared.next] at hn
    cases hi : s.sys.guards[i]? with
    | none => simp [hi] at hn
    | some guard =>
      cases hj : s.sys.guards[j]? with
      | none => simp [hi, hj] at hn
      | some other =>
        simp only [hi, hj] at hn
        split_ifs at hn with hij
        obtain rfl := Option.some.inj hn
        have := Shares.merge SemaphoreGuard.amount hi hj hij (guard.extend other)
        have hsum : (guard.extend other).amount = guard.amount + other.amount :=
          saturatingAdd_of_le (hok guard other hi hj)
        simp only [live, Sys.guarded]
        change Shares.total _ _ + _ + _ + _ + _ = Shares.total _ _ + _ + _ + _ + _
        omega
  | intoArc t i =>
    obtain ⟨guard, hi, rfl⟩ := Option.map_eq_some_iff.mp hn
    have := Shares.eraseIdx SemaphoreGuard.amount hi
    simp only [live, Sys.guarded, Shares.total_cons]
    change Shares.total _ _ + (guard.amount + _) + _ + _ + _ = Shares.total _ _ + _ + _ + _ + _
    omega
  | splitArc i permits =>
    obtain ⟨guard, hi, rfl⟩ := Option.map_eq_some_iff.mp hn
    by_cases hp : permits ≤ guard.amount
    · rw [SemaphoreGuardArc.split_ok hp]
      have := Shares.split SemaphoreGuardArc.amount hi
        (y := { guard with amount := guard.amount - permits })
        (z := ⟨guard.semaphore, permits, guard.panicking⟩) (Nat.sub_add_cancel hp)
      simp only [live] at this ⊢
      omega
    · rw [SemaphoreGuardArc.split_underflow (Nat.lt_of_not_le hp)]
      have := Shares.set SemaphoreGuardArc.amount hi guard
      simp only [live]
      omega
  | extendArc i j =>
    obtain ⟨guard, other, hi, hj, hij, rfl⟩ := h.next_extendArc hn
    have := Shares.merge SemaphoreGuardArc.amount hi hj hij
      { guard with amount := saturatingAdd guard.amount other.amount }
    rw [saturatingAdd_of_le (hok guard other hi hj)] at this ⊢
    simp only [live] at this ⊢
    omega
  | forgetArc i =>
    obtain ⟨guard, hi, rfl⟩ := Option.map_eq_some_iff.mp hn
    have := Shares.eraseIdx SemaphoreGuardArc.amount hi
    simp only [live, SemaphoreGuardArc.forget]
    change s.sys.guarded + _ + _ + _ + _ = _
    omega
  | dropArc t i =>
    simp only [Shared.next] at hn
    split_ifs at hn
    obtain ⟨guard, hi, rfl⟩ := Option.map_eq_some_iff.mp hn
    have := Shares.eraseIdx SemaphoreGuardArc.amount hi
    have hp : s.sys.panicking t = false := hok
    have hd : guard.drop (s.sys.panicking t) = some (.release guard.amount) := by
      simp [SemaphoreGuardArc.drop, h.arcs guard (List.mem_of_getElem? hi), hp]
    simp only [hd, live, releasedBy]
    change s.sys.guarded + _ + _ + _ + _ = _
    omega

def view (s : Shared ι α) : Sys ι := s.sys.more (s.arcs.map SemaphoreGuardArc.toGuard)

omit [DecidableEq ι] [DecidableEq α] in
theorem view_guarded (s : Shared ι α) : s.view.guarded = s.live := by
  change Shares.total _ (_ ++ _) = _
  rw [Shares.total_append, live, Sys.guarded, Shares.total, Shares.total, Shares.total,
    List.map_map]
  rfl

end Shared

omit [DecidableEq ι] in
/-- Neither the protocol's invariants nor the representation of its state depend on who holds the
permits. -/
theorem Represents.reguard {s : Sys ι} {a : Protocol.State ι Ptr} (h : Represents s a)
    (gs : List SemaphoreGuard) :
    Represents { s with guards := gs } { a with held := (gs.map SemaphoreGuard.amount).sum } where
  sim :=
    { view := { h.sim.view with held := rfl }
      words := { h.sim.words with }
      pass := { h.sim.pass with }
      loc := { h.sim.loc with } }
  inv := { h.inv with blocked := ⟨h.inv.blocked.unlock, h.inv.blocked.unlocked⟩ }
  hist := { h.hist with }

omit [DecidableEq ι] in
theorem Accounts.reguard {s : Sys ι} {a : Protocol.State ι Ptr} {initial : ℕ}
    (h : Accounts initial s a) {gs : List SemaphoreGuard}
    (hgs : ({ s with guards := gs } : Sys ι).guarded = s.guarded) :
    Accounts initial { s with guards := gs } a := by
  have hheld : (gs.map SemaphoreGuard.amount).sum = a.held := by
    rw [h.represents.sim.view.held]
    exact hgs
  have hr := h.represents.reguard gs
  rw [hheld] at hr
  exact ⟨hr, h.clean, h.balanced, h.budget, h.frames⟩

namespace Shared

variable {s s' : Shared ι α}

omit [DecidableEq ι] [DecidableEq α] in
theorem view_init (arc : α) (initial : ℕ) : (init arc initial : Shared ι α).view = .init initial :=
  rfl

omit [DecidableEq ι] [DecidableEq α] in
/-- Where a guard of the second kind is in the view. -/
theorem view_arcs {i : ℕ} {guard : SemaphoreGuardArc α} (h : s.arcs[i]? = some guard) :
    s.view.guards[s.sys.guards.length + i]? = some guard.toGuard ∧
      s.view.guards.eraseIdx (s.sys.guards.length + i) =
        s.sys.guards ++ (s.arcs.eraseIdx i).map SemaphoreGuardArc.toGuard := by
  constructor
  · rw [view, Sys.more, List.getElem?_append_right (Nat.le_add_right _ _), Nat.add_sub_cancel_left,
      List.getElem?_map, h]
    rfl
  · rw [view, Sys.more, List.eraseIdx_append_of_length_le (Nat.le_add_right _ _),
      Nat.add_sub_cancel_left, List.eraseIdx_map]

/-- The view either takes a step of the semaphore, or its guards change hands. -/
theorem view_next (h : Held s) {act : Act ι} (hn : s.next act = some s') :
    (∃ act', s.view.next act' = some s'.view) ∨ (∃ gs, s'.view = { s.view with guards := gs }) ∧
      s'.released = s.released ∧ s'.forgotten = s.forgotten ∧ s'.acquired = s.acquired := by
  cases act with
  | sys act =>
    obtain ⟨sys, hsys, rfl⟩ := Option.map_eq_some_iff.mp hn
    exact Or.inl ⟨act, Sys.next_more hsys⟩
  | split i permits =>
    obtain ⟨guard, -, rfl⟩ := Option.map_eq_some_iff.mp hn
    split <;> exact Or.inr ⟨⟨_, rfl⟩, rfl, rfl, rfl⟩
  | extend i j =>
    simp only [Shared.next] at hn
    split at hn
    · split_ifs at hn
      obtain rfl := Option.some.inj hn
      exact Or.inr ⟨⟨_, rfl⟩, rfl, rfl, rfl⟩
    · cases hn
  | intoArc t i =>
    obtain ⟨guard, -, rfl⟩ := Option.map_eq_some_iff.mp hn
    exact Or.inr ⟨⟨_, rfl⟩, rfl, rfl, rfl⟩
  | splitArc i permits =>
    obtain ⟨guard, -, rfl⟩ := Option.map_eq_some_iff.mp hn
    split <;> exact Or.inr ⟨⟨_, rfl⟩, rfl, rfl, rfl⟩
  | extendArc i j =>
    obtain ⟨guard, other, -, -, -, rfl⟩ := h.next_extendArc hn
    exact Or.inr ⟨⟨_, rfl⟩, rfl, rfl, rfl⟩
  | forgetArc i =>
    obtain ⟨guard, hi, rfl⟩ := Option.map_eq_some_iff.mp hn
    obtain ⟨hget, herase⟩ := view_arcs hi
    refine Or.inl ⟨.forget (s.sys.guards.length + i), ?_⟩
    simp only [Sys.next, Sys.forget, hget, herase]
    rfl
  | dropArc t i =>
    simp only [Shared.next] at hn
    split_ifs at hn with hidle
    obtain ⟨guard, hi, rfl⟩ := Option.map_eq_some_iff.mp hn
    obtain ⟨hget, herase⟩ := view_arcs hi
    refine Or.inl ⟨.call t (.dropGuard (s.sys.guards.length + i)), ?_⟩
    have hidle' : (s.view.frames t).isIdle = true := hidle
    have hsem := h.arcs guard (List.mem_of_getElem? hi)
    simp only [Sys.next, hidle', if_true, Sys.call, hget, herase, SemaphoreGuardArc.drop, hsem]
    cases hp : !guard.panicking && s.sys.panicking t
    · have hp' : (!guard.toGuard.panicking && s.view.panicking t) = false := hp
      simp only [hp', Bool.false_eq_true, if_false]
      rfl
    · have hp' : (!guard.toGuard.panicking && s.view.panicking t) = true := hp
      simp only [hp', if_true]
      rfl

def Reachable (arc : α) (initial : ℕ) (s : Shared ι α) : Prop :=
  Runs.Reaches next (init arc initial) s

theorem represents_next (h : Held s) {a : Protocol.State ι Ptr} (hr : Represents s.view a)
    {act : Act ι} (hn : s.next act = some s') : ∃ b, Represents s'.view b := by
  rcases view_next h hn with ⟨act', hv⟩ | ⟨⟨gs, hv⟩, -⟩
  · rcases hr.next hv with hr | ⟨b, -, hr⟩
    · exact ⟨a, hr⟩
    · exact ⟨b, hr⟩
  · rw [hv]
    exact ⟨_, hr.reguard gs⟩

theorem Reachable.represents {arc : α} {initial : ℕ} (h : Reachable arc initial s) :
    Held s ∧ ∃ a, Represents s.view a := by
  refine Runs.Steps.invariant (I := fun s => Held s ∧ ∃ a, Represents s.view a) ?_
    ⟨.init arc initial, _, by rw [view_init]; exact Represents.init initial⟩ h
  rintro s act s' ⟨hh, a, hr⟩ - hn
  exact ⟨hh.next hn, represents_next hh hr hn⟩

/-- Poison in the semaphore stays, whatever is done with guards. -/
theorem Reachable.poisoned_run {arc : α} {initial : ℕ} (h : Reachable arc initial s)
    (hp : s.sys.Poisoned) (hrun : Runs.Reaches next s s') : s'.sys.Poisoned := by
  obtain ⟨hh, a, hr⟩ := h.represents
  have hboth : (Held s' ∧ ∃ a, Represents s'.view a) ∧ s'.view.Poisoned := by
    refine hrun.invariant (I := fun u => (Held u ∧ ∃ a, Represents u.view a) ∧ u.view.Poisoned)
      ?_ ⟨⟨hh, a, hr⟩, hp⟩
    rintro u act u' ⟨⟨hu, b, hb⟩, hpu⟩ - hn
    refine ⟨⟨hu.next hn, represents_next hu hb hn⟩, ?_⟩
    rcases view_next hu hn with ⟨act', hv⟩ | ⟨⟨gs, hv⟩, -⟩
    · exact hpu.next hb hv
    · rw [hv]
      exact hpu
  exact hboth.2

/-- Permits are given back, and given back once: those in the words of the semaphore, on their way
through `release`, with granted waiters and with guards are those put in and not forgotten. -/
theorem given_back {arc : α} {initial : ℕ} (hinit : initial ≤ maxAvailable)
    (h : Runs.Steps next (fun s act => s.Orderly act ∧
      ∀ s', s.next act = some s' → s'.view.Calm initial) (init arc initial) s) {T : Finset ι}
    (hT : ∀ t ∉ T, (s.sys.frames t).isIdle = true) :
    s.sys.sem.acquire.load.permits + s.sys.sem.release.load.permits +
        ∑ t ∈ T, (s.sys.frames t).carried + s.sys.granted + s.live + s.sys.ghost.hist.forgotten =
      initial + s.sys.ghost.hist.given := by
  obtain ⟨-, a, ha⟩ : Held s ∧ ∃ a, Accounts initial s.view a := by
    refine h.invariant (I := fun s => Held s ∧ ∃ a, Accounts initial s.view a) ?_
      ⟨.init arc initial, _, by rw [view_init]; exact Accounts.init hinit⟩
    rintro s act s' ⟨hh, a, ha⟩ ⟨hok, hcalm⟩ hn
    refine ⟨hh.next hn, ?_⟩
    rcases view_next hh hn with ⟨act', hv⟩ | ⟨⟨gs, hv⟩, hr, hf, hacq⟩
    · obtain ⟨b, hb, -⟩ := ha.next hv (hcalm s' hn)
      exact ⟨b, hb⟩
    · have hledger := ledger_step hh hok hn
      have hsum : s'.view.guarded = s.view.guarded := by
        rw [view_guarded, view_guarded]
        omega
      rw [hv] at hsum ⊢
      exact ⟨a, ha.reguard hsum⟩
  have := ha.balance (T := T) hT
  rw [view_guarded] at this
  exact this

def Act.Reshapes : Act ι → Prop
  | .split _ _ => True
  | .extend _ _ => True
  | .splitArc _ _ => True
  | .extendArc _ _ => True
  | _ => False

omit [Usize] [DecidableEq ι] [DecidableEq α] in
theorem set_same {β : Type} {l : List β} {i : ℕ} {x : β} (h : l[i]? = some x) : l.set i x = l := by
  obtain ⟨hi, rfl⟩ := List.getElem?_eq_some_iff.mp h
  exact List.set_getElem_self hi

theorem untouched (h : Held s) {act : Act ι} (hact : act.Reshapes) (hn : s.next act = some s') :
    s' = { s with sys.guards := s'.sys.guards, arcs := s'.arcs } := by
  cases act with
  | split i permits =>
    obtain ⟨guard, -, rfl⟩ := Option.map_eq_some_iff.mp hn
    split <;> rfl
  | extend i j =>
    simp only [Shared.next] at hn
    split at hn
    · split_ifs at hn
      obtain rfl := Option.some.inj hn
      rfl
    · cases hn
  | splitArc i permits =>
    obtain ⟨guard, -, rfl⟩ := Option.map_eq_some_iff.mp hn
    split <;> rfl
  | extendArc i j =>
    obtain ⟨guard, other, -, -, -, rfl⟩ := h.next_extendArc hn
    rfl
  | sys act => exact hact.elim
  | intoArc t i => exact hact.elim
  | forgetArc i => exact hact.elim
  | dropArc t i => exact hact.elim

def Poisons (s s' : Shared ι α) (t : ι) : Prop :=
  ∃ guards, s'.sys = ({ s.sys with guards } : Sys ι).startRelease t Permits.poison

omit [DecidableEq α] in
theorem Poisons.poisoned {t : ι} (h : Poisons s s' t) : s'.sys.Poisoned := by
  obtain ⟨guards, h⟩ := h
  refine Or.inr (Or.inr ⟨t, Permits.poison, .caller, .lockLoad, ?_, Permits.intoUsize_poison⟩)
  rw [h]
  exact Function.update_self ..

structure Conserves (s₀ s : Shared ι α) : Prop where
  ledger : s.live + s.released + s.forgotten = s₀.live + s.acquired
  panicked : s.panicked = false
  underflow : ∀ i permits guard, s.sys.guards[i]? = some guard →
    ((guard.split permits).2 = .error .underflow ↔ guard.amount < permits) ∧
      (guard.amount < permits → s.next (.split i permits) = some s)
  underflow_arc : ∀ i permits guard, s.arcs[i]? = some guard →
    ((guard.split permits).2 = .error .underflow ↔ guard.amount < permits) ∧
      (guard.amount < permits → s.next (.splitArc i permits) = some s)
  untouched : ∀ act s', act.Reshapes → s.next act = some s' →
    s' = { s with sys.guards := s'.sys.guards, arcs := s'.arcs }
  all_dropped : s.live = 0 → s.forgotten = 0 → s.released = s₀.live + s.acquired
  given_back : ∀ arc initial, initial ≤ maxAvailable →
    Runs.Steps next (fun s act => s.Orderly act ∧
      ∀ s', s.next act = some s' → s'.view.Calm initial) (init arc initial) s →
    ∀ T : Finset ι, (∀ t ∉ T, (s.sys.frames t).isIdle = true) →
      s.sys.sem.acquire.load.permits + s.sys.sem.release.load.permits +
          ∑ t ∈ T, (s.sys.frames t).carried + s.sys.granted + s.live +
          s.sys.ghost.hist.forgotten =
        initial + s.sys.ghost.hist.given
  saturates : ∀ guard other : SemaphoreGuard, usizeMax < guard.amount + other.amount →
    (guard.extend other).amount = usizeMax
  saturates_arc : ∀ guard other : SemaphoreGuardArc α, usizeMax < guard.amount + other.amount →
    ∀ merged, guard.extend other = some merged → merged.amount = usizeMax
  overflow : ∀ t i guard s', s.sys.guards[i]? = some guard → guard.amount = usizeMax →
    s.sys.panicking t = false → s.next (.sys (.call t (.dropGuard i))) = some s' → s.Poisons s' t
  overflow_arc : ∀ t i guard s', s.arcs[i]? = some guard → guard.amount = usizeMax →
    s.sys.panicking t = false → s.next (.dropArc t i) = some s' → s.Poisons s' t
  poisoned : ∀ arc initial t s' u, Reachable arc initial s → s.Poisons s' t →
    (∃ act, s.next act = some s') → Runs.Reaches next s' u → u.sys.Poisoned

/-- Splits, merges, drops and `forget` conserve permits. -/
theorem guards_conserve {s₀ : Shared ι α} (hfresh : s₀.Fresh)
    (h : Runs.Steps next Orderly s₀ s) : Conserves s₀ s := by
  obtain ⟨hheld, hledger⟩ : Held s ∧ s.live + s.released + s.forgotten = s₀.live + s.acquired := by
    refine h.invariant (I := fun s => Held s ∧
      s.live + s.released + s.forgotten = s₀.live + s.acquired) ?_ ⟨⟨hfresh.held, hfresh.panicked⟩,
        by rw [hfresh.released, hfresh.forgotten, hfresh.acquired]⟩
    rintro s act s' ⟨hh, hl⟩ hok hn
    have := ledger_step hh hok hn
    exact ⟨hh.next hn, by omega⟩
  constructor
  case ledger => exact hledger
  case panicked => exact hheld.panicked
  case underflow =>
    intro i permits guard hi
    by_cases hp : permits ≤ guard.amount
    · rw [SemaphoreGuard.split_ok hp]
      exact ⟨⟨by simp, fun hlt => absurd hp (Nat.not_le.mpr hlt)⟩,
        fun hlt => absurd hp (Nat.not_le.mpr hlt)⟩
    · have hlt := Nat.lt_of_not_le hp
      rw [SemaphoreGuard.split_underflow hlt]
      refine ⟨⟨fun _ => hlt, fun _ => rfl⟩, fun _ => ?_⟩
      simp only [Shared.next, hi, Option.map_some, SemaphoreGuard.split_underflow hlt, set_same hi]
  case underflow_arc =>
    intro i permits guard hi
    by_cases hp : permits ≤ guard.amount
    · rw [SemaphoreGuardArc.split_ok hp]
      exact ⟨⟨by simp, fun hlt => absurd hp (Nat.not_le.mpr hlt)⟩,
        fun hlt => absurd hp (Nat.not_le.mpr hlt)⟩
    · have hlt := Nat.lt_of_not_le hp
      rw [SemaphoreGuardArc.split_underflow hlt]
      refine ⟨⟨fun _ => hlt, fun _ => rfl⟩, fun _ => ?_⟩
      simp only [Shared.next, hi, Option.map_some, SemaphoreGuardArc.split_underflow hlt,
        set_same hi]
  case untouched => exact fun act s' hact hn => Shared.untouched hheld hact hn
  case all_dropped =>
    intro hl hf
    omega
  case given_back => exact fun arc initial hinit hrun T hT => Shared.given_back hinit hrun hT
  case saturates => exact fun guard other hgt => saturatingAdd_of_gt hgt
  case saturates_arc =>
    intro guard other hgt merged hm
    simp only [SemaphoreGuardArc.extend] at hm
    split at hm
    · split_ifs at hm
      obtain rfl := Option.some.inj hm
      exact saturatingAdd_of_gt hgt
    · cases hm
  case overflow =>
    intro t i guard s' hi hmax hp hn
    obtain ⟨sys, hsys, rfl⟩ := Option.map_eq_some_iff.mp hn
    simp only [Sys.next] at hsys
    split_ifs at hsys
    simp only [Sys.call, hi, hp, Bool.and_false, Bool.false_eq_true, if_false, hmax] at hsys
    obtain rfl := Option.some.inj hsys
    exact ⟨_, rfl⟩
  case overflow_arc =>
    intro t i guard s' hi hmax hp hn
    simp only [Shared.next] at hn
    split_ifs at hn
    have hd : guard.drop (s.sys.panicking t) = some (.release usizeMax) := by
      simp [SemaphoreGuardArc.drop, hheld.arcs guard (List.mem_of_getElem? hi), hp, hmax]
    simp only [hi, Option.map_some, hd] at hn
    obtain rfl := Option.some.inj hn
    exact ⟨_, rfl⟩
  case poisoned =>
    rintro arc initial t s' u hreach hpois ⟨act, hn⟩ hrun
    exact Reachable.poisoned_run (.tail act hreach trivial hn) hpois.poisoned hrun

end Shared

end

attribute [local instance] usize64

/-- Eight permits are divided among guards of both kinds; one is forgotten, and seven are dropped.
-/
def divided : Shared Bool Unit :=
  Runs.final Shared.next
    ([.sys (.call true (.tryAcquire 8)), .sys (.step true false), .sys (.step true false),
      .split 0 3, .split 1 2, .extend 1 2, .intoArc false 0, .splitArc 0 9, .splitArc 0 1,
      .forgetArc 0, .intoArc false 0, .extendArc 0 1, .dropArc true 0] : List (Shared.Act Bool))
    (.init () 8) (by decide +kernel)

def Shared.small (s : Shared Bool Unit) : Bool :=
  !s.sys.panicking false && !s.sys.panicking true && s.sys.guards.all (·.amount ≤ 8) &&
    s.arcs.all (·.amount ≤ 8)

theorem Shared.small.orderly {s : Shared Bool Unit} (h : s.small = true) (act : Shared.Act Bool) :
    s.Orderly act := by
  simp only [small, Bool.and_eq_true, Bool.not_eq_true', List.all_eq_true, decide_eq_true_eq] at h
  obtain ⟨⟨⟨hf, ht⟩, hguards⟩, harcs⟩ := h
  have hp (t : Bool) : s.sys.panicking t = false := by cases t <;> assumption
  have hmax : 8 + 8 ≤ usizeMax := by decide
  cases act with
  | sys act =>
    cases act with
    | call t c =>
      cases c with
      | dropGuard i => exact hp t
      | _ => trivial
    | _ => trivial
  | dropArc t i => exact hp t
  | extend i j =>
    intro guard other hi hj
    have := hguards guard (List.mem_of_getElem? hi)
    have := hguards other (List.mem_of_getElem? hj)
    omega
  | extendArc i j =>
    intro guard other hi hj
    have := harcs guard (List.mem_of_getElem? hi)
    have := harcs other (List.mem_of_getElem? hj)
    omega
  | _ => trivial

theorem guards_conserve_divided :
    Shared.Conserves (.init () 8) divided ∧ divided.forgotten = 1 ∧ divided.released = 7 := by
  have hrun : Runs.Steps Shared.next Shared.Orderly (.init () 8) divided := by
    have hsmall : Runs.Steps Shared.next (fun s act => ∀ s', s.next act = some s' →
        s'.small = true) (.init () 8) divided :=
      Runs.steps_of_checks (Runs.exec_final _) (by decide +kernel)
    exact (hsmall.before (by decide)).mono fun s act hs => Shared.small.orderly hs act
  exact ⟨Shared.guards_conserve ⟨by simp [Shared.init], rfl, rfl, rfl, rfl⟩ hrun,
    by decide +kernel, by decide +kernel⟩

end WeightedSemaphore
