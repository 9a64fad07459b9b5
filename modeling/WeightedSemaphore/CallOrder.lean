import WeightedSemaphore.QueueFree

/-!
# The order of queue-free calls

Calls take effect on the acquire word: `try_acquire` when it succeeds or reads that it will fail,
the releases when `flip` adds their permits. `order` lists the calls by their effects. The permits
of `batch` are with the lock owner and those of `dirty` in the release word; neither has taken
effect.
-/

namespace WeightedSemaphore

open Function (update update_self update_of_ne)
open Linear (earlier answer state Explains)

namespace CounterOp

variable {cap : ℕ} {op : ℕ → CounterOp} {p : Tally}

def Adds : CounterOp → Prop
  | release _ => True
  | poison => True
  | tryAcquire _ => False

def permits (cap : ℕ) : CounterOp → Tally
  | release amount => Tally.ofNat cap amount
  | poison => none
  | tryAcquire _ => some 0

theorem permits_le {o : CounterOp} {n : ℕ} (h : o.permits cap = some n) : n ≤ cap := by
  cases o with
  | release amount =>
    obtain ⟨rfl, hle⟩ := Tally.ofNat_eq_some.mp h
    exact hle
  | poison => cases h
  | tryAcquire amount =>
    obtain rfl := Option.some.inj h
    exact Nat.zero_le cap

theorem Adds.apply {o : CounterOp} (h : o.Adds) :
    o.apply cap p = (Tally.add cap p (o.permits cap), .unit) := by
  cases o with
  | release amount => rfl
  | poison => simp [CounterOp.apply, permits]
  | tryAcquire amount => exact h.elim

def pending (cap : ℕ) (op : ℕ → CounterOp) : List ℕ → Tally
  | [] => some 0
  | k :: l => Tally.add cap ((op k).permits cap) (pending cap op l)

theorem zero_pending (l : List ℕ) :
    Tally.add cap (some 0) (pending cap op l) = pending cap op l := by
  cases l with
  | nil => rfl
  | cons k l => exact Tally.zero_add_add

theorem pending_singleton (k : ℕ) : pending cap op [k] = (op k).permits cap :=
  Tally.add_zero fun _ => permits_le

theorem pending_append (l l' : List ℕ) :
    pending cap op (l ++ l') = Tally.add cap (pending cap op l) (pending cap op l') := by
  induction l with
  | nil => exact (zero_pending l').symm
  | cons k l ih =>
    simp only [List.cons_append, pending, ih, Tally.add_assoc]

theorem pending_congr {op' : ℕ → CounterOp} {l : List ℕ} (h : ∀ k ∈ l, op' k = op k) :
    pending cap op' l = pending cap op l := by
  induction l with
  | nil => rfl
  | cons k l ih =>
    simp only [pending]
    rw [h k List.mem_cons_self, ih fun j hj => h j (List.mem_cons_of_mem k hj)]

/-- Additions can be made at once. -/
theorem state_of_adds {l : List ℕ} (h : ∀ k ∈ l, (op k).Adds) (hp : ∀ n, p = some n → n ≤ cap) :
    state (CounterOp.apply cap) op p l = Tally.add cap p (pending cap op l) := by
  induction l generalizing p with
  | nil => exact (Tally.add_zero hp).symm
  | cons k l ih =>
    have hk := h k List.mem_cons_self
    have hstep : state (CounterOp.apply cap) op p (k :: l) =
        state (CounterOp.apply cap) op (Tally.add cap p ((op k).permits cap)) l := by
      simp only [state, List.foldl_cons, hk.apply]
    rw [hstep, ih fun j hj => h j (List.mem_cons_of_mem k hj), pending, Tally.add_assoc]
    intro n hn
    obtain ⟨_, _, -, -, rfl, hle⟩ := Tally.add_eq_some.mp hn
    exact hle

end CounterOp

variable {ι : Type} {cap : ℕ} {s₀ : Tally} {g : Calls ι} {order rest batch dirty : List ℕ} {t : ι}

/-- `order` explains the record but for the calls in `rest`, which have only deferred. -/
structure Ordered (cap : ℕ) (s₀ : Tally) (g : Calls ι) (order rest : List ℕ) : Prop where
  nodup : (order ++ rest).Nodup
  begun : ∀ k ∈ order ++ rest, k < g.count
  adds : ∀ k ∈ rest, (g.op k).Adds
  complete : ∀ k r, g.result k = some r →
    k ∈ order ∧ answer (CounterOp.apply cap) g.op s₀ order k = r ∨ k ∈ rest ∧ r = .unit
  direct : ∀ k, g.ended k ≠ none → g.deferredTo k = none → k ∈ order
  deferred : ∀ k o, g.deferredTo k = some o → k ∈ order ∨ k ∈ rest ∧ o = g.holder
  realTime : ∀ j k, k < g.count → g.Settles j k → j ∈ earlier order k
  begun_le : ∀ k, k < g.count → g.begun k ≤ g.time
  fresh : ∀ k, g.count ≤ k → g.ended k = none ∧ g.deferredTo k = none

namespace Ordered

theorem init (cap : ℕ) (s₀ : Tally) : Ordered cap s₀ (Calls.init : Calls ι) [] [] := by
  constructor
  case realTime => exact fun j k hk => absurd hk (Nat.not_lt_zero k)
  case begun_le => exact fun k hk => absurd hk (Nat.not_lt_zero k)
  all_goals simp [Calls.init, Calls.result]

/-- What is over has taken effect, provided that the call with the lock is not over while others
wait for it. -/
theorem settled_mem (h : Ordered cap s₀ g order rest) (hhold : rest ≠ [] → g.ended g.holder = none)
    {k τ : ℕ} (hk : g.settled k = some τ) : k ∈ order := by
  cases hd : g.deferredTo k with
  | none =>
    rw [Calls.settled_direct hd] at hk
    refine h.direct k (fun he => ?_) hd
    simp [he] at hk
  | some o =>
    rw [Calls.settled_deferred hd] at hk
    rcases h.deferred k o hd with hmem | ⟨hmem, rfl⟩
    · exact hmem
    · rw [hhold (List.ne_nil_of_mem hmem)] at hk
      cases hk

theorem tick (h : Ordered cap s₀ g order rest) : Ordered cap s₀ g.tick order rest where
  nodup := h.nodup
  begun := h.begun
  adds := h.adds
  complete := h.complete
  direct := h.direct
  deferred := h.deferred
  realTime := h.realTime
  begun_le := fun k hk => Nat.le_succ_of_le (h.begun_le k hk)
  fresh := h.fresh

theorem realTime_of_settled {g' : Calls ι} (h : Ordered cap s₀ g order rest)
    (hcount : g'.count = g.count) (hbegun : g'.begun = g.begun)
    (hsettled : ∀ j τ, g'.settled j = some τ → g.settled j = some τ ∨ τ = g.time) (j k : ℕ)
    (hk : k < g'.count) (hs : g'.Settles j k) : j ∈ earlier order k := by
  obtain ⟨τ, hτ, hlt⟩ := hs
  rw [hcount] at hk
  rw [hbegun] at hlt
  rcases hsettled j τ hτ with hτ | rfl
  · exact h.realTime j k hk ⟨τ, hτ, hlt⟩
  · have := h.begun_le k hk
    omega

theorem start [DecidableEq ι] (h : Ordered cap s₀ g order rest)
    (hhold : rest ≠ [] → g.ended g.holder = none)
    (o : CounterOp) : Ordered cap s₀ (g.start t o) order rest := by
  have hop : ∀ k, k ∈ order ++ rest → update g.op g.count o k = g.op k := fun k hk =>
    update_of_ne (Nat.ne_of_lt (h.begun k hk)) _ _
  have hnew : g.count ∉ order := fun hm =>
    absurd (h.begun g.count (List.mem_append_left _ hm)) (lt_irrefl _)
  constructor
  case nodup => exact h.nodup
  case begun => exact fun k hk => Nat.lt_succ_of_lt (h.begun k hk)
  case adds =>
    intro k hk
    change (update g.op g.count o k).Adds
    rw [hop k (List.mem_append_right _ hk)]
    exact h.adds k hk
  case complete =>
    intro k r hr
    rcases h.complete k r hr with ⟨hk, ha⟩ | hk
    · refine Or.inl ⟨hk, ?_⟩
      have hmem := fun j (hj : j ∈ order) => hop j (List.mem_append_left rest hj)
      exact (Linear.answer_congr hmem (hmem k hk)).trans ha
    · exact Or.inr hk
  case direct => exact h.direct
  case deferred => exact h.deferred
  case realTime =>
    rintro j k hk ⟨τ, hτ, hlt⟩
    by_cases hkc : k = g.count
    · subst hkc
      rw [Linear.earlier_of_not_mem hnew]
      exact h.settled_mem hhold hτ
    · refine h.realTime j k (by have : k < g.count + 1 := hk; omega) ⟨τ, hτ, ?_⟩
      have hbegun : (g.start t o).begun k = g.begun k := update_of_ne hkc _ _
      rwa [hbegun] at hlt
  case begun_le =>
    intro k hk
    change update g.begun g.count g.time k ≤ g.time
    by_cases hkc : k = g.count
    · rw [hkc, update_self]
    · rw [update_of_ne hkc]
      exact h.begun_le k (by have : k < g.count + 1 := hk; omega)
  case fresh => exact fun k hk => h.fresh k (by have : g.count + 1 ≤ k := hk; omega)

/-- A call returns that has taken effect. -/
theorem finish {ret : Ret} (h : Ordered cap s₀ g order rest) (hk : g.current t ∈ order)
    (hret : answer (CounterOp.apply cap) g.op s₀ order (g.current t) = ret) :
    Ordered cap s₀ (g.finish t ret) order rest := by
  have hended (k : ℕ) (hkc : k ≠ g.current t) : (g.finish t ret).ended k = g.ended k :=
    update_of_ne hkc _ _
  have hself : (g.finish t ret).ended (g.current t) = some (g.time, ret) := update_self ..
  constructor
  case nodup => exact h.nodup
  case begun => exact h.begun
  case adds => exact h.adds
  case complete =>
    intro k r hr
    by_cases hkc : k = g.current t
    · subst hkc
      rw [Calls.result, hself] at hr
      obtain rfl := Option.some.inj hr
      exact Or.inl ⟨hk, hret⟩
    · rw [Calls.result, hended k hkc] at hr
      exact h.complete k r hr
  case direct =>
    intro k he hd
    by_cases hkc : k = g.current t
    · rwa [hkc]
    · exact h.direct k (by rwa [← hended k hkc]) hd
  case deferred => exact h.deferred
  case realTime =>
    refine h.realTime_of_settled rfl rfl fun j τ hj => ?_
    have hcase (k : ℕ) (hk : ((g.finish t ret).ended k).map Prod.fst = some τ) :
        (g.ended k).map Prod.fst = some τ ∨ τ = g.time := by
      by_cases hkc : k = g.current t
      · rw [hkc, hself] at hk
        exact Or.inr (Option.some.inj hk).symm
      · rw [hended k hkc] at hk
        exact Or.inl hk
    cases hd : g.deferredTo j with
    | none =>
      have hd' : (g.finish t ret).deferredTo j = none := hd
      rw [Calls.settled_direct hd'] at hj
      rw [Calls.settled_direct hd]
      exact hcase j hj
    | some o =>
      have hd' : (g.finish t ret).deferredTo j = some o := hd
      rw [Calls.settled_deferred hd'] at hj
      rw [Calls.settled_deferred hd]
      exact hcase o hj
  case begun_le => exact h.begun_le
  case fresh =>
    intro k hle
    have hlt := h.begun _ (List.mem_append_left rest hk)
    have hne : k ≠ g.current t := by
      have : g.count ≤ k := hle
      omega
    exact ⟨(hended k hne).trans (h.fresh k hle).1, (h.fresh k hle).2⟩

/-- A call that defers returns before it takes effect. -/
theorem defer (h : Ordered cap s₀ g order rest) (hk : g.current t ∉ order ++ rest)
    (hlt : g.current t < g.count) (hadds : (g.op (g.current t)).Adds)
    (hended : g.ended (g.current t) = none) (hhold : g.ended g.holder = none) :
    Ordered cap s₀ ((g.defer t).finish t .unit) order (rest ++ [g.current t]) := by
  generalize hcur : g.current t = c at hk hlt hadds hended
  have hother (k : ℕ) (hkc : k ≠ c) : ((g.defer t).finish t .unit).ended k = g.ended k ∧
      ((g.defer t).finish t .unit).deferredTo k = g.deferredTo k := by
    rw [← hcur] at hkc
    exact ⟨update_of_ne hkc _ _, update_of_ne hkc _ _⟩
  have hself : ((g.defer t).finish t .unit).ended c = some (g.time, .unit) ∧
      ((g.defer t).finish t .unit).deferredTo c = some g.holder := by
    rw [← hcur]
    exact ⟨update_self .., update_self ..⟩
  have hmem : c ∈ rest ++ [c] := List.mem_append_right _ (List.mem_singleton.mpr rfl)
  constructor
  case nodup =>
    rw [← List.append_assoc, List.nodup_append]
    refine ⟨h.nodup, List.nodup_singleton c, fun j hj k hk' => ?_⟩
    rw [List.mem_singleton.mp hk']
    exact ne_of_mem_of_not_mem hj hk
  case begun =>
    intro k hk'
    rw [← List.append_assoc, List.mem_append, List.mem_singleton] at hk'
    rcases hk' with hk' | rfl
    · exact h.begun k hk'
    · exact hlt
  case adds =>
    intro k hk'
    rw [List.mem_append, List.mem_singleton] at hk'
    rcases hk' with hk' | rfl
    · exact h.adds k hk'
    · exact hadds
  case complete =>
    intro k r hr
    by_cases hkc : k = c
    · subst hkc
      rw [Calls.result, hself.1] at hr
      obtain rfl := Option.some.inj hr
      exact Or.inr ⟨hmem, rfl⟩
    · rw [Calls.result, (hother k hkc).1] at hr
      rcases h.complete k r hr with hk' | ⟨hk', hr'⟩
      · exact Or.inl hk'
      · exact Or.inr ⟨List.mem_append_left _ hk', hr'⟩
  case direct =>
    intro k he hd
    by_cases hkc : k = c
    · rw [hkc, hself.2] at hd
      cases hd
    · rw [(hother k hkc).1] at he
      rw [(hother k hkc).2] at hd
      exact h.direct k he hd
  case deferred =>
    intro k o hd
    by_cases hkc : k = c
    · subst hkc
      rw [hself.2] at hd
      exact Or.inr ⟨hmem, (Option.some.inj hd).symm⟩
    · rw [(hother k hkc).2] at hd
      rcases h.deferred k o hd with hk' | ⟨hk', ho⟩
      · exact Or.inl hk'
      · exact Or.inr ⟨List.mem_append_left _ hk', ho⟩
  case realTime =>
    refine h.realTime_of_settled rfl rfl fun j τ hj => ?_
    have hcase (k : ℕ) (hk : (((g.defer t).finish t .unit).ended k).map Prod.fst = some τ) :
        (g.ended k).map Prod.fst = some τ ∨ τ = g.time := by
      by_cases hkc : k = c
      · rw [hkc, hself.1] at hk
        exact Or.inr (Option.some.inj hk).symm
      · rw [(hother k hkc).1] at hk
        exact Or.inl hk
    by_cases hjc : j = c
    · subst hjc
      rw [Calls.settled_deferred hself.2] at hj
      rcases hcase _ hj with hj | hj
      · rw [hhold] at hj
        cases hj
      · exact Or.inr hj
    cases hd : g.deferredTo j with
    | none =>
      rw [Calls.settled_direct ((hother j hjc).2.trans hd)] at hj
      rw [Calls.settled_direct hd]
      exact hcase j hj
    | some o =>
      rw [Calls.settled_deferred ((hother j hjc).2.trans hd)] at hj
      rw [Calls.settled_deferred hd]
      exact hcase o hj
  case begun_le => exact h.begun_le
  case fresh =>
    intro k hle
    have hne : k ≠ c := by
      have : g.count ≤ k := hle
      omega
    exact ⟨(hother k hne).1.trans (h.fresh k hle).1, (hother k hne).2.trans (h.fresh k hle).2⟩

/-- A call takes the lock, for which nobody waits. -/
theorem lock (h : Ordered cap s₀ g order []) (hk : g.current t ∉ order)
    (hlt : g.current t < g.count) (hadds : (g.op (g.current t)).Adds) :
    Ordered cap s₀ (g.lock t) order [g.current t] := by
  have hnone {k : ℕ} {P : Prop} (hk' : k ∈ ([] : List ℕ) ∧ P) : False := by simp at hk'
  constructor
  case nodup =>
    rw [List.nodup_append]
    refine ⟨(List.append_nil order ▸ h.nodup), List.nodup_singleton _, fun j hj k hk' => ?_⟩
    rw [List.mem_singleton.mp hk']
    exact ne_of_mem_of_not_mem hj hk
  case begun =>
    intro k hk'
    rw [List.mem_append, List.mem_singleton] at hk'
    rcases hk' with hk' | rfl
    · exact h.begun k (List.mem_append_left _ hk')
    · exact hlt
  case adds =>
    intro k hk'
    rw [List.mem_singleton.mp hk']
    exact hadds
  case complete =>
    intro k r hr
    rcases h.complete k r hr with hk' | hk'
    · exact Or.inl hk'
    · exact (hnone hk').elim
  case direct => exact h.direct
  case deferred =>
    intro k o hd
    rcases h.deferred k o hd with hk' | hk'
    · exact Or.inl hk'
    · exact (hnone hk').elim
  case realTime => exact h.realTime
  case begun_le => exact h.begun_le
  case fresh => exact h.fresh

/-- Calls that have only deferred take effect. -/
theorem flip (h : Ordered cap s₀ g order (batch ++ dirty)) :
    Ordered cap s₀ g (order ++ batch) dirty := by
  have hassoc : order ++ batch ++ dirty = order ++ (batch ++ dirty) := List.append_assoc ..
  constructor
  case nodup => rw [hassoc]; exact h.nodup
  case begun => rw [hassoc]; exact h.begun
  case adds => exact fun k hk => h.adds k (List.mem_append_right _ hk)
  case complete =>
    intro k r hr
    rcases h.complete k r hr with ⟨hk, ha⟩ | ⟨hk, hr⟩
    · exact Or.inl ⟨List.mem_append_left _ hk, (Linear.answer_append hk).trans ha⟩
    · rcases List.mem_append.mp hk with hb | hd
      · refine Or.inl ⟨List.mem_append_right _ hb, ?_⟩
        rw [Linear.answer, (h.adds k hk).apply, hr]
      · exact Or.inr ⟨hd, hr⟩
  case direct => exact fun k he hd => List.mem_append_left _ (h.direct k he hd)
  case deferred =>
    intro k o hd
    rcases h.deferred k o hd with hk | ⟨hk, ho⟩
    · exact Or.inl (List.mem_append_left _ hk)
    · rcases List.mem_append.mp hk with hb | hd
      · exact Or.inl (List.mem_append_right _ hb)
      · exact Or.inr ⟨hd, ho⟩
  case realTime => exact fun j k hk hs => Linear.mem_earlier_append (h.realTime j k hk hs)
  case begun_le => exact h.begun_le
  case fresh => exact h.fresh

/-- A call takes effect at once. -/
theorem append {k : ℕ} (h : Ordered cap s₀ g order rest) (hk : k ∉ order ++ rest)
    (hlt : k < g.count) : Ordered cap s₀ g (order ++ [k]) rest := by
  have hkr : k ∉ rest := fun hm => hk (List.mem_append_right _ hm)
  constructor
  case nodup =>
    obtain ⟨ho, hr, hd⟩ := List.nodup_append.mp h.nodup
    rw [List.append_assoc, List.nodup_append]
    refine ⟨ho, List.nodup_cons.mpr ⟨hkr, hr⟩, fun i hi j hj => ?_⟩
    rcases List.mem_cons.mp hj with rfl | hj
    · exact ne_of_mem_of_not_mem hi fun hm => hk (List.mem_append_left _ hm)
    · exact hd i hi j hj
  case begun =>
    intro j hj
    rw [List.mem_append, List.mem_append, List.mem_singleton] at hj
    rcases hj with (hj | rfl) | hj
    · exact h.begun j (List.mem_append_left _ hj)
    · exact hlt
    · exact h.begun j (List.mem_append_right _ hj)
  case adds => exact h.adds
  case complete =>
    intro j r hr
    rcases h.complete j r hr with ⟨hj, ha⟩ | hj
    · exact Or.inl ⟨List.mem_append_left _ hj, (Linear.answer_append hj).trans ha⟩
    · exact Or.inr hj
  case direct => exact fun j he hd => List.mem_append_left _ (h.direct j he hd)
  case deferred =>
    intro j o hd
    rcases h.deferred j o hd with hj | hj
    · exact Or.inl (List.mem_append_left _ hj)
    · exact Or.inr hj
  case realTime => exact fun i j hj hs => Linear.mem_earlier_append (h.realTime i j hj hs)
  case begun_le => exact h.begun_le
  case fresh => exact h.fresh

/-- Calls that have only deferred can be put at the end. -/
theorem explains (h : Ordered cap s₀ g order rest) :
    Explains (CounterOp.apply cap) g.op s₀ (· < g.count) g.result g.Settles (order ++ rest) := by
  constructor
  case nodup => exact h.nodup
  case begun => exact h.begun
  case complete =>
    intro k r hr
    rcases h.complete k r hr with ⟨hk, ha⟩ | ⟨hk, rfl⟩
    · exact ⟨List.mem_append_left _ hk, (Linear.answer_append hk).trans ha⟩
    · refine ⟨List.mem_append_right _ hk, ?_⟩
      rw [Linear.answer, (h.adds k hk).apply]
  case realTime =>
    intro j k hk hs
    exact Linear.mem_earlier_append (h.realTime j k (h.begun k hk) hs)

end Ordered

section Finish

theorem Calls.result_finish_of_ne {k : ℕ} {ret : Ret} (hk : k ≠ g.current t) :
    (g.finish t ret).result k = g.result k :=
  congrArg (Option.map Prod.snd) (update_of_ne hk _ _)

theorem Calls.result_finish (g : Calls ι) (t : ι) (ret : Ret) :
    (g.finish t ret).result (g.current t) = some ret :=
  congrArg (Option.map Prod.snd) (update_self (g.current t) _ g.ended)

/-- What a call returned is what it was answered. -/
theorem Calls.taken_finish {ret : Ret} {l : List ℕ}
    (htaken : ∀ k ∈ l, k ≠ g.current t → answer (CounterOp.apply cap) g.op s₀ l k = .acquired →
      g.result k = some .acquired)
    (hret : answer (CounterOp.apply cap) g.op s₀ l (g.current t) = ret) (k : ℕ) (hk : k ∈ l)
    (ha : answer (CounterOp.apply cap) g.op s₀ l k = .acquired) :
    (g.finish t ret).result k = some .acquired := by
  by_cases hkc : k = g.current t
  · rw [hkc, Calls.result_finish, ← hret, ← hkc, ha]
  · rw [Calls.result_finish_of_ne hkc]
    exact htaken k hk hkc ha

end Finish

end WeightedSemaphore
