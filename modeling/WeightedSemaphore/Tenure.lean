import WeightedSemaphore.DeedSteps

/-!
# The accounts of the release lock

A pass of the outer loop is paid for by the exchange that took the lock, or by an exchange that
deferred to its owner. The accounts are kept for the current ownership and for the whole run.
-/

namespace WeightedSemaphore

open Function (update)
open Deed (tenure lastPass)

namespace Deed

def entries (w : List Deed) : ℕ := w.countP fun d => d = locked ∨ d = deferred

variable {d : Deed} {w : List Deed}

@[simp] theorem tenure_locked : tenure (locked :: w) = [] := rfl

theorem tenure_cons (h : d ≠ locked) : tenure (d :: w) = d :: tenure w := by
  simp [tenure, h]

@[simp] theorem lastPass_pass : lastPass (pass :: w) = [] := rfl

theorem lastPass_cons (h : d ≠ pass) : lastPass (d :: w) = d :: lastPass w := by
  simp [lastPass, h]

end Deed

def Held.mark : Held → ℕ
  | dirty => 1
  | _ => 0

variable {ι : Type}

structure Tenure (stage : ι → Stage) (h : Held) (w : List Deed) : Prop where
  unique : ∀ t u, stage t ≠ .outside → stage u ≠ .outside → t = u
  free : h = .free → ∀ t, stage t = .outside
  passes : (tenure w).count .pass + h.mark ≤ 1 + (tenure w).count .deferred
  coming : ∀ t, stage t = .coming → (tenure w).count .pass + h.mark ≤ (tenure w).count .deferred
  total : w.count .pass + h.mark ≤ Deed.entries w
  total_coming : ∀ t, stage t = .coming → w.count .pass + h.mark + 1 ≤ Deed.entries w
  refused : (lastPass w).count .refused ≤ 1
  popping : ∀ t, stage t = .popping → (lastPass w).count .refused = 0

namespace Tenure

theorem init : Tenure (fun _ : ι => .outside) .free [] := by
  constructor <;> simp [tenure, lastPass, Held.mark, Deed.entries]

variable [DecidableEq ι] {stage : ι → Stage} {h h' : Held} {w : List Deed} {t : ι} {st : Stage}
  {d : Option Deed}

/-- Where the stages lead: at most one thread is inside, and none when the lock is free. -/
theorem unique_update (ht : Tenure stage h w) (hst : st ≠ .outside → ∀ u, u ≠ t →
    stage u = .outside) (u v : ι) (hu : update stage t st u ≠ .outside)
    (hv : update stage t st v ≠ .outside) : u = v := by
  by_cases hut : u = t
  · by_cases hvt : v = t
    · rw [hut, hvt]
    · rw [hut, Function.update_self] at hu
      rw [Function.update_of_ne hvt] at hv
      exact absurd (hst hu v hvt) hv
  · rw [Function.update_of_ne hut] at hu
    by_cases hvt : v = t
    · rw [hvt, Function.update_self] at hv
      exact absurd (hst hv u hut) hu
    · rw [Function.update_of_ne hvt] at hv
      exact ht.unique u v hu hv

omit [DecidableEq ι] in
/-- While `t` is inside, nobody else is. -/
theorem others (ht : Tenure stage h w) (hst : stage t ≠ .outside) (u : ι) (hu : u ≠ t) :
    stage u = .outside := by
  by_contra hne
  exact hu (ht.unique u t hne hst)

theorem idle (ht : Tenure stage h w) (hd : ∀ e ∈ d, e ≠ .locked ∧ e ≠ .deferred ∧ e ≠ .pass ∧
      e ≠ .refused)
    (hst : st = .outside ∨ st = stage t ∨ stage t ≠ .outside ∧ st = .leaving) :
    Tenure (update stage t st) h (d.toList ++ w) := by
  have hin : st ≠ .outside → stage t ≠ .outside := by
    rcases hst with hst | hst | hst
    · exact fun hne => absurd hst hne
    · exact fun hne => hst ▸ hne
    · exact fun _ => hst.1
  have hkeep (k : Stage) (hk : k = .coming ∨ k = .popping) (u : ι)
      (hu : update stage t st u = k) : stage u = k := by
    by_cases hut : u = t
    · subst hut
      rw [Function.update_self] at hu
      rcases hst with hst | hst | ⟨-, hst⟩
      · subst hu; rcases hk with hk | hk <;> simp [hst] at hk
      · exact hst.symm.trans hu
      · subst hu; rcases hk with hk | hk <;> simp [hst] at hk
    · rwa [Function.update_of_ne hut] at hu
  have hfree : h = .free → ∀ u, update stage t st u = .outside := by
    intro hf u
    by_cases hut : u = t
    · subst hut
      rw [Function.update_self]
      by_contra hne
      exact hin hne (ht.free hf u)
    · rw [Function.update_of_ne hut]
      exact ht.free hf u
  have huniq := ht.unique_update (fun hne => ht.others (hin hne))
  cases d with
  | none =>
    exact ⟨huniq, hfree, ht.passes, fun u hu => ht.coming u (hkeep _ (Or.inl rfl) u hu), ht.total,
      fun u hu => ht.total_coming u (hkeep _ (Or.inl rfl) u hu), ht.refused,
      fun u hu => ht.popping u (hkeep _ (Or.inr rfl) u hu)⟩
  | some e =>
    obtain ⟨h₁, h₂, h₃, h₄⟩ := hd e rfl
    have hp : (tenure (e :: w)).count .pass = (tenure w).count .pass := by
      rw [Deed.tenure_cons h₁, List.count_cons_of_ne h₃]
    have hq : (tenure (e :: w)).count .deferred = (tenure w).count .deferred := by
      rw [Deed.tenure_cons h₁, List.count_cons_of_ne h₂]
    have hr : (lastPass (e :: w)).count .refused = (lastPass w).count .refused := by
      rw [Deed.lastPass_cons h₃, List.count_cons_of_ne h₄]
    have hs : (e :: w).count .pass = w.count .pass := List.count_cons_of_ne h₃
    have hE : Deed.entries (e :: w) = Deed.entries w := by simp [Deed.entries, h₁, h₂]
    change Tenure (update stage t st) h (e :: w)
    refine ⟨huniq, hfree, ?_, fun u hu => ?_, ?_, fun u hu => ?_, ?_, fun u hu => ?_⟩
    · rw [hp, hq]; exact ht.passes
    · rw [hp, hq]; exact ht.coming u (hkeep _ (Or.inl rfl) u hu)
    · rw [hs, hE]; exact ht.total
    · rw [hs, hE]; exact ht.total_coming u (hkeep _ (Or.inl rfl) u hu)
    · rw [hr]; exact ht.refused
    · rw [hr]; exact ht.popping u (hkeep _ (Or.inr rfl) u hu)

/-- A deed by which `t` comes to stand at `st`, and nobody else stands inside. -/
theorem alone (hother : ∀ u, u ≠ t → stage u = .outside) (hfree : h' ≠ .free ∨ st = .outside)
    {w' : List Deed} (hp : (tenure w').count .pass + h'.mark ≤ 1 + (tenure w').count .deferred)
    (hc : st = .coming → (tenure w').count .pass + h'.mark ≤ (tenure w').count .deferred)
    (htot : w'.count .pass + h'.mark ≤ Deed.entries w')
    (htc : st = .coming → w'.count .pass + h'.mark + 1 ≤ Deed.entries w')
    (hr : (lastPass w').count .refused ≤ 1)
    (hpop : st = .popping → (lastPass w').count .refused = 0) :
    Tenure (update stage t st) h' w' := by
  have hself (k : Stage) (hk : k ≠ .outside) (u : ι) (hu : update stage t st u = k) : st = k := by
    by_cases hut : u = t
    · rwa [hut, Function.update_self] at hu
    · rw [Function.update_of_ne hut, hother u hut] at hu
      exact absurd hu.symm hk
  have hin (u : ι) (hu : update stage t st u ≠ .outside) : u = t := by
    by_contra hut
    rw [Function.update_of_ne hut, hother u hut] at hu
    exact hu rfl
  refine ⟨fun u v hu hv => (hin u hu).trans (hin v hv).symm, fun hf u => ?_, hp,
    fun u hu => hc (hself _ (by decide) u hu), htot, fun u hu => htc (hself _ (by decide) u hu), hr,
    fun u hu => hpop (hself _ (by decide) u hu)⟩
  by_contra hu
  obtain rfl := hin u hu
  rw [Function.update_self] at hu
  exact hu (hfree.resolve_left (not_not.mpr hf))

theorem move (ht : Tenure stage h w) (hm : Stage.Moves (stage t) h d st h') :
    Tenure (update stage t st) h' (d.toList ++ w) := by
  generalize hs : stage t = st₀ at hm
  cases hm with
  | enter _ _ hd =>
    refine ht.idle (fun e he => ?_) (Or.inl rfl)
    rcases hd with rfl | rfl | rfl | rfl | ⟨u, rfl⟩ <;> cases he <;> simp
  | lock _ _ hh hh' =>
    have htot := ht.total
    have hent : Deed.entries (.locked :: w) = Deed.entries w + 1 := by simp [Deed.entries]
    subst hh hh'
    refine alone (fun u _ => ht.free rfl u) (Or.inl (by decide)) (Nat.zero_le _)
      (fun _ => le_rfl) ?_
      (fun _ => ?_) ?_ nofun
    · change (Deed.locked :: w).count .pass + 0 ≤ Deed.entries (.locked :: w)
      rw [hent, List.count_cons_of_ne (by decide)]
      omega
    · change (Deed.locked :: w).count .pass + 0 + 1 ≤ Deed.entries (.locked :: w)
      rw [hent, List.count_cons_of_ne (by decide)]
      omega
    · change (lastPass (Deed.locked :: w)).count .refused ≤ 1
      rw [Deed.lastPass_cons (by decide), List.count_cons_of_ne (by decide)]
      exact ht.refused
  | defer _ _ hh hh' =>
    subst hh'
    have hp : (tenure (.deferred :: w)).count .pass = (tenure w).count .pass := by
      rw [Deed.tenure_cons (by decide), List.count_cons_of_ne (by decide)]
    have hq : (tenure (.deferred :: w)).count .deferred = (tenure w).count .deferred + 1 := by
      rw [Deed.tenure_cons (by decide), List.count_cons_self]
    have hr : (lastPass (.deferred :: w)).count .refused = (lastPass w).count .refused := by
      rw [Deed.lastPass_cons (by decide), List.count_cons_of_ne (by decide)]
    have hc : (Deed.deferred :: w).count .pass = w.count .pass :=
      List.count_cons_of_ne (by decide)
    have hent : Deed.entries (.deferred :: w) = Deed.entries w + 1 := by simp [Deed.entries]
    have hsame : update stage t .outside = stage := by rw [← hs, Function.update_eq_self]
    have h₁ := ht.passes
    have h₂ := ht.total
    rw [hsame]
    change Tenure stage .dirty (.deferred :: w)
    refine ⟨ht.unique, nofun, ?_, fun u hu => ?_, ?_, fun u hu => ?_, ?_, fun u hu => ?_⟩
    · rw [hp, hq]
      simp only [Held.mark]
      omega
    · have := ht.coming u hu
      rw [hp, hq]
      simp only [Held.mark]
      omega
    · rw [hc, hent]
      simp only [Held.mark]
      omega
    · have := ht.total_coming u hu
      rw [hc, hent]
      simp only [Held.mark]
      omega
    · rw [hr]; exact ht.refused
    · rw [hr]; exact ht.popping u hu
  | pass _ =>
    have hne : stage t ≠ .outside := by simp [hs]
    have hp : (tenure (.pass :: w)).count .pass = (tenure w).count .pass + 1 := by
      rw [Deed.tenure_cons (by decide), List.count_cons_self]
    have hq : (tenure (.pass :: w)).count .deferred = (tenure w).count .deferred := by
      rw [Deed.tenure_cons (by decide), List.count_cons_of_ne (by decide)]
    have hent : Deed.entries (.pass :: w) = Deed.entries w := by simp [Deed.entries]
    have h₁ := ht.coming t hs
    have h₂ := ht.total_coming t hs
    change Tenure (update stage t .popping) h (.pass :: w)
    refine alone (ht.others hne) (Or.inl fun hf => hne (ht.free hf t)) ?_ nofun ?_ nofun
      (Nat.zero_le _) fun _ => rfl
    · rw [hp, hq]
      omega
    · rw [List.count_cons_self, hent]
      omega
  | work _ d st hst hd =>
    refine ht.idle (fun e he => ?_) ?_
    · obtain rfl := Option.some.inj he
      rcases hd with rfl | rfl | ⟨u, rfl⟩ | ⟨u, rfl⟩ | ⟨u, rfl⟩ <;> simp
    · cases st with
      | outside => exact Or.inl rfl
      | coming => exact absurd rfl hst
      | popping => exact Or.inr (Or.inl hs.symm)
      | leaving => exact Or.inr (Or.inr ⟨by simp [hs], rfl⟩)
  | refuse _ =>
    have hne : stage t ≠ .outside := by simp [hs]
    have hp : (tenure (.refused :: w)).count .pass = (tenure w).count .pass := by
      rw [Deed.tenure_cons (by decide), List.count_cons_of_ne (by decide)]
    have hq : (tenure (.refused :: w)).count .deferred = (tenure w).count .deferred := by
      rw [Deed.tenure_cons (by decide), List.count_cons_of_ne (by decide)]
    have hr : (lastPass (.refused :: w)).count .refused = (lastPass w).count .refused + 1 := by
      rw [Deed.lastPass_cons (by decide), List.count_cons_self]
    have hc : (Deed.refused :: w).count .pass = w.count .pass := List.count_cons_of_ne (by decide)
    have hent : Deed.entries (.refused :: w) = Deed.entries w := by simp [Deed.entries]
    change Tenure (update stage t .leaving) h (.refused :: w)
    refine alone (ht.others hne) (Or.inl fun hf => hne (ht.free hf t)) ?_ nofun ?_ nofun ?_ nofun
    · rw [hp, hq]
      exact ht.passes
    · rw [hc, hent]
      exact ht.total
    · rw [hr, ht.popping t hs]
  | leave _ d st hst hd =>
    refine ht.idle (fun e he => ?_) ?_
    · obtain rfl := Option.some.inj he
      rcases hd with rfl | rfl <;> simp
    · rcases hst with rfl | rfl
      · exact Or.inl rfl
      · exact Or.inr (Or.inl hs.symm)
  | relock _ _ hh hh' =>
    subst hh hh'
    have hidle := ht.idle (t := t) (d := some .relocked) (by simp) (Or.inl rfl)
    have h₁ := hidle.passes
    have h₂ := hidle.total
    simp only [Held.mark] at h₁ h₂
    refine alone (ht.others (by simp [hs])) (Or.inl (by decide)) ?_ (fun _ => ?_) ?_ (fun _ => ?_)
      hidle.refused nofun <;> simp only [Held.mark] <;> omega
  | unlock _ _ hh hh' =>
    subst hh hh'
    have hidle := ht.idle (t := t) (d := some .unlocked) (by simp) (Or.inl rfl)
    exact alone (ht.others (by simp [hs])) (Or.inr rfl) hidle.passes nofun hidle.total nofun
      hidle.refused nofun

end Tenure

section Runs

variable [Usize] [DecidableEq ι] {s s' : Sys ι} {w : List Deed} {initial : ℕ}

theorem tenure_of_run
    (h : Runs.Reaches (Runs.logged Sys.next Sys.deed) (Sys.init initial, []) (s, w)) :
    Tenure (fun t => (s.frames t).stage) s.held w := by
  refine h.logged_invariant (I := fun s w => Tenure (fun t => (s.frames t).stage) s.held w)
    (fun s w act s' _ ht hn => ?_) ?_
  · rcases Sys.next_performs hn with ⟨t, ⟨f, hf⟩, -, hm⟩ | ⟨hd, hf, hh⟩
    · have hstage : (fun u => (s'.frames u).stage) =
          update (fun u => (s.frames u).stage) t (s'.frames t).stage := by
        funext u
        rw [hf]
        by_cases hu : u = t
        · rw [hu, Function.update_self, Function.update_self]
        · rw [Function.update_of_ne hu, Function.update_of_ne hu]
      rw [hstage]
      exact ht.move hm
    · rw [hd, hf, hh]
      exact ht
  · have hheld : (Sys.init initial : Sys ι).held = .free := by
      rw [Sys.held_eq (v := .unlocked (Permits.new 0)) rfl]
      rfl
    rw [hheld]
    exact .init

/-- Every entry of a call into `release` is paid for by the call. -/
theorem entries_le_called
    (h : Runs.Reaches (Runs.logged Sys.next Sys.deed) (Sys.init initial, []) (s, w)) :
    Deed.entries w ≤ w.count .called := by
  have := h.amortized (φ := fun s t => (s.frames t).locks) (k := 1)
    (p := fun d => d = .locked ∨ d = .deferred) (q := (· == .called))
    (fun s act s' hn => ?_) (fun _ => rfl)
  · rwa [Nat.one_mul] at this
  · rcases Sys.next_performs hn with ⟨t, ⟨f, hf⟩, hd, -⟩ | ⟨hd, hf, -⟩
    · refine Or.inl ⟨t, fun u hu => by rw [hf, Function.update_of_ne hu], ?_⟩
      rw [Nat.one_mul]
      exact hd.locks
    · exact Or.inr ⟨hd, fun u => by rw [hf]⟩

theorem pushes_le_called
    (h : Runs.Reaches (Runs.logged Sys.next Sys.deed) (Sys.init initial, []) (s, w)) :
    (Deed.pushes w).length ≤ w.count .called := by
  have := h.amortized (φ := fun s t => (s.frames t).pushes) (k := 1)
    (p := fun d => d.pushed?.isSome)
    (q := (· == .called)) (fun s act s' hn => ?_) (fun _ => rfl)
  · rw [Deed.pushes, List.length_filterMap_eq_countP]
    rwa [Nat.one_mul] at this
  · rcases Sys.next_performs hn with ⟨t, ⟨f, hf⟩, hd, -⟩ | ⟨hd, hf, -⟩
    · refine Or.inl ⟨t, fun u hu => by rw [hf, Function.update_of_ne hu], ?_⟩
      have := hd.pushes
      rw [Deed.pushes, List.length_filterMap_eq_countP] at this
      rw [Nat.one_mul]
      exact this
    · exact Or.inr ⟨hd, fun u => by rw [hf]⟩

theorem length_le_charged
    (h : Runs.Reaches (Runs.logged Sys.next Sys.deed) (Sys.init initial, []) (s, w)) :
    w.length ≤ 11 * w.countP Deed.charged := by
  have := h.amortized (φ := fun s t => (s.frames t).rank) (k := 11) (p := fun _ => true)
    (q := Deed.charged) (fun s act s' hn => ?_) (fun _ => rfl)
  · simpa using this
  · rcases Sys.next_performs hn with ⟨t, ⟨f, hf⟩, hd, -⟩ | ⟨hd, hf, -⟩
    · refine Or.inl ⟨t, fun u hu => by rw [hf, Function.update_of_ne hu], ?_⟩
      simpa using hd.rank
    · exact Or.inr ⟨hd, fun u => by rw [hf]⟩

end Runs

end WeightedSemaphore
