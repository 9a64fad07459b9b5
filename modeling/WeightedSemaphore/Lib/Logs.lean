import WeightedSemaphore.Lib.Runs
import WeightedSemaphore.Lib.Sums

/-!
# Runs that keep a log

`logged next emit` runs a system beside a log, newest entry first, of what its actions did.
`Steps.amortized` is the potential method over such a log: every action moves the potential of one
of many parties, and whatever an action costs is paid for by that party's potential or by a gain of
the action itself. `Infinite` is a run without end; one whose log is bounded falls silent.
-/

namespace Runs

variable {σ α β ι : Type*}

def logged (next : σ → α → Option σ) (emit : σ → α → σ → Option β) (p : σ × List β) (a : α) :
    Option (σ × List β) :=
  (next p.1 a).map fun s => (s, (emit p.1 a s).toList ++ p.2)

variable {next : σ → α → Option σ} {emit : σ → α → σ → Option β} {s s₀ s' : σ} {w w₀ w' : List β}
  {a : α}

theorem logged_eq_some : logged next emit (s, w) a = some (s', w') ↔
    next s a = some s' ∧ w' = (emit s a s').toList ++ w := by
  simp only [logged, Option.map_eq_some_iff, Prod.mk.injEq]
  constructor
  · rintro ⟨_, hn, rfl, rfl⟩
    exact ⟨hn, rfl⟩
  · rintro ⟨hn, rfl⟩
    exact ⟨s', hn, rfl, rfl⟩

namespace Steps

theorem unlogged (h : Reaches (logged next emit) (s₀, w₀) (s, w)) : Reaches next s₀ s := by
  suffices ∀ p, Reaches (logged next emit) (s₀, w₀) p → Reaches next s₀ p.1 from this _ h
  intro p hp
  induction hp with
  | refl => exact .refl
  | tail a _ _ hn ih => exact .tail a ih trivial (logged_eq_some.mp hn).1

theorem exists_log (h : Reaches next s₀ s) (emit : σ → α → σ → Option β) (w₀ : List β) :
    ∃ w, Reaches (logged next emit) (s₀, w₀) (s, w) := by
  induction h with
  | refl => exact ⟨w₀, .refl⟩
  | tail a _ _ hn ih =>
    obtain ⟨w, hw⟩ := ih
    exact ⟨_, .tail a hw trivial (logged_eq_some.mpr ⟨hn, rfl⟩)⟩

/-- A property of state and log, preserved by every action from a reachable state. -/
theorem logged_invariant {I : σ → List β → Prop} (h : Reaches (logged next emit) (s₀, w₀) (s, w))
    (hstep : ∀ s w a s', Reaches next s₀ s → I s w → next s a = some s' →
      I s' ((emit s a s').toList ++ w))
    (h₀ : I s₀ w₀) : I s w := by
  refine Steps.invariant_reached (I := fun p => I p.1 p.2) (fun p a q hp hI _ hn => ?_) h₀ h
  obtain ⟨hn, hw⟩ := logged_eq_some.mp hn
  rw [hw]
  exact hstep _ _ _ _ hp.unlogged hI hn

variable [DecidableEq ι] {φ : σ → ι → ℕ} {p q : β → Bool} {k : ℕ}

/-- Every entry in `p` is paid for by the entries in `q`, each of which pays for `k`. -/
theorem amortized (h : Reaches (logged next emit) (s₀, []) (s, w))
    (hstep : ∀ s a s', next s a = some s' →
      (∃ t, (∀ u, u ≠ t → φ s' u = φ s u) ∧
        φ s' t + (emit s a s').toList.countP p ≤ φ s t + k * (emit s a s').toList.countP q) ∨
      emit s a s' = none ∧ ∀ u, φ s' u = φ s u)
    (h₀ : ∀ t, φ s₀ t = 0) : w.countP p ≤ k * w.countP q := by
  suffices ∃ T : Finset ι, (∀ t ∉ T, φ s t = 0) ∧
      w.countP p + ∑ t ∈ T, φ s t ≤ k * w.countP q by
    obtain ⟨T, -, hle⟩ := this
    omega
  refine h.logged_invariant (I := fun s w => ∃ T : Finset ι, (∀ t ∉ T, φ s t = 0) ∧
    w.countP p + ∑ t ∈ T, φ s t ≤ k * w.countP q) (fun s w a s' _ hI hn => ?_)
    ⟨∅, fun t _ => h₀ t, by simp⟩
  obtain ⟨T, hT, hle⟩ := hI
  rcases hstep s a s' hn with ⟨t, hother, ht⟩ | ⟨he, hφ⟩
  case inr =>
    refine ⟨T, fun u hu => (hφ u).trans (hT u hu), ?_⟩
    rw [he, Finset.sum_congr rfl fun u _ => hφ u]
    exact hle
  have hT' : ∀ u ∉ insert t T, φ s u = 0 :=
    fun u hu => hT u fun hm => hu (Finset.mem_insert_of_mem hm)
  have hsum : ∑ u ∈ insert t T, φ s u = ∑ u ∈ T, φ s u := Sums.sum_support hT' hT
  have hchange := Sums.sum_change (f := fun u => φ s' u) (g := fun u => φ s u)
    (Finset.mem_insert_self t T) fun u _ hu => hother u hu
  refine ⟨insert t T, fun u hu => ?_, ?_⟩
  · rw [hother u fun he => hu (he ▸ Finset.mem_insert_self t T)]
    exact hT' u hu
  · rw [List.countP_append, List.countP_append, Nat.mul_add]
    omega

end Steps

def Infinite (next : σ → α → Option σ) (f : ℕ → σ) (acts : ℕ → α) : Prop :=
  ∀ i, next (f i) (acts i) = some (f (i + 1))

def logAt (emit : σ → α → σ → Option β) (f : ℕ → σ) (acts : ℕ → α) : ℕ → List β
  | 0 => []
  | i + 1 => (emit (f i) (acts i) (f (i + 1))).toList ++ logAt emit f acts i

namespace Infinite

variable {f : ℕ → σ} {acts : ℕ → α}

theorem logged_at (h : Infinite next f acts) (w : List β) (i : ℕ) :
    Reaches (logged next emit) (f 0, w) (f i, logAt emit f acts i ++ w) := by
  induction i with
  | zero => exact .refl
  | succ i ih =>
    refine .tail (acts i) ih trivial (logged_eq_some.mpr ⟨h i, ?_⟩)
    rw [logAt, List.append_assoc]

theorem reaches (h : Infinite next f acts) (i : ℕ) : Reaches next (f 0) (f i) := by
  have hrun : Reaches (logged next fun _ _ _ => (none : Option Unit)) (f 0, []) (f i, _) :=
    h.logged_at [] i
  exact hrun.unlogged

theorem suffix_logAt (emit : σ → α → σ → Option β) (f : ℕ → σ) (acts : ℕ → α) {i j : ℕ}
    (hij : i ≤ j) : logAt emit f acts i <:+ logAt emit f acts j := by
  induction hij with
  | refl => exact List.suffix_refl _
  | step _ ih => exact ih.trans (List.suffix_append _ _)

/-- A run whose log is bounded comes to a point after which nothing is logged. -/
theorem silent {bound : ℕ} (hbound : ∀ i, (logAt emit f acts i).length ≤ bound) :
    ∃ n, ∀ i, n ≤ i → emit (f i) (acts i) (f (i + 1)) = none := by
  -- from the longest log on there is no further entry
  have hmax : ∃ n, ∀ i, (logAt emit f acts i).length ≤ (logAt emit f acts n).length := by
    by_contra hno
    push Not at hno
    have hgrow : ∀ m, ∃ i, m ≤ (logAt emit f acts i).length := by
      intro m
      induction m with
      | zero => exact ⟨0, Nat.zero_le _⟩
      | succ m ih =>
        obtain ⟨i, hi⟩ := ih
        obtain ⟨j, hj⟩ := hno i
        exact ⟨j, by omega⟩
    obtain ⟨i, hi⟩ := hgrow (bound + 1)
    have := hbound i
    omega
  obtain ⟨n, hn⟩ := hmax
  refine ⟨n, fun i hi => ?_⟩
  have hlow := (suffix_logAt emit f acts hi).length_le
  have hhigh := hn (i + 1)
  rw [logAt, List.length_append] at hhigh
  have hzero : (emit (f i) (acts i) (f (i + 1))).toList.length = 0 := by omega
  cases he : emit (f i) (acts i) (f (i + 1)) with
  | none => rfl
  | some e => simp [he] at hzero

end Infinite

end Runs
