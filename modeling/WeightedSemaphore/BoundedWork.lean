import WeightedSemaphore.Visits

/-!
# The work of the lock owner is bounded

The loops of `release` turn once for a waiter or a deferral, so that the steps inside of `release`
are bounded by the calls and the retries of a run. A release call that is scheduled again and again
returns once calls and retries have stopped.
-/

namespace WeightedSemaphore

open Deed (pushes visits removals pops tenure lastPass)

section

structure BoundedWork (w : List Deed) : Prop where
  /-- In one ownership of the lock, a pass more than deferrals at most. -/
  passes : (tenure w).count .pass ≤ 1 + (tenure w).count .deferred
  popped : (pops w).length ≤ (pushes w).length
  /-- In one pass, `try_pop` returns false once. -/
  refused : (lastPass w).count .refused ≤ 1
  visited_once : (visits w).Nodup
  visited_pushed : ∀ u ∈ visits w, u ∈ pushes w
  removed_once : (removals w).Nodup
  removed_pushed : ∀ u ∈ removals w, u ∈ pushes w
  length : w.length ≤ 44 * w.count .called + 11 * w.count .retried

theorem Deed.countP_charged (w : List Deed) : w.countP charged =
    w.count called + w.count retried + w.count pass + (visits w).length + (removals w).length +
      (pops w).length := by
  induction w with
  | nil => rfl
  | cons d w ih =>
    have hcons (p : Deed → Option ℕ) : ((d :: w).filterMap p).length =
        (w.filterMap p).length + if (p d).isSome then 1 else 0 := by
      cases hp : p d <;> simp [hp]
    simp only [visits, removals, pops] at ih ⊢
    rw [List.countP_cons, List.count_cons, List.count_cons, List.count_cons,
      hcons, hcons, hcons, ih]
    cases d <;> simp [charged, visited?, removed?, popped?] <;> omega

variable [Usize] {ι : Type} [DecidableEq ι] {s : Sys ι} {w : List Deed} {initial : ℕ}

theorem boundedWork_of_run
    (h : Runs.Reaches (Runs.logged Sys.next Sys.deed) (Sys.init initial, []) (s, w)) :
    BoundedWork w := by
  have ht := tenure_of_run h
  have hm := mirror_of_run h
  have he := Reachable.erases h.unlogged
  obtain ⟨a, hr, hv⟩ := visiting_of_run h
  have hhist : a.hist = s.ghost.hist := hr.sim.view.hist
  have hnd := hr.hist.arrivals_nodup
  rw [hhist] at hnd
  obtain ⟨-, hunlinks⟩ := he.nodup hnd
  have hsplit := he.length_le
  rw [hm.finishes, hm.unlinks, hm.arrivals, List.length_reverse] at hsplit
  have hpushed : ∀ u ∈ visits w, u ∈ pushes w := fun u hu => by
    have := hv.known u hu
    rwa [hhist, hm.arrivals, List.mem_reverse] at this
  have hvisits : (visits w).length ≤ (pushes w).length :=
    (List.subperm_of_subset hv.nodup hpushed).length_le
  constructor
  case passes => exact (Nat.le_add_right _ _).trans ht.passes
  case popped => omega
  case refused => exact ht.refused
  case visited_once => exact hv.nodup
  case visited_pushed => exact hpushed
  case removed_once => exact hm.unlinks ▸ hunlinks
  case removed_pushed =>
    intro u hu
    rw [← hm.unlinks] at hu
    have := he.perm.symm.subset (List.mem_append_right _ (List.mem_append_right _ hu))
    rwa [hm.arrivals, List.mem_reverse] at this
  case length =>
    have hlen := length_le_charged h
    have hpass := ht.total
    have hentries := entries_le_called h
    have hpushes := pushes_le_called h
    rw [Deed.countP_charged] at hlen
    omega

section Endless

variable {f : ℕ → Sys ι} {acts : ℕ → Act ι} {n : ℕ}

/-- Once calls and retries have stopped, little more is logged. -/
theorem logAt_length_le
    (h : Runs.Reaches (Runs.logged Sys.next Sys.deed) (Sys.init initial, []) (f 0, w))
    (hrun : Runs.Infinite Sys.next f acts)
    (hstop : ∀ i, n ≤ i → ∀ d ∈ (f i).deed (acts i) (f (i + 1)), d ≠ .called ∧ d ≠ .retried) :
    ∃ bound, ∀ i, (Runs.logAt Sys.deed f acts i).length ≤ bound := by
  have hcount (i : ℕ) (hi : n ≤ i) (d : Deed) (hd : d = .called ∨ d = .retried) :
      (Runs.logAt Sys.deed f acts i).count d = (Runs.logAt Sys.deed f acts n).count d := by
    induction hi with
    | refl => rfl
    | step hi ih =>
      rename_i m
      rw [Runs.logAt, List.count_append, ih]
      cases he : (f m).deed (acts m) (f (m + 1)) with
      | none => simp
      | some e =>
        obtain ⟨h₁, h₂⟩ := hstop m hi e he
        have hne : e ≠ d := by rcases hd with rfl | rfl <;> assumption
        simp [hne]
  refine ⟨44 * (Runs.logAt Sys.deed f acts n ++ w).count .called +
    11 * (Runs.logAt Sys.deed f acts n ++ w).count .retried, fun i => ?_⟩
  have hlater : (Runs.logAt Sys.deed f acts (max i n)).length ≤
      44 * (Runs.logAt Sys.deed f acts n ++ w).count .called +
        11 * (Runs.logAt Sys.deed f acts n ++ w).count .retried := by
    have hb := (boundedWork_of_run (h.trans (hrun.logged_at w (max i n)))).length
    rw [List.length_append, List.count_append, List.count_append,
      hcount _ (le_max_right i n) _ (Or.inl rfl), hcount _ (le_max_right i n) _ (Or.inr rfl)] at hb
    rw [List.count_append, List.count_append]
    omega
  exact (Runs.Infinite.suffix_logAt Sys.deed f acts (le_max_left i n)).length_le.trans hlater

end Endless

/-- `release` never blocks. -/
theorem release_enabled {t : ι} {r : Permits} {ret : Cont} {pc : ReleasePc ι}
    (hf : s.frames t = .release r ret pc) (spurious : Bool) :
    (s.next (.step t spurious)).isSome = true := by
  rw [Sys.next_release hf]
  rfl

/-- Bounded work for the lock owner: in every run the accounts of `BoundedWork` hold, a release call
can always take its next step, and it returns when it is scheduled again and again and calls and
retries have stopped. -/
theorem bounded_work
    (h : Runs.Reaches (Runs.logged Sys.next Sys.deed) (Sys.init initial, []) (s, w)) :
    BoundedWork w ∧
      (∀ t r ret pc spurious, s.frames t = .release r ret pc →
        (s.next (.step t spurious)).isSome = true) ∧
      ∀ (f : ℕ → Sys ι) (acts : ℕ → Act ι), f 0 = s → Runs.Infinite Sys.next f acts →
        (∃ n, ∀ i, n ≤ i → ∀ d ∈ (f i).deed (acts i) (f (i + 1)), d ≠ .called ∧ d ≠ .retried) →
        ∀ t, (∀ i, ∃ j, i ≤ j ∧ ∃ spurious, acts j = .step t spurious) →
        ∀ i, ∃ j, i ≤ j ∧ ∀ r ret pc, (f j).frames t ≠ .release r ret pc := by
  refine ⟨boundedWork_of_run h, fun t r ret pc spurious hf => release_enabled hf spurious, ?_⟩
  rintro f acts rfl hrun ⟨n, hstop⟩ t hsched i
  obtain ⟨bound, hbound⟩ := logAt_length_le h hrun hstop
  obtain ⟨m, hsilent⟩ := Runs.Infinite.silent hbound
  obtain ⟨j, hj, spurious, hact⟩ := hsched (max i m)
  refine ⟨j, (le_max_left i m).trans hj, fun r ret pc hf => ?_⟩
  have hnone := hsilent j ((le_max_right i m).trans hj)
  simp [hact, Sys.deed, hf] at hnone

end

attribute [local instance] usize64

/-- A waiter for two permits is queued; two releases of one permit overlap, so that the second one
defers and the first one makes two passes. -/
def twoPasses : Sys Bool × List Deed :=
  Runs.final (Runs.logged Sys.next Sys.deed)
    ([.acquire (usize64.ptr 0) 2, .call false (.poll (usize64.ptr 0))] ++ Act.steps false 20 ++
      [.call false (.release 1)] ++ Act.steps false 5 ++ [.call true (.release 1)] ++
      Act.steps true 2 ++ Act.steps false 18)
    (Sys.init 0, []) (by decide +kernel)

theorem bounded_work_twoPasses :
    BoundedWork twoPasses.2 ∧ (tenure twoPasses.2).count .pass = 2 ∧
      (tenure twoPasses.2).count .deferred = 1 ∧ pops twoPasses.2 = [0] ∧
      twoPasses.1.Quiescent := by
  have hq : twoPasses.1.Quiescent := by
    intro t
    cases t <;> decide +kernel
  have hr : Runs.Reaches (Runs.logged Sys.next Sys.deed) (Sys.init 0, []) twoPasses :=
    Runs.reaches_final _
  exact ⟨(bounded_work (s := twoPasses.1) (w := twoPasses.2) hr).1,
    by decide +kernel, by decide +kernel, by decide +kernel, hq⟩

end WeightedSemaphore
