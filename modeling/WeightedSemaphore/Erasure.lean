import WeightedSemaphore.Refinement
import WeightedSemaphore.Tenure

/-!
# Every waiter leaves the queue once

Waiters that finish, and waiters that are unlinked, are pending when they do. So the waiters that
arrived are divided among those that are pending, finished and unlinked. The deeds of a run mirror
its history.
-/

namespace WeightedSemaphore

namespace History

variable {h : History} {u : ℕ}

def finishes : History → List ℕ
  | [] => []
  | .finished u _ :: h => u :: finishes h
  | _ :: h => finishes h

def unlinks : History → List ℕ
  | [] => []
  | .unlinked u :: h => u :: unlinks h
  | _ :: h => unlinks h

/-- Only pending waiters finish or are unlinked. -/
def Erases : History → Prop
  | [] => True
  | .finished u _ :: h => u ∈ pending h ∧ Erases h
  | .unlinked u :: h => u ∈ pending h ∧ Erases h
  | _ :: h => Erases h

theorem finishes_append (h₁ h₂ : History) : finishes (h₁ ++ h₂) = finishes h₁ ++ finishes h₂ := by
  induction h₁ with
  | nil => rfl
  | cons e h ih => cases e <;> simp [finishes, ih]

theorem unlinks_append (h₁ h₂ : History) : unlinks (h₁ ++ h₂) = unlinks h₁ ++ unlinks h₂ := by
  induction h₁ with
  | nil => rfl
  | cons e h ih => cases e <;> simp [unlinks, ih]

theorem Erases.perm (he : Erases h) :
    (arrivals h).Perm (pending h ++ (finishes h ++ unlinks h)) := by
  induction h with
  | nil => exact List.Perm.refl _
  | cons e h ih =>
    cases e with
    | installed u =>
      refine ((ih he).append_right [u]).trans ?_
      simp only [pending, finishes, unlinks, List.append_assoc]
      refine List.Perm.append_left _ ?_
      rw [← List.append_assoc]
      exact List.perm_append_comm
    | finished u p =>
      refine (ih he.2).trans ?_
      exact ((List.perm_cons_erase he.1).append_right _).trans List.perm_middle.symm
    | unlinked u =>
      refine (ih he.2).trans (((List.perm_cons_erase he.1).append_right _).trans ?_)
      simp only [pending, finishes, unlinks]
      rw [List.cons_append]
      refine List.perm_middle.symm.trans ?_
      exact List.Perm.append_left _ List.perm_middle.symm
    | _ => exact ih he

/-- Waiters leave the queue once. -/
theorem Erases.nodup (he : Erases h) (hnd : (arrivals h).Nodup) :
    (finishes h).Nodup ∧ (unlinks h).Nodup := by
  have hp := (he.perm.nodup_iff.mp hnd).of_append_right
  exact ⟨hp.of_append_left, hp.of_append_right⟩

theorem Erases.length_le (he : Erases h) :
    (finishes h).length + (unlinks h).length ≤ (arrivals h).length := by
  have := he.perm.length_eq
  simp only [List.length_append] at this
  omega

end History

namespace Protocol

variable {ι ω : Type} [DecidableEq ι] [DecidableEq ω] {cap : ℕ} {a b : State ι ω}

theorem erases_step (h : Step cap a b) (hi : Inv a) (hh : HistOk a)
    (he : History.Erases a.hist) : History.Erases b.hist := by
  have hmem (x : ω) (hx : x ∈ a.queue) : a.uid x ∈ History.pending a.hist := by
    rw [hh.pending]
    exact List.mem_map_of_mem hx
  cases h with
  | unlink o x taken ho hp ht =>
    have hx : x ∈ a.taken := by simp [taken_of_owner ho, ht]
    exact ⟨hmem x (hi.taken_queue hx), he⟩
  | grant o x linked n ho hp hl hx hr hn =>
    exact ⟨hmem x (hi.queue.queued_mem x hx), he⟩
  | fail o x linked ho hp hl hx hr =>
    exact ⟨hmem x (hi.queue.queued_mem x hx), he⟩
  | _ => exact he

end Protocol

open AtomicWaker (FinishPc)

namespace Deed

def Silent (d : Deed) : Prop := d.pushed? = none ∧ d.popped? = none ∧ d.removed? = none

def Mirrored (d : Option Deed) (h h' : History) : Prop :=
  ∃ es, h' = es ++ h ∧ History.arrivals es = pushes d.toList ∧
    History.finishes es = pops d.toList ∧ History.unlinks es = removals d.toList

end Deed

def History.Quiet (h h' : History) : Prop :=
  ∃ es, h' = es ++ h ∧ arrivals es = [] ∧ finishes es = [] ∧ unlinks es = []

namespace History.Quiet

variable {h : History}

theorem refl (h : History) : Quiet h h := ⟨[], rfl, rfl, rfl, rfl⟩

theorem fastPath (n : ℕ) : Quiet h (.fastPath n :: h) := ⟨[_], rfl, rfl, rfl, rfl⟩

theorem released (n : ℕ) : Quiet h (.released n :: h) := ⟨[_], rfl, rfl, rfl, rfl⟩

theorem poison : Quiet h (.poison :: h) := ⟨[_], rfl, rfl, rfl, rfl⟩

theorem forgot (n : ℕ) : Quiet h (.forgot n :: h) := ⟨[_], rfl, rfl, rfl, rfl⟩

theorem cancelling (u : ℕ) : Quiet h (.cancelling u :: h) := ⟨[_], rfl, rfl, rfl, rfl⟩

theorem cancelled (u : ℕ) : Quiet h (.cancelled u :: h) := ⟨[_], rfl, rfl, rfl, rfl⟩

theorem mirrored {h' : History} (hq : Quiet h h') {d : Option Deed} (hd : ∀ e ∈ d, e.Silent) :
    Deed.Mirrored d h h' := by
  obtain ⟨es, hh, ha, hf, hu⟩ := hq
  refine ⟨es, hh, ?_⟩
  cases d with
  | none => exact ⟨ha, hf, hu⟩
  | some e =>
    obtain ⟨h₁, h₂, h₃⟩ := hd e rfl
    simp [Deed.pushes, Deed.pops, Deed.removals, ha, hf, hu, h₁, h₂, h₃]

end History.Quiet

variable [Usize] {ι : Type}

/-- Outside of the loops over the queue no deed speaks of it. -/
theorem ReleasePc.deed_silent (s : Sys ι) (f : Frame ι) {pc : ReleasePc ι}
    (hc : ∀ p, pc ≠ .cancel p) (hfin : ∀ pop q, pc ≠ .finish pop q) : (pc.deed s f).Silent := by
  cases pc with
  | cancel p => exact absurd rfl (hc p)
  | finish pop q => exact absurd rfl (hfin pop q)
  | walk p back waiter =>
    simp only [deed]
    split_ifs <;> exact ⟨rfl, rfl, rfl⟩
  | tryPop =>
    simp only [deed]
    split
    · split_ifs <;> exact ⟨rfl, rfl, rfl⟩
    · exact ⟨rfl, rfl, rfl⟩
  | accept waker p pc =>
    cases pc <;> simp only [deed]
    · exact ⟨rfl, rfl, rfl⟩
    · split <;> exact ⟨rfl, rfl, rfl⟩
    · exact ⟨rfl, rfl, rfl⟩
  | lock current => simp only [deed]; split <;> exact ⟨rfl, rfl, rfl⟩
  | flip p current => simp only [deed]; split <;> exact ⟨rfl, rfl, rfl⟩
  | unlock current => simp only [deed]; split <;> exact ⟨rfl, rfl, rfl⟩
  | _ => exact ⟨rfl, rfl, rfl⟩

variable [DecidableEq ι] {s s' : Sys ι} {t : ι} {spurious : Bool} {r : Permits} {ret : Cont}

theorem mirrored_finish (pop : Pop) (pc : FinishPc) :
    Deed.Mirrored (some ((ReleasePc.finish pop pc).deed s
        ((s.finish t r ret spurious pop pc).frames t))) s.ghost.hist
      (s.finish t r ret spurious pop pc).ghost.hist := by
  have hquiet {s' : Sys ι} {f : Frame ι} (hframe : s'.frames t = f)
      (hd : ((ReleasePc.finish pop pc).deed s f).Silent) (hh : s'.ghost.hist = s.ghost.hist) :
      Deed.Mirrored (some ((ReleasePc.finish pop pc).deed s (s'.frames t))) s.ghost.hist
        s'.ghost.hist := by
    rw [hframe, hh]
    exact (History.Quiet.refl _).mirrored fun e he => Option.some.inj he ▸ hd
  cases pc with
  | load => exact hquiet (Function.update_self ..) ⟨rfl, rfl, rfl⟩ rfl
  | loadVtable current data => exact hquiet (Function.update_self ..) ⟨rfl, rfl, rfl⟩ rfl
  | test current =>
    cases current with
    | storing seq =>
      cases hc : (s.mem.waker pop.front).state.cmpxchgWeak (.storing seq)
        (.finished pop.releasable.isNone) spurious with
      | none =>
        simp only [Sys.finish, AtomicWaker.finish, hc]
        exact hquiet (Function.update_self ..) ⟨rfl, rfl, rfl⟩ rfl
      | some state =>
        simp only [Sys.finish, AtomicWaker.finish, hc, Sys.goto, Function.update_self]
        exact ⟨[.finished (s.ghost.uid pop.front) _], rfl, rfl, rfl, rfl⟩
    | _ => exact hquiet (Function.update_self ..) ⟨rfl, rfl, rfl⟩ rfl
  | exchange current data vtable =>
    cases hc : (s.mem.waker pop.front).state.cmpxchgWeak current
      (.finished pop.releasable.isNone) spurious with
    | none =>
      simp only [Sys.finish, AtomicWaker.finish, hc]
      exact hquiet (Function.update_self ..) ⟨rfl, rfl, rfl⟩ rfl
    | some state =>
      simp only [Sys.finish, AtomicWaker.finish, hc, Sys.goto, Function.update_self]
      exact ⟨[.finished (s.ghost.uid pop.front) _], rfl, rfl, rfl, rfl⟩

theorem mirrored_cancel (nextCancel : Ptr) :
    Deed.Mirrored (some ((ReleasePc.cancel nextCancel : ReleasePc ι).deed s
      ((s.cancel t r ret nextCancel).frames t))) s.ghost.hist
      (s.cancel t r ret nextCancel).ghost.hist := by
  simp only [Sys.cancel, ReleasePc.deed]
  by_cases hnull : nextCancel = null
  · rw [if_pos hnull, if_pos hnull]
    exact ⟨[], rfl, rfl, rfl, rfl⟩
  · rw [if_neg hnull, if_neg hnull]
    exact ⟨[.unlinked (s.ghost.uid nextCancel)], rfl, rfl, rfl, rfl⟩

theorem Sys.afterRelease_hist (s : Sys ι) (t : ι) (ret : Cont) :
    (s.afterRelease t ret).ghost.hist = s.ghost.hist := by
  cases ret <;> rfl

theorem quiet_release {pc : ReleasePc ι} (hc : ∀ p, pc ≠ .cancel p)
    (hfin : ∀ pop q, pc ≠ .finish pop q) :
    History.Quiet s.ghost.hist (s.release t r ret spurious pc).ghost.hist := by
  cases pc with
  | cancel p => exact absurd rfl (hc p)
  | finish pop q => exact absurd rfl (hfin pop q)
  | lock current =>
    simp only [Sys.release, Sys.lockOrElseDefer]
    cases current <;> dsimp only <;> split
    · exact .refl _
    · exact .refl _
    · rw [Sys.afterRelease_hist]; exact .refl _
    · exact .refl _
    · rw [Sys.afterRelease_hist]; exact .refl _
    · exact .refl _
  | flip p current =>
    simp only [Sys.release, Sys.flip]
    cases current with
    | available q =>
      dsimp only
      split
      · split_ifs <;> exact .refl _
      · exact .refl _
    | queued back =>
      dsimp only
      split_ifs
      · split <;> exact .refl _
      · exact .refl _
      · split <;> exact .refl _
  | walk p back waiter =>
    simp only [Sys.release, Sys.walk]
    split_ifs <;> exact .refl _
  | accept waker nextCancel pc =>
    simp only [Sys.release, Sys.accept]
    split
    · exact .cancelled _
    · exact .refl _
    · exact .refl _
    · exact .refl _
  | tryPop =>
    simp only [Sys.release, Sys.tryPop]
    split_ifs
    · exact .refl _
    · split
      · split_ifs <;> exact .refl _
      · exact .refl _
  | unlock current =>
    simp only [Sys.release, Sys.tryUnlock]
    cases current with
    | unlocked q => exact .refl _
    | locked =>
      dsimp only
      split
      · rw [Sys.afterRelease_hist]; exact .refl _
      · exact .refl _
    | lockedDirty q => dsimp only; split <;> exact .refl _
  | _ => exact .refl _

theorem mirrored_release (pc : ReleasePc ι) :
    Deed.Mirrored (some (pc.deed s ((s.release t r ret spurious pc).frames t))) s.ghost.hist
      (s.release t r ret spurious pc).ghost.hist := by
  cases hpc : pc with
  | finish pop pc => exact mirrored_finish pop pc
  | cancel nextCancel => exact mirrored_cancel nextCancel
  | _ =>
    rw [← hpc]
    refine (quiet_release (by simp [hpc]) (by simp [hpc])).mirrored fun e he => ?_
    rw [← Option.some.inj he]
    exact ReleasePc.deed_silent s _ (by simp [hpc]) (by simp [hpc])

theorem mirrored_pollEnter {a : Ptr} {pc : EnterPc} (hf : s.frames t = .pollEnter a pc) :
    Deed.Mirrored (s.deed (.step t spurious) (s.pollEnter t a spurious pc)) s.ghost.hist
      (s.pollEnter t a spurious pc).ghost.hist := by
  cases pc with
  | load =>
    simp only [Sys.deed, hf]
    exact (History.Quiet.refl _).mirrored (by simp)
  | loop current =>
    simp only [Sys.deed, hf]
    refine History.Quiet.mirrored ?_ (by simp)
    cases current with
    | queued back => exact .refl _
    | available q =>
      simp only [Sys.pollEnter]
      cases q.intoUsize with
      | none => exact .refl _
      | some n =>
        dsimp only
        split_ifs
        · split
          · exact .fastPath _
          · exact .refl _
        · exact .refl _
  | poll current available back tok pc =>
    simp only [Sys.deed, hf, Sys.pollEnter]
    refine History.Quiet.mirrored ?_ (by simp)
    split <;> exact .refl _
  | push current available back =>
    simp only [Sys.deed, hf, Sys.pollEnter]
    cases s.sem.acquire.cmpxchgWeak current (.queued a) spurious with
    | none =>
      simp only [Sys.goto, Function.update_self]
      exact (History.Quiet.refl _).mirrored (by simp)
    | some acquire =>
      simp only [Sys.goto, Function.update_self]
      exact ⟨[.installed (s.ghost.uid a)], rfl, rfl, rfl, rfl⟩

theorem quiet_tryAcquire (amount : ℕ) (pc : TryAcquirePc) :
    History.Quiet s.ghost.hist (s.tryAcquire t amount spurious pc).ghost.hist := by
  cases pc with
  | load => exact .refl _
  | loop current =>
    cases current with
    | queued back => exact .refl _
    | available q =>
      simp only [Sys.tryAcquire]
      cases q.intoUsize with
      | none => exact .refl _
      | some n =>
        dsimp only
        split_ifs
        · exact .refl _
        · split
          · exact .fastPath _
          · exact .refl _

theorem quiet_dropFuture {a : Ptr} {pc : DropPc} (h : s.dropFuture t a spurious pc = some s') :
    History.Quiet s.ghost.hist s'.ghost.hist := by
  cases pc with
  | startCancel pc =>
    simp only [Sys.dropFuture] at h
    split at h <;> obtain rfl := Option.some.inj h <;> first | exact .refl _ | exact .cancelling _
  | loadCancel =>
    obtain rfl := Option.some.inj h
    exact .refl _
  | pushCancel current =>
    simp only [Sys.dropFuture] at h
    split at h <;> obtain rfl := Option.some.inj h <;> exact .refl _
  | waitCancel pc =>
    cases pc with
    | load =>
      simp only [Sys.dropFuture] at h
      split at h <;> obtain rfl := Option.some.inj h <;> exact .refl _
    | park =>
      simp only [Sys.dropFuture] at h
      split_ifs at h
      obtain rfl := Option.some.inj h
      exact .refl _
  | waker =>
    simp only [Sys.dropFuture] at h
    split at h <;> obtain rfl := Option.some.inj h <;> exact .refl _

theorem quiet_call {c : Call} (h : s.call t c = some s') :
    History.Quiet s.ghost.hist s'.ghost.hist := by
  cases c with
  | poll a =>
    simp only [Sys.call] at h
    split_ifs at h
    cases hst : s.mem.step a <;> rw [hst] at h <;> obtain rfl := Option.some.inj h <;>
      exact .refl _
  | dropFuture a =>
    simp only [Sys.call] at h
    split_ifs at h
    cases hst : s.mem.step a <;> rw [hst] at h <;> obtain rfl := Option.some.inj h <;>
      exact .refl _
  | tryAcquire amount =>
    obtain rfl := Option.some.inj h
    exact .refl _
  | release amount =>
    obtain rfl := Option.some.inj h
    exact .released _
  | poison =>
    obtain rfl := Option.some.inj h
    exact .poison
  | dropGuard i =>
    simp only [Sys.call] at h
    split at h
    · cases h
    · split_ifs at h <;> obtain rfl := Option.some.inj h
      · exact .poison
      · exact .refl _

/-- The deeds of an action and the events that it logs agree. -/
theorem Sys.next_mirrored {act : Act ι} (h : s.next act = some s') :
    Deed.Mirrored (s.deed act s') s.ghost.hist s'.ghost.hist := by
  cases act with
  | call t c =>
    simp only [Sys.next] at h
    split_ifs at h
    refine (quiet_call h).mirrored fun e he => ?_
    obtain rfl := Option.some.inj he
    exact ⟨rfl, rfl, rfl⟩
  | step t spurious =>
    simp only [Sys.next, Sys.step] at h
    cases hf : s.frames t with
    | idle ret => simp [hf] at h
    | panicked => simp [hf] at h
    | tryAcquire amount pc =>
      rw [hf] at h
      obtain rfl := Option.some.inj h
      simp only [Sys.deed, hf]
      exact (quiet_tryAcquire amount pc).mirrored (by simp)
    | pollEnter a pc =>
      rw [hf] at h
      obtain rfl := Option.some.inj h
      exact mirrored_pollEnter hf
    | pollWaiting a tok pc =>
      rw [hf] at h
      obtain rfl := Option.some.inj h
      simp only [Sys.deed, hf, Sys.pollWaiting]
      refine History.Quiet.mirrored ?_ (by simp)
      split <;> exact .refl _
    | release r ret pc =>
      rw [hf] at h
      obtain rfl := Option.some.inj h
      simp only [Sys.deed, hf]
      exact mirrored_release pc
    | dropFuture a pc =>
      rw [hf] at h
      simp only [Sys.deed, hf]
      exact (quiet_dropFuture h).mirrored (by simp)
  | acquire a amount =>
    simp only [Sys.next, Sys.acquire] at h
    split_ifs at h
    obtain rfl := Option.some.inj h
    exact (History.Quiet.refl _).mirrored (by simp [Sys.deed])
  | forget i =>
    simp only [Sys.next, Sys.forget] at h
    split at h
    · cases h
    · obtain rfl := Option.some.inj h
      exact (History.Quiet.forgot _).mirrored (by simp [Sys.deed])
  | setPanicking t panicking =>
    simp only [Sys.next] at h
    split_ifs at h
    obtain rfl := Option.some.inj h
    exact (History.Quiet.refl _).mirrored (by simp [Sys.deed])

/-- The deeds of a run tell the same story as its history. -/
structure Mirror (h : History) (w : List Deed) : Prop where
  arrivals : History.arrivals h = (Deed.pushes w).reverse
  finishes : History.finishes h = Deed.pops w
  unlinks : History.unlinks h = Deed.removals w

omit [Usize] in
theorem Mirror.append {h h' : History} {w : List Deed} {d : Option Deed} (hm : Mirror h w)
    (hd : Deed.Mirrored d h h') : Mirror h' (d.toList ++ w) := by
  obtain ⟨es, rfl, ha, hf, hu⟩ := hd
  constructor
  · rw [History.arrivals_append, hm.arrivals, ha]
    simp only [Deed.pushes, List.filterMap_append, List.reverse_append]
    cases d with
    | none => rfl
    | some e => cases h : e.pushed? <;> simp [h]
  · rw [History.finishes_append, hf, hm.finishes]
    simp only [Deed.pops, List.filterMap_append]
  · rw [History.unlinks_append, hu, hm.unlinks]
    simp only [Deed.removals, List.filterMap_append]

theorem mirror_of_run {w : List Deed} {initial : ℕ}
    (h : Runs.Reaches (Runs.logged Sys.next Sys.deed) (Sys.init initial, []) (s, w)) :
    Mirror s.ghost.hist w :=
  h.logged_invariant (I := fun s w => Mirror s.ghost.hist w)
    (fun _ _ _ _ _ hm hn => hm.append (Sys.next_mirrored hn)) ⟨rfl, rfl, rfl⟩

/-- In every reachable state the waiters that left the queue were pending before. -/
theorem Reachable.erases {initial : ℕ} (h : Reachable initial s) :
    History.Erases s.ghost.hist := by
  obtain ⟨a, hr, he⟩ := kept_of_run (P := fun a => History.Erases a.hist)
    (fun _ _ _ _ hr he hstep => Protocol.erases_step hstep hr.inv hr.hist he) trivial h
  rwa [hr.sim.view.hist] at he

end WeightedSemaphore
