import Mathlib.Data.List.Nodup

/-!
# Histories of a run

A history lists the events of a run, newest first. Waiters are named by identities that are never
reused. `pending` is the list of waiters that were installed and have neither finished nor been
unlinked, oldest first, and `Fifo` is the promise that no waiter finishes, and no permits are taken
past the queue, while an older waiter is pending.
-/

namespace WeightedSemaphore

inductive Event
  | installed (uid : ℕ)
  | finished (uid : ℕ) (poisoned : Bool)
  /-- `start_cancel` won the race against `finish`. -/
  | cancelling (uid : ℕ)
  | unlinked (uid : ℕ)
  | cancelled (uid : ℕ)
  /-- `try_acquire` or a first poll took permits from the acquire word. -/
  | fastPath (amount : ℕ)
  | released (amount : ℕ)
  | poison
  | forgot (amount : ℕ)
  deriving DecidableEq

abbrev History := List Event

namespace History

variable {h h₁ h₂ : History} {u v : ℕ}

def arrivals : History → List ℕ
  | [] => []
  | .installed u :: h => arrivals h ++ [u]
  | _ :: h => arrivals h

def pending : History → List ℕ
  | [] => []
  | .installed u :: h => pending h ++ [u]
  | .finished u _ :: h => (pending h).erase u
  | .unlinked u :: h => (pending h).erase u
  | _ :: h => pending h

/-- The waiter was moved to `Finished`, or has started cancelling and been unlinked. -/
def Settled (h : History) (u : ℕ) : Prop := (∃ p, .finished u p ∈ h) ∨ .unlinked u ∈ h

/-- The waiter was moved to `Finished` or to `Cancelled`, after which its future may free it. -/
def GivenUp (h : History) (u : ℕ) : Prop := (∃ p, .finished u p ∈ h) ∨ .cancelled u ∈ h

def given : History → ℕ
  | [] => 0
  | .released n :: h => given h + n
  | _ :: h => given h

def forgotten : History → ℕ
  | [] => 0
  | .forgot n :: h => forgotten h + n
  | _ :: h => forgotten h

def CancelsFirst (h : History) : Prop :=
  ∀ h₁ h₂ u, h = h₁ ++ .unlinked u :: h₂ → .cancelling u ∈ h₂

/-- First in, first out: whenever a waiter finished, and whenever permits were taken on the fast
path, every waiter installed before was settled. -/
structure Fifo (h : History) : Prop where
  finished : ∀ h₁ h₂ u p, h = h₁ ++ .finished u p :: h₂ →
    ∀ k₁ k₂, h₂ = k₁ ++ .installed u :: k₂ → ∀ v, .installed v ∈ k₂ → Settled h₂ v
  fastPath : ∀ h₁ h₂ n, h = h₁ ++ .fastPath n :: h₂ →
    ∀ v, .installed v ∈ h₂ → Settled h₂ v

theorem mem_arrivals : u ∈ arrivals h ↔ .installed u ∈ h := by
  induction h with
  | nil => simp [arrivals]
  | cons e h ih => cases e <;> simp [arrivals, ih, or_comm, eq_comm]

theorem arrivals_append : arrivals (h₁ ++ h₂) = arrivals h₂ ++ arrivals h₁ := by
  induction h₁ with
  | nil => simp [arrivals]
  | cons e h ih => cases e <;> simp [arrivals, ih]

theorem pending_sublist (h : History) : (pending h).Sublist (arrivals h) := by
  induction h with
  | nil => exact List.Sublist.refl _
  | cons e h ih =>
    cases e with
    | installed u => exact ih.append (List.Sublist.refl _)
    | finished u p => exact List.erase_sublist.trans ih
    | unlinked u => exact List.erase_sublist.trans ih
    | _ => exact ih

theorem Settled.cons (e : Event) (hs : Settled h u) : Settled (e :: h) u := by
  rcases hs with ⟨p, hp⟩ | hu
  · exact Or.inl ⟨p, List.mem_cons_of_mem _ hp⟩
  · exact Or.inr (List.mem_cons_of_mem _ hu)

theorem pending_or_settled (hu : .installed u ∈ h) : u ∈ pending h ∨ Settled h u := by
  induction h with
  | nil => simp at hu
  | cons e h ih =>
    by_cases he : e = .installed u
    · subst he
      exact Or.inl (by simp [pending])
    · have hmem : .installed u ∈ h := by
        rcases List.mem_cons.mp hu with hh | hh
        · exact absurd hh.symm he
        · exact hh
      rcases ih hmem with hp | hs
      · cases e with
        | finished v p =>
          by_cases hv : u = v
          · subst hv
            exact Or.inr (Or.inl ⟨p, by simp⟩)
          · exact Or.inl ((List.mem_erase_of_ne hv).mpr hp)
        | unlinked v =>
          by_cases hv : u = v
          · subst hv
            exact Or.inr (Or.inr (by simp))
          · exact Or.inl ((List.mem_erase_of_ne hv).mpr hp)
        | installed v => exact Or.inl (by simp [pending, hp])
        | _ => exact Or.inl hp
      · exact Or.inr (hs.cons e)

/-- All that was installed before the oldest pending waiter is settled. -/
theorem settled_before_oldest (hnd : (arrivals h).Nodup) {l : List ℕ} (hp : pending h = u :: l)
    {k₁ k₂ : History} (hk : h = k₁ ++ .installed u :: k₂) (hv : .installed v ∈ k₂) :
    Settled h v := by
  have hvh : .installed v ∈ h := by rw [hk]; simp [hv]
  refine (pending_or_settled hvh).resolve_left fun hpv => ?_
  have hva : v ∈ arrivals k₂ := mem_arrivals.mpr hv
  have harr : arrivals h = arrivals k₂ ++ u :: arrivals k₁ := by
    rw [hk, arrivals_append]; simp [arrivals]
  rw [harr] at hnd
  obtain ⟨-, -, hdisj⟩ := List.nodup_append.mp hnd
  have huk : u ∉ arrivals k₂ := fun hu => hdisj u hu u (by simp) rfl
  have hne : v ≠ u := fun he => huk (he ▸ hva)
  have hsub := pending_sublist h
  rw [hp, harr] at hsub
  -- the pending list starts with `u`, so it lies within the arrivals from `u` on
  have htail : (u :: l).Sublist (u :: arrivals k₁) := by
    obtain ⟨l₁, l₂, hl, hl₁, hl₂⟩ := List.sublist_append_iff.mp hsub
    cases l₁ with
    | nil =>
      rw [List.nil_append] at hl
      exact hl ▸ hl₂
    | cons w l₁ =>
      obtain ⟨rfl, -⟩ := List.cons.inj hl
      exact absurd (hl₁.subset (by simp)) huk
  rw [hp] at hpv
  exact hdisj v hva v (htail.subset hpv) rfl

namespace CancelsFirst

theorem nil : CancelsFirst [] := by simp [CancelsFirst]

theorem cons (hc : CancelsFirst h) {e : Event}
    (he : ∀ u, e = .unlinked u → .cancelling u ∈ h) : CancelsFirst (e :: h) := by
  intro h₁ h₂ u heq
  cases h₁ with
  | nil =>
    obtain ⟨rfl, rfl⟩ := List.cons.inj heq
    exact he u rfl
  | cons e h₁ => exact hc h₁ h₂ u (List.cons.inj heq).2

end CancelsFirst

namespace Fifo

theorem nil : Fifo [] := ⟨by simp, by simp⟩

theorem cons_finished (hf : Fifo h) (hnd : (arrivals h).Nodup) {p : Bool} {l : List ℕ}
    (hp : pending h = u :: l) : Fifo (.finished u p :: h) := by
  constructor
  · intro h₁ h₂ w q heq
    cases h₁ with
    | nil =>
      obtain ⟨he, rfl⟩ := List.cons.inj heq
      obtain ⟨rfl, -⟩ := Event.finished.inj he
      exact fun k₁ k₂ hk v hv => settled_before_oldest hnd hp hk hv
    | cons e h₁ => exact hf.finished h₁ h₂ w q (List.cons.inj heq).2
  · intro h₁ h₂ n heq
    cases h₁ with
    | nil => simp at heq
    | cons e h₁ => exact hf.fastPath h₁ h₂ n (List.cons.inj heq).2

theorem cons_fastPath (hf : Fifo h) (hp : pending h = []) (n : ℕ) : Fifo (.fastPath n :: h) := by
  constructor
  · intro h₁ h₂ w q heq
    cases h₁ with
    | nil => simp at heq
    | cons e h₁ => exact hf.finished h₁ h₂ w q (List.cons.inj heq).2
  · intro h₁ h₂ m heq
    cases h₁ with
    | nil =>
      obtain ⟨-, rfl⟩ := List.cons.inj heq
      intro v hv
      exact (pending_or_settled hv).resolve_left (by simp [hp])
    | cons e h₁ => exact hf.fastPath h₁ h₂ m (List.cons.inj heq).2

theorem cons_other (hf : Fifo h) {e : Event} (hfin : ∀ u p, e ≠ .finished u p)
    (hfast : ∀ n, e ≠ .fastPath n) : Fifo (e :: h) := by
  constructor
  · intro h₁ h₂ w q heq
    cases h₁ with
    | nil => exact absurd (List.cons.inj heq).1 (hfin w q)
    | cons e h₁ => exact hf.finished h₁ h₂ w q (List.cons.inj heq).2
  · intro h₁ h₂ n heq
    cases h₁ with
    | nil => exact absurd (List.cons.inj heq).1 (hfast n)
    | cons e h₁ => exact hf.fastPath h₁ h₂ n (List.cons.inj heq).2

end Fifo

end History

end WeightedSemaphore
