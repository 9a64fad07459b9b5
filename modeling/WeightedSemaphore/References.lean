import WeightedSemaphore.Access
import WeightedSemaphore.Counted
import WeightedSemaphore.Refinement
import Mathlib.Data.Finset.Card

/-!
# Every reference is counted

The strong count is the number of clones, of acquire futures with their field `arc`, of guards, and
of threads that own a reference in a local variable. Whoever is inside of a method has a reference,
but for the destructor of the inner future.
-/

namespace WeightedSemaphore

open Function (update update_self update_of_ne)

variable {ι : Type}

namespace ArcOp

variable [Usize]

def clone : ArcOp → Option ℕ
  | borrow c => some c
  | tryAcquire c _ => some c
  | cloneSelf c _ => some c
  | _ => none

def polling : ArcOp → Option Ptr
  | poll a => some a
  | cloneArc a _ => some a
  | dropClone a => some a
  | _ => none

/-- The method owns a reference in a local variable. -/
def owns : ArcOp → Bool
  | dropClone _ => true
  | dropGuard => true
  | dropSemaphore => true
  | _ => false

def Frames : ArcOp → Frame ι → Prop
  | borrow _, _ => True
  | tryAcquire _ _, _ => True
  | poll _, _ => True
  | dropGuard, _ => True
  | dropInner a, f => f.dropping = some a
  | _, f => f.isIdle = true

end ArcOp

section Parts

variable [Usize] {ops : ι → ArcOp} {t : ι} {op : ArcOp}

structure Borrows (ops : ι → ArcOp) (borrowers : ℕ → Finset ι) (clones : Finset ℕ) : Prop where
  borrows : ∀ t c, (ops t).clone = some c → t ∈ borrowers c
  borrowed : ∀ t c, t ∈ borrowers c → c ∈ clones

structure Polls (ops : ι → ArcOp) (poller : Ptr → Option ι) (futures : Finset Ptr) : Prop where
  polls : ∀ t a, (ops t).polling = some a → poller a = some t
  polled : ∀ t a, poller a = some t → a ∈ futures

/-- `n` threads own a reference. -/
def Locals (ops : ι → ArcOp) (n : ℕ) : Prop :=
  ∃ l : Finset ι, l.card = n ∧ ∀ t, t ∈ l ↔ (ops t).owns = true

namespace Borrows

variable {borrowers : ℕ → Finset ι} {clones clones' : Finset ℕ} {c : ℕ}

theorem mono (h : Borrows ops borrowers clones) (hsub : ∀ c ∈ clones, c ∈ clones') :
    Borrows ops borrowers clones' :=
  ⟨h.borrows, fun t c ht => hsub c (h.borrowed t c ht)⟩

theorem erase (h : Borrows ops borrowers clones) (hc : borrowers c = ∅) :
    Borrows ops borrowers (clones.erase c) := by
  refine ⟨h.borrows, fun t d ht => Finset.mem_erase.mpr ⟨?_, h.borrowed t d ht⟩⟩
  rintro rfl
  simp [hc] at ht

variable [DecidableEq ι]

theorem still (h : Borrows ops borrowers clones) (hop : op.clone = (ops t).clone) :
    Borrows (update ops t op) borrowers clones := by
  refine ⟨fun u c hu => ?_, h.borrowed⟩
  by_cases hut : u = t
  · subst hut
    rw [update_self, hop] at hu
    exact h.borrows u c hu
  · rw [update_of_ne hut] at hu
    exact h.borrows u c hu

theorem take (h : Borrows ops borrowers clones) (hc : c ∈ clones) (hop : op.clone = some c) :
    Borrows (update ops t op) (update borrowers c (insert t (borrowers c))) clones := by
  constructor
  · intro u d hu
    by_cases hut : u = t
    · subst hut
      rw [update_self, hop] at hu
      obtain rfl := Option.some.inj hu
      rw [update_self]
      exact Finset.mem_insert_self ..
    · rw [update_of_ne hut] at hu
      by_cases hd : d = c
      · subst hd
        rw [update_self]
        exact Finset.mem_insert_of_mem (h.borrows u d hu)
      · rw [update_of_ne hd]
        exact h.borrows u d hu
  · intro u d hu
    by_cases hd : d = c
    · exact hd ▸ hc
    · rw [update_of_ne hd] at hu
      exact h.borrowed u d hu

theorem give (h : Borrows ops borrowers clones) (hop : op.clone = none) :
    Borrows (update ops t op) (update borrowers c ((borrowers c).erase t)) clones := by
  constructor
  · intro u d hu
    by_cases hut : u = t
    · subst hut
      rw [update_self, hop] at hu
      cases hu
    · rw [update_of_ne hut] at hu
      by_cases hd : d = c
      · subst hd
        rw [update_self]
        exact Finset.mem_erase.mpr ⟨hut, h.borrows u d hu⟩
      · rw [update_of_ne hd]
        exact h.borrows u d hu
  · intro u d hu
    by_cases hd : d = c
    · subst hd
      rw [update_self] at hu
      exact h.borrowed u d (Finset.mem_of_mem_erase hu)
    · rw [update_of_ne hd] at hu
      exact h.borrowed u d hu

end Borrows

namespace Polls

variable {poller : Ptr → Option ι} {futures : Finset Ptr} {a : Ptr}

theorem create (h : Polls ops poller futures) (ha : a ∉ futures) :
    Polls ops (update poller a none) (insert a futures) := by
  constructor
  · intro t b hb
    have hpoll := h.polls t b hb
    have hne : b ≠ a := by
      rintro rfl
      exact ha (h.polled t b hpoll)
    rwa [update_of_ne hne]
  · intro t b hb
    by_cases hba : b = a
    · exact hba ▸ Finset.mem_insert_self ..
    · rw [update_of_ne hba] at hb
      exact Finset.mem_insert_of_mem (h.polled t b hb)

theorem erase (h : Polls ops poller futures) (ha : poller a = none) :
    Polls ops poller (futures.erase a) := by
  refine ⟨h.polls, fun t b hb => Finset.mem_erase.mpr ⟨?_, h.polled t b hb⟩⟩
  rintro rfl
  rw [ha] at hb
  cases hb

variable [DecidableEq ι]

theorem still (h : Polls ops poller futures) (hop : op.polling = (ops t).polling) :
    Polls (update ops t op) poller futures := by
  refine ⟨fun u c hu => ?_, h.polled⟩
  by_cases hut : u = t
  · subst hut
    rw [update_self, hop] at hu
    exact h.polls u c hu
  · rw [update_of_ne hut] at hu
    exact h.polls u c hu

theorem take (h : Polls ops poller futures) (ha : a ∈ futures) (hnone : poller a = none)
    (hop : op.polling = some a) : Polls (update ops t op) (update poller a (some t)) futures := by
  constructor
  · intro u b hu
    by_cases hut : u = t
    · subst hut
      rw [update_self, hop] at hu
      obtain rfl := Option.some.inj hu
      exact update_self ..
    · rw [update_of_ne hut] at hu
      have hpoll := h.polls u b hu
      have hne : b ≠ a := by
        rintro rfl
        rw [hnone] at hpoll
        cases hpoll
      rwa [update_of_ne hne]
  · intro u b hu
    by_cases hb : b = a
    · exact hb ▸ ha
    · rw [update_of_ne hb] at hu
      exact h.polled u b hu

theorem give (h : Polls ops poller futures) (ht : (ops t).polling = some a)
    (hop : op.polling = none) : Polls (update ops t op) (update poller a none) futures := by
  constructor
  · intro u b hu
    by_cases hut : u = t
    · subst hut
      rw [update_self, hop] at hu
      cases hu
    · rw [update_of_ne hut] at hu
      have hpoll := h.polls u b hu
      have hne : b ≠ a := by
        rintro rfl
        exact hut (Option.some.inj (hpoll.symm.trans (h.polls t b ht)))
      rwa [update_of_ne hne]
  · intro u b hu
    by_cases hb : b = a
    · subst hb
      rw [update_self] at hu
      cases hu
    · rw [update_of_ne hb] at hu
      exact h.polled u b hu

end Polls

namespace Locals

variable {n : ℕ}

theorem pos (h : Locals ops n) (ht : (ops t).owns = true) : 1 ≤ n := by
  obtain ⟨l, rfl, hl⟩ := h
  exact Finset.card_pos.mpr ⟨t, (hl t).mpr ht⟩

variable [DecidableEq ι]

theorem still (h : Locals ops n) (hop : op.owns = (ops t).owns) : Locals (update ops t op) n := by
  obtain ⟨l, hn, hl⟩ := h
  refine ⟨l, hn, fun u => ?_⟩
  by_cases hut : u = t
  · subst hut
    rw [update_self, hop]
    exact hl u
  · rw [update_of_ne hut]
    exact hl u

theorem take (h : Locals ops n) (ht : (ops t).owns = false) (hop : op.owns = true) :
    Locals (update ops t op) (n + 1) := by
  obtain ⟨l, rfl, hl⟩ := h
  have hnot : t ∉ l := fun hm => by simp [(hl t).mp hm] at ht
  refine ⟨insert t l, Finset.card_insert_of_notMem hnot, fun u => ?_⟩
  by_cases hut : u = t
  · subst hut
    simp [hop]
  · rw [update_of_ne hut, Finset.mem_insert, hl u]
    simp [hut]

theorem give (h : Locals ops n) (ht : (ops t).owns = true) (hop : op.owns = false) :
    Locals (update ops t op) (n - 1) := by
  obtain ⟨l, rfl, hl⟩ := h
  refine ⟨l.erase t, Finset.card_erase_of_mem ((hl t).mpr ht), fun u => ?_⟩
  by_cases hut : u = t
  · subst hut
    simp [hop]
  · rw [update_of_ne hut, Finset.mem_erase, hl u]
    simp [hut]

end Locals

end Parts

end WeightedSemaphore
