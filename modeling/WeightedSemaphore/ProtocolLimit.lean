import WeightedSemaphore.ProtocolPermits

/-!
# No permit comes from nowhere

When the semaphore is poisoned, permits get lost: an overflow forgets a count, and a guard that is
dropped by a panic gives nothing back. In every run of the protocol, poisoned or not, what is there
is at most what was put in.
-/

namespace WeightedSemaphore.Protocol

open Function (update)
open Sums

variable {ι ω : Type}

/-- As `State.Balanced`, but permits may have been lost. -/
def State.Covered (initial : ℕ) (a : State ι ω) : Prop :=
  ∃ T : Finset ι, a.CarriedBy T ∧
    a.ledger + ∑ t ∈ T, (a.role t).permits.count ≤ initial + History.given a.hist

variable [DecidableEq ι] {cap initial : ℕ} {a b : State ι ω} {t : ι} {x : ω}

def State.ungranted (a : State ι ω) : ℕ :=
  a.acq.permits.count + a.rel.permits.count + a.ownerPermits.count + a.held +
    History.forgotten a.hist

omit [DecidableEq ι] in
theorem State.ledger_eq (a : State ι ω) : a.ledger = a.ungranted + a.granted := by
  unfold ledger ungranted
  omega

namespace State.Covered

omit [DecidableEq ι] in
theorem init (cap initial : ℕ) : (State.init cap initial : State ι ω).Covered initial := by
  refine ⟨∅, fun t _ => rfl, ?_⟩
  have hcount := Tally.count_ofNat_le cap initial
  simpa [State.init, ledger, Acq.permits, Rel.permits, ownerPermits, granted, History.forgotten,
    History.given] using hcount

omit [DecidableEq ι] in
theorem same_of {m n : ℕ} (h : a.Covered initial) (hrole : b.role = a.role)
    (hgr : b.granted + m = a.granted + n)
    (hle : b.ungranted + n + History.given a.hist ≤ a.ungranted + m + History.given b.hist) :
    b.Covered initial := by
  obtain ⟨T, hT, hsum⟩ := h
  refine ⟨T, fun t ht => hrole ▸ hT t ht, ?_⟩
  rw [ledger_eq] at hsum ⊢
  rw [hrole]
  omega

omit [DecidableEq ι] in
theorem same (h : a.Covered initial) (hrole : b.role = a.role) (hgr : b.granted = a.granted)
    (hle : b.ungranted + History.given a.hist ≤ a.ungranted + History.given b.hist) :
    b.Covered initial :=
  h.same_of hrole (congrArg (· + 0) hgr) hle

theorem role_of {m n : ℕ} {r : Role ω} (h : a.Covered initial) (hrole : b.role = update a.role t r)
    (hgr : b.granted + m = a.granted + n)
    (hle : b.ungranted + n + r.permits.count + History.given a.hist ≤
      a.ungranted + m + (a.role t).permits.count + History.given b.hist) : b.Covered initial := by
  obtain ⟨T, hT, hsum⟩ := h
  have hne : ∀ u, u ≠ t → b.role u = a.role u := fun u hu => by
    rw [hrole, Function.update_of_ne hu]
  have hself : b.role t = r := by rw [hrole, Function.update_self]
  have hT' : a.CarriedBy (insert t T) := fun u hu => hT u fun hm => hu (Finset.mem_insert_of_mem hm)
  have hsupport : ∑ u ∈ insert t T, (a.role u).permits.count = ∑ u ∈ T, (a.role u).permits.count :=
    sum_support (fun u hu => by rw [hT' u hu]; rfl) fun u hu => by rw [hT u hu]; rfl
  have hchange := sum_change (f := fun u => (b.role u).permits.count)
    (g := fun u => (a.role u).permits.count) (Finset.mem_insert_self t T)
    fun u _ hu => by rw [hne u hu]
  refine ⟨insert t T, fun u hu => ?_, ?_⟩
  · rw [hne u fun he => hu (he ▸ Finset.mem_insert_self t T)]
    exact hT' u hu
  · rw [ledger_eq] at hsum ⊢
    rw [hself] at hchange
    omega

theorem role {r : Role ω} (h : a.Covered initial) (hrole : b.role = update a.role t r)
    (hgr : b.granted = a.granted)
    (hle : b.ungranted + r.permits.count + History.given a.hist ≤
      a.ungranted + (a.role t).permits.count + History.given b.hist) : b.Covered initial :=
  h.role_of hrole (congrArg (· + 0) hgr) hle

variable [DecidableEq ω]

/-- Only `release` puts permits in. -/
theorem step (h : Step cap a b) (hb : a.Covered initial) (hi : Inv a) : b.Covered initial := by
  have hlive {x : ω} {l : Life} (hx : a.life x = l) (hl : l ≠ .absent) : x ∈ a.live :=
    (hi.live x).mpr (hx ▸ hl)
  cases h with
  | create x n hx =>
    refine hb.same rfl (granted_create (by simp [hi.live, hx]) n rfl rfl rfl) ?_
    simp only [ungranted, ownerPermits, le_refl]
  | free x hx hr =>
    have hne : a.life x ≠ .finished false := by rintro he; simp [he] at hx
    refine hb.same rfl (granted_free hne rfl rfl rfl) ?_
    simp only [ungranted, ownerPermits, le_refl]
  | retire x hx =>
    refine hb.same rfl (granted_same (hlive hx (by simp)) rfl rfl rfl (by simp) (by simp [hx])) ?_
    simp only [ungranted, ownerPermits, le_refl]
  | fast n m hacq hn =>
    refine hb.same rfl rfl ?_
    simp only [ungranted, ownerPermits, hacq, Acq.permits, Tally.count_some, History.given,
      History.forgotten]
    omega
  | fastPoll x m hacq hx hn =>
    refine hb.same rfl (granted_same (hlive hx (by simp)) rfl rfl rfl (by simp) (by simp [hx])) ?_
    simp only [ungranted, ownerPermits, hacq, Acq.permits, Tally.count_some, History.given,
      History.forgotten]
    omega
  | enter t x n pushed hr hx hacq =>
    have hn : a.acq.permits.count = n := by
      rcases hacq with ⟨h, -, -⟩ | ⟨h, rfl⟩ <;> simp [h, Acq.permits]
    refine hb.role (t := t) rfl
      (granted_same (hlive hx (by simp)) rfl rfl rfl (by simp) (by simp [hx])) ?_
    simp only [ungranted, hn]
    simp only [ownerPermits, hr, Acq.permits, Role.permits, Tally.count_some, History.given,
      History.forgotten]
    omega
  | release t n hr =>
    have hle := Tally.count_ofNat_le cap n
    refine hb.role (t := t) rfl rfl ?_
    simp only [ungranted, ownerPermits, hr, Role.permits, Tally.count_some, History.given,
      History.forgotten]
    omega
  | poison t n hr hn =>
    -- the permits of the guard are lost
    have hnone : Tally.count none = 0 := rfl
    refine hb.role (t := t) rfl rfl ?_
    simp only [ungranted, ownerPermits, hr, Role.permits, hnone, Tally.count_some, History.given,
      History.forgotten]
    omega
  | dropGuard t n hr hn =>
    have hle := Tally.count_ofNat_le cap n
    refine hb.role (t := t) rfl rfl ?_
    simp only [ungranted, ownerPermits, hr, Role.permits, Tally.count_some]
    omega
  | forget n hn =>
    refine hb.same rfl rfl ?_
    simp only [ungranted, ownerPermits, History.given, History.forgotten]
    omega
  | claim x p hx =>
    refine hb.same_of rfl (granted_update (hlive hx (by simp)) rfl rfl rfl) ?_
    simp only [ungranted, ownerPermits, hx]
    cases p with
    | false =>
      simp only [Life.granted, if_true, reduceCtorEq, if_false, Bool.false_eq_true]
      omega
    | true =>
      simp only [Life.granted, Life.finished.injEq, reduceCtorEq, if_true, if_false]
      omega
  | giveBack t x hr hx =>
    have hle := Tally.count_ofNat_le cap (a.amount x)
    refine hb.role_of (t := t) rfl (granted_update (hlive hx (by simp)) rfl rfl rfl) ?_
    simp only [ungranted, ownerPermits, hx, hr, Life.granted, if_true, reduceCtorEq, if_false,
      Role.permits, Tally.count_some]
    omega
  | startCancel t x hr hx =>
    refine hb.role (t := t) rfl
      (granted_same (hlive hx (by simp)) rfl rfl rfl (by simp) (by simp [hx])) ?_
    simp only [ungranted, ownerPermits, hr, Role.permits, History.given, History.forgotten, le_refl]
  | pushCancel t x hr =>
    refine hb.role (t := t) rfl rfl ?_
    simp only [ungranted, ownerPermits, hr, Role.permits, le_refl]
  | waited t x hr hx =>
    refine hb.role (t := t) rfl rfl ?_
    simp only [ungranted, ownerPermits, hr, Role.permits, le_refl]
  | lock t p q after hr hrel =>
    have ho : a.owner = none := hi.lock.owner_none.mpr ⟨q, hrel⟩
    have hle := Tally.count_add_le cap p q
    refine hb.role (t := t) rfl rfl ?_
    simp only [ungranted, ownerPermits, ho, hr, hrel, Role.permits, Rel.permits, Tally.count_some]
    omega
  | deferLocked t p after hr hrel =>
    refine hb.role (t := t) rfl rfl ?_
    simp only [ungranted, ownerPermits, hr, hrel, Role.permits_after, Rel.permits, Tally.count_some]
    simp only [Role.permits]
    omega
  | deferDirty t p q after hr hrel =>
    have hle := Tally.count_add_le cap q p
    refine hb.role (t := t) rfl rfl ?_
    simp only [ungranted, ownerPermits, hr, hrel, Role.permits_after, Rel.permits, Tally.count_some]
    simp only [Role.permits]
    omega
  | flipAvailable o ho hp hacq hl =>
    refine hb.same rfl rfl ?_
    simp only [ungranted, ownerPermits, ho, hacq, Acq.permits, Tally.count_some]
    omega
  | flipAdd o q ho hp hacq =>
    have hle := Tally.count_add_le cap q o.releasable
    refine hb.same rfl rfl ?_
    simp only [ungranted, ownerPermits, ho, hacq, Acq.permits, Tally.count_some]
    omega
  | flipTake o pushed ho hp hacq hpush =>
    refine hb.same rfl rfl ?_
    simp only [ungranted, ownerPermits, ho, hacq, Acq.permits, le_refl]
  | accept o x ho hp =>
    have hx : a.life x = .cancelling :=
      hi.accepting_life (by simp [accepting_of_owner ho, hp, Phase.accepting])
    refine hb.same rfl (granted_same (hlive hx (by simp)) rfl rfl rfl (by simp) (by simp [hx])) ?_
    simp only [ungranted, ownerPermits, ho, History.given, History.forgotten, le_refl]
  | grant o x linked n ho hp hl hx hr hn =>
    refine hb.same_of rfl (granted_update (hlive hx (by simp)) rfl rfl rfl) ?_
    simp only [ungranted, ownerPermits, hx, ho, hr, Life.granted, if_true, reduceCtorEq, if_false,
      Tally.count_some, History.given, History.forgotten]
    omega
  | fail o x linked ho hp hl hx hr =>
    refine hb.same rfl (granted_same (hlive hx (by simp)) rfl rfl rfl (by simp) (by simp [hx])) ?_
    simp only [ungranted, ownerPermits, History.given, History.forgotten, le_refl]
  | relock o q ho hp hrel =>
    have hle := Tally.count_add_le cap o.releasable q
    refine hb.same rfl rfl ?_
    simp only [ungranted, ownerPermits, ho, hrel, Rel.permits, Tally.count_some]
    omega
  | unlock o after ho hp hrel hr =>
    refine hb.role (t := o.thread) rfl rfl ?_
    simp only [ungranted, ownerPermits, ho, hrel, hr, Rel.permits, Role.permits_after,
      Tally.count_some]
    simp only [Role.permits, Tally.count_some]
    omega
  | unlink o x taken ho hp ht =>
    refine hb.same rfl rfl ?_
    simp only [ungranted, ownerPermits, ho, History.given, History.forgotten, le_refl]
  | _ o ho =>
    -- the lock owner goes on to its next phase
    refine hb.same rfl rfl ?_
    simp only [ungranted, ownerPermits, ho, le_refl]

end State.Covered

end WeightedSemaphore.Protocol
