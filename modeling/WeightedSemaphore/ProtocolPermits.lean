import WeightedSemaphore.ProtocolInvariant
import WeightedSemaphore.Lib.Sums

/-!
# Where the permits of a protocol run are

The permits in the acquire word, in the release word, with the lock owner, with the threads on their
way into `release`, with granted waiters and with guards sum up to what was put in. As long as this
leaves at most `cap` permits outside of the hands of users, no tally overflows.
-/

namespace WeightedSemaphore.Protocol

open Function (update)
open Sums

variable {ι ω : Type}

def Acq.permits : Acq ω → Tally
  | available p => p
  | queued _ => some 0

def Rel.permits : Rel → Tally
  | unlocked p => p
  | locked => some 0
  | lockedDirty p => p

def Role.permits : Role ω → Tally
  | releasing p _ => p
  | _ => some 0

def Life.granted (l : Life) (amount : ℕ) : ℕ := if l = .finished false then amount else 0

namespace State

def ownerPermits (a : State ι ω) : Tally :=
  match a.owner with
  | none => some 0
  | some o => o.releasable

def granted (a : State ι ω) : ℕ := ∑ x ∈ a.live, (a.life x).granted (a.amount x)

/-- All permits but those of the threads on their way into `release`. -/
def ledger (a : State ι ω) : ℕ :=
  a.acq.permits.count + a.rel.permits.count + a.ownerPermits.count + a.granted + a.held +
    History.forgotten a.hist

def CarriedBy (T : Finset ι) (a : State ι ω) : Prop := ∀ t ∉ T, (a.role t).permits = some 0

def Balanced (initial : ℕ) (a : State ι ω) : Prop :=
  ∃ T : Finset ι, a.CarriedBy T ∧
    a.ledger + ∑ t ∈ T, (a.role t).permits.count = initial + History.given a.hist

/-- At most `cap` permits are neither with guards nor with granted waiters. -/
def Budget (cap initial : ℕ) (a : State ι ω) : Prop :=
  initial + History.given a.hist ≤ cap + History.forgotten a.hist + a.held + a.granted

end State

structure Clean (a : State ι ω) : Prop where
  acq : a.acq.permits ≠ none
  rel : a.rel.permits ≠ none
  owner : ∀ o, a.owner = some o → o.releasable ≠ none
  role : ∀ t, (a.role t).permits ≠ none
  life : ∀ x, a.life x ≠ .finished true
  hist : ∀ u, .finished u true ∉ a.hist

variable [DecidableEq ι] {cap initial : ℕ} {a b : State ι ω} {t : ι} {x : ω}

namespace State.Balanced

theorem mem (h : a.Balanced initial) (t : ι) : ∃ T : Finset ι, t ∈ T ∧ a.CarriedBy T ∧
    a.ledger + ∑ u ∈ T, (a.role u).permits.count = initial + History.given a.hist := by
  obtain ⟨T, hT, heq⟩ := h
  have hT' : a.CarriedBy (insert t T) := fun u hu => hT u fun hm => hu (Finset.mem_insert_of_mem hm)
  refine ⟨insert t T, Finset.mem_insert_self t T, hT', ?_⟩
  rw [sum_support (fun u hu => by rw [hT' u hu]; rfl) (fun u hu => by rw [hT u hu]; rfl)]
  exact heq

/-- What one thread carries, and all that no thread carries, is part of the total. -/
theorem le (h : a.Balanced initial) (t : ι) :
    a.ledger + (a.role t).permits.count ≤ initial + History.given a.hist := by
  obtain ⟨T, ht, -, heq⟩ := h.mem t
  have := Finset.single_le_sum (f := fun u => (a.role u).permits.count)
    (fun _ _ => Nat.zero_le _) ht
  omega

omit [DecidableEq ι] in
theorem same (h : a.Balanced initial) (hrole : b.role = a.role)
    (heq : b.ledger + History.given a.hist = a.ledger + History.given b.hist) :
    b.Balanced initial := by
  obtain ⟨T, hT, hsum⟩ := h
  refine ⟨T, fun t ht => hrole ▸ hT t ht, ?_⟩
  rw [hrole]
  omega

theorem role {r : Role ω} (h : a.Balanced initial) (hrole : b.role = update a.role t r)
    (heq : b.ledger + r.permits.count + History.given a.hist =
      a.ledger + (a.role t).permits.count + History.given b.hist) : b.Balanced initial := by
  obtain ⟨T, ht, hT, hsum⟩ := h.mem t
  have hne : ∀ u, u ≠ t → b.role u = a.role u := fun u hu => by
    rw [hrole, Function.update_of_ne hu]
  refine ⟨T, fun u hu => ?_, ?_⟩
  · rw [hne u fun he => hu (he ▸ ht)]
    exact hT u hu
  · have hchange := sum_change (f := fun u => (b.role u).permits.count)
      (g := fun u => (a.role u).permits.count) ht fun u _ hu => by rw [hne u hu]
    have hself : (b.role t).permits.count = r.permits.count := by
      rw [hrole, Function.update_self]
    omega

end State.Balanced

section Granted

variable [DecidableEq ω] {l : Life}

omit [DecidableEq ι] in
theorem State.granted_update (hx : x ∈ a.live) (hlive : b.live = a.live)
    (hamount : b.amount = a.amount) (hlife : b.life = update a.life x l) :
    b.granted + (a.life x).granted (a.amount x) = a.granted + l.granted (a.amount x) := by
  have hchange := sum_change (f := fun y => (b.life y).granted (b.amount y))
    (g := fun y => (a.life y).granted (a.amount y)) hx fun y _ hy => by
      rw [hamount, hlife, Function.update_of_ne hy]
  rw [hamount, hlife, Function.update_self] at hchange
  unfold granted
  rw [hlive, hamount, hlife]
  exact hchange

omit [DecidableEq ι] in
theorem State.granted_same (hx : x ∈ a.live) (hlive : b.live = a.live)
    (hamount : b.amount = a.amount) (hlife : b.life = update a.life x l)
    (hl : l ≠ .finished false) (hl' : a.life x ≠ .finished false) : b.granted = a.granted := by
  have h := granted_update hx hlive hamount hlife
  simpa [Life.granted, hl, hl'] using h

omit [DecidableEq ι] in
theorem State.granted_create (hx : x ∉ a.live) (n : ℕ) (hlive : b.live = insert x a.live)
    (hamount : b.amount = update a.amount x n) (hlife : b.life = update a.life x .entering) :
    b.granted = a.granted := by
  unfold granted
  rw [hlive, hamount, hlife, Finset.sum_insert hx]
  simp only [Function.update_self, Life.granted, reduceCtorEq, if_false, Nat.zero_add]
  refine Finset.sum_congr rfl fun y hy => ?_
  have hne : y ≠ x := by rintro rfl; exact hx hy
  rw [Function.update_of_ne hne, Function.update_of_ne hne]

omit [DecidableEq ι] in
theorem State.granted_free (hl : a.life x ≠ .finished false) (hlive : b.live = a.live.erase x)
    (hamount : b.amount = a.amount) (hlife : b.life = update a.life x .absent) :
    b.granted = a.granted := by
  unfold granted
  rw [hlive, hamount, hlife, ← Finset.sum_erase (s := a.live) (a := x)]
  · refine Finset.sum_congr rfl fun y hy => ?_
    rw [Function.update_of_ne (Finset.ne_of_mem_erase hy)]
  · simp [Life.granted, hl]

end Granted

omit [DecidableEq ι] in
theorem Clean.init (h : initial ≤ cap) : Clean (State.init cap initial : State ι ω) where
  acq := by simp [State.init, Acq.permits, Tally.ofNat_of_le h]
  rel := by simp [State.init, Rel.permits]
  owner := by simp [State.init]
  role := by simp [State.init, Role.permits]
  life := by simp [State.init]
  hist := by simp [State.init]

omit [DecidableEq ι] in
theorem State.Balanced.init (h : initial ≤ cap) :
    (State.init cap initial : State ι ω).Balanced initial := by
  refine ⟨∅, fun t _ => rfl, ?_⟩
  simp [State.init, State.ledger, Acq.permits, Rel.permits, State.ownerPermits, State.granted,
    History.forgotten, History.given, Tally.ofNat_of_le h]

/-- The permits outside of the hands of users are within the capacity. -/
theorem State.Balanced.free_le (hb : a.Balanced initial) (hbud : a.Budget cap initial) (t : ι) :
    a.acq.permits.count + a.rel.permits.count + a.ownerPermits.count +
      (a.role t).permits.count ≤ cap := by
  have h := hb.le t
  unfold State.Budget at hbud
  unfold State.ledger at h
  omega

omit [DecidableEq ι] in
theorem ownerPermits_of_owner {o : Owner ι ω} (ho : a.owner = some o) :
    a.ownerPermits = o.releasable := by
  simp only [State.ownerPermits, ho]

omit [DecidableEq ι] in
theorem Clean.ownerPermits (hc : Clean a) : a.ownerPermits ≠ none := by
  unfold State.ownerPermits
  cases ho : a.owner with
  | none => simp
  | some o => exact hc.owner o ho

section Clean

variable [DecidableEq ω]

omit [DecidableEq ω] in
theorem Clean.set_role {r : Role ω} (hc : Clean a) (hr : r.permits ≠ none) (u : ι) :
    (update a.role t r u).permits ≠ none := by
  by_cases hu : u = t
  · subst hu; simpa using hr
  · rw [Function.update_of_ne hu]
    exact hc.role u

omit [DecidableEq ι] in
theorem Clean.set_life {l : Life} (hc : Clean a) (hl : l ≠ .finished true) (y : ω) :
    update a.life x l y ≠ .finished true := by
  by_cases hy : y = x
  · subst hy; simpa using hl
  · rw [Function.update_of_ne hy]
    exact hc.life y

omit [DecidableEq ι] [DecidableEq ω] in
theorem Clean.log {e : Event} (hc : Clean a) (he : ∀ u, e ≠ .finished u true) (u : ℕ) :
    .finished u true ∉ e :: a.hist := by
  simpa using ⟨(he u).symm, hc.hist u⟩

omit [DecidableEq ω] in
@[simp] theorem Role.permits_after (k : Option ω) : (Role.after k).permits = some 0 := by
  cases k <;> rfl

/-- Nothing is poisoned by a step within the budget. -/
theorem Clean.step (h : Step cap a b) (hc : Clean a) (hi : Inv a) (hb : a.Balanced initial)
    (hbud : a.Budget cap initial) (hbud' : b.Budget cap initial) (hpoison : .poison ∉ b.hist) :
    Clean b := by
  have hsum := hb.free_le hbud
  generalize hbb : b = b' at h
  cases h with
  | create x n hx => subst hbb; exact { hc with life := hc.set_life (by simp) }
  | free x hx hr => subst hbb; exact { hc with life := hc.set_life (by simp) }
  | retire x hx => subst hbb; exact { hc with life := hc.set_life (by simp) }
  | fast n m hacq hn =>
    subst hbb
    exact { hc with acq := by simp [Acq.permits], hist := hc.log (by simp) }
  | fastPoll x m hacq hx hn =>
    subst hbb
    exact { hc with
      acq := by simp [Acq.permits], life := hc.set_life (by simp), hist := hc.log (by simp) }
  | enter t x n pushed hr hx hacq =>
    subst hbb
    exact { hc with
      acq := by simp [Acq.permits]
      life := hc.set_life (by simp)
      role := hc.set_role (by simp [Role.permits])
      hist := hc.log (by simp) }
  | release t n hr =>
    have hle := hb.le t
    have hgr : b.granted = a.granted := by rw [hbb]; rfl
    simp only [State.Budget, hgr] at hbud'
    simp only [hbb, History.given, History.forgotten] at hbud'
    unfold State.ledger at hle
    have hn : Tally.ofNat cap n = some n := Tally.ofNat_of_le (by omega)
    subst hbb
    exact { hc with
      role := hc.set_role (by simp [Role.permits, hn]), hist := hc.log (by simp) }
  | poison t n hr hn => subst hbb; simp at hpoison
  | dropGuard t n hr hn =>
    have hle := hb.le t
    have hgr : b.granted = a.granted := by rw [hbb]; rfl
    simp only [State.Budget, hgr] at hbud'
    simp only [hbb] at hbud'
    unfold State.ledger at hle
    have hn : Tally.ofNat cap n = some n := Tally.ofNat_of_le (by omega)
    subst hbb
    exact { hc with role := hc.set_role (by simp [Role.permits, hn]) }
  | forget n hn => subst hbb; exact { hc with hist := hc.log (by simp) }
  | claim x p hx => subst hbb; exact { hc with life := hc.set_life (by simp) }
  | giveBack t x hr hx =>
    have hle := hb.le t
    have hgr : b.granted + _ = a.granted + _ := State.granted_update
      ((hi.live x).mpr (by simp [hx])) (by rw [hbb]) (by rw [hbb]) (by rw [hbb])
    simp only [hx, Life.granted, if_true, reduceCtorEq, if_false] at hgr
    unfold State.Budget at hbud'
    generalize b.granted = g at hbud' hgr
    simp only [hbb] at hbud'
    unfold State.ledger at hle
    have hn : Tally.ofNat cap (a.amount x) = some (a.amount x) := Tally.ofNat_of_le (by omega)
    subst hbb
    exact { hc with
      life := hc.set_life (by simp), role := hc.set_role (by simp [Role.permits, hn]) }
  | startCancel t x hr hx =>
    subst hbb
    exact { hc with
      life := hc.set_life (by simp)
      role := hc.set_role (by simp [Role.permits])
      hist := hc.log (by simp) }
  | pushCancel t x hr =>
    subst hbb
    exact { hc with role := hc.set_role (by simp [Role.permits]) }
  | waited t x hr hx =>
    subst hbb
    exact { hc with role := hc.set_role (by simp [Role.permits]) }
  | lock t p q after hr hrel =>
    have hp := hc.role t
    have hq := hc.rel
    have ht := hsum t
    rw [hr] at hp ht
    rw [hrel] at hq ht
    subst hbb
    refine { hc with
      rel := by simp [Rel.permits], role := hc.set_role (by simp [Role.permits]), owner := ?_ }
    rintro o ho
    obtain rfl := Option.some.inj ho
    have hadd := Tally.add_of_le cap hp hq (by omega)
    simp only [Role.permits, Rel.permits] at hadd
    simp [hadd]
  | deferLocked t p after hr hrel =>
    have hp := hc.role t
    rw [hr] at hp
    subst hbb
    exact { hc with rel := hp, role := hc.set_role (by simp) }
  | deferDirty t p q after hr hrel =>
    have hp := hc.role t
    have hq := hc.rel
    have ht := hsum t
    rw [hr] at hp ht
    rw [hrel] at hq ht
    subst hbb
    refine { hc with rel := ?_, role := hc.set_role (by simp) }
    have hadd := Tally.add_of_le cap hq hp (by omega)
    simp only [Role.permits, Rel.permits] at hadd
    simp [Rel.permits, hadd]
  | swap o ho hp =>
    subst hbb
    exact { hc with owner := by rintro _ ⟨⟩; exact hc.owner o ho }
  | flipAvailable o ho hp hacq hl =>
    subst hbb
    exact { hc with acq := hc.owner o ho, owner := by rintro _ ⟨⟩; simp }
  | flipAdd o q ho hp hacq =>
    have hq := hc.acq
    have hr := hc.owner o ho
    have ht := hsum o.thread
    rw [hacq] at hq ht
    rw [ownerPermits_of_owner ho] at ht
    subst hbb
    refine { hc with acq := ?_, owner := by rintro _ ⟨⟩; simp }
    have hadd := Tally.add_of_le cap hq hr (by omega)
    simp only [Acq.permits] at hadd
    simp [Acq.permits, hadd]
  | flipTake o pushed ho hp hacq hpush =>
    subst hbb
    exact { hc with acq := by simp [Acq.permits], owner := by rintro _ ⟨⟩; exact hc.owner o ho }
  | flipSkip o ho hp hacq hl =>
    subst hbb
    exact { hc with owner := by rintro _ ⟨⟩; exact hc.owner o ho }
  | unlink o x taken ho hp ht =>
    subst hbb
    exact { hc with owner := by rintro _ ⟨⟩; exact hc.owner o ho, hist := hc.log (by simp) }
  | accept o x ho hp =>
    subst hbb
    exact { hc with
      life := hc.set_life (by simp)
      owner := by rintro _ ⟨⟩; exact hc.owner o ho
      hist := hc.log (by simp) }
  | cancelled o ho hp ht =>
    subst hbb
    exact { hc with owner := by rintro _ ⟨⟩; exact hc.owner o ho }
  | grant o x linked n ho hp hl hx hr hn =>
    subst hbb
    exact { hc with
      life := hc.set_life (by simp), owner := by rintro _ ⟨⟩; simp, hist := hc.log (by simp) }
  | fail o x linked ho hp hl hx hr => exact absurd hr (hc.owner o ho)
  | stop o ho hp hbl =>
    subst hbb
    exact { hc with owner := by rintro _ ⟨⟩; exact hc.owner o ho }
  | relock o q ho hp hrel =>
    have hq := hc.rel
    have hr := hc.owner o ho
    have ht := hsum o.thread
    rw [hrel] at hq ht
    rw [ownerPermits_of_owner ho] at ht
    subst hbb
    refine { hc with rel := by simp [Rel.permits], owner := ?_ }
    rintro _ ⟨⟩
    have hadd := Tally.add_of_le cap hr hq (by omega)
    simp only [Rel.permits] at hadd
    simp [hadd]
  | unlock o after ho hp hrel hr =>
    subst hbb
    exact { hc with
      rel := hc.owner o ho, owner := by simp, role := hc.set_role (by simp) }

/-- No permit is lost or duplicated. -/
theorem State.Balanced.step (h : Step cap a b) (hb : a.Balanced initial) (hi : Inv a)
    (hc : Clean a) (hc' : Clean b) (hpoison : .poison ∉ b.hist) : b.Balanced initial := by
  -- `b` stays a variable, so that its sum can be rewritten as a whole
  obtain ⟨b', hbb⟩ : ∃ b', b = b' := ⟨b, rfl⟩
  rw [hbb] at h
  cases h with
  | create x n hx =>
    have hgr := State.granted_create (a := a) (b := b) (x := x) (by simp [hi.live, hx]) n
      (by rw [hbb]) (by rw [hbb]) (by rw [hbb])
    refine hb.same (by rw [hbb]) ?_
    simp only [ledger, hgr]
    simp only [hbb, ownerPermits]
  | free x hx hr =>
    have hne : a.life x ≠ .finished false := by rintro he; simp [he] at hx
    have hgr := State.granted_free (b := b) hne (by rw [hbb]) (by rw [hbb]) (by rw [hbb])
    refine hb.same (by rw [hbb]) ?_
    simp only [ledger, hgr]
    simp only [hbb, ownerPermits]
  | retire x hx =>
    have hgr := State.granted_same (b := b) ((hi.live x).mpr (by simp [hx])) (by rw [hbb])
      (by rw [hbb]) (by rw [hbb]) (by simp) (by simp [hx])
    refine hb.same (by rw [hbb]) ?_
    simp only [ledger, hgr]
    simp only [hbb, ownerPermits]
  | fast n m hacq hn =>
    have hgr : b.granted = a.granted := by rw [hbb]; rfl
    refine hb.same (by rw [hbb]) ?_
    simp only [ledger, hgr]
    simp only [hbb, ownerPermits, hacq, Acq.permits, Tally.count_some,
      History.given, History.forgotten]
    omega
  | fastPoll x m hacq hx hn =>
    have hgr := State.granted_same (b := b) ((hi.live x).mpr (by simp [hx])) (by rw [hbb])
      (by rw [hbb]) (by rw [hbb]) (by simp) (by simp [hx])
    refine hb.same (by rw [hbb]) ?_
    simp only [ledger, hgr]
    simp only [hbb, ownerPermits, hacq, Acq.permits, Tally.count_some,
      History.given, History.forgotten]
    omega
  | enter t x n pushed hr hx hacq =>
    have hgr := State.granted_same (b := b) ((hi.live x).mpr (by simp [hx])) (by rw [hbb])
      (by rw [hbb]) (by rw [hbb]) (by simp) (by simp [hx])
    have hn : a.acq.permits.count = n := by
      rcases hacq with ⟨h, -, -⟩ | ⟨h, rfl⟩ <;> simp [h, Acq.permits]
    refine hb.role (t := t) (by rw [hbb]) ?_
    simp only [ledger, hgr, hn]
    simp only [hbb, ownerPermits, hr, Acq.permits, Role.permits,
      Tally.count_some, History.given, History.forgotten]
    omega
  | release t n hr =>
    have hgr : b.granted = a.granted := by rw [hbb]; rfl
    have hp := hc'.role t
    simp only [hbb, Function.update_self, Role.permits] at hp
    refine hb.role (t := t) (by rw [hbb]) ?_
    simp only [ledger, hgr]
    simp only [hbb, ownerPermits, hr, Role.permits, Tally.count_ofNat hp,
      Tally.count_some, History.given, History.forgotten]
    omega
  | poison t n hr hn => simp [hbb] at hpoison
  | dropGuard t n hr hn =>
    have hgr : b.granted = a.granted := by rw [hbb]; rfl
    have hp := hc'.role t
    simp only [hbb, Function.update_self, Role.permits] at hp
    refine hb.role (t := t) (by rw [hbb]) ?_
    simp only [ledger, hgr]
    simp only [hbb, ownerPermits, hr, Role.permits, Tally.count_ofNat hp,
      Tally.count_some]
    omega
  | forget n hn =>
    have hgr : b.granted = a.granted := by rw [hbb]; rfl
    refine hb.same (by rw [hbb]) ?_
    simp only [ledger, hgr]
    simp only [hbb, ownerPermits, History.given, History.forgotten]
    omega
  | claim x p hx =>
    have hgr := State.granted_update (b := b) ((hi.live x).mpr (by simp [hx])) (by rw [hbb])
      (by rw [hbb]) (by rw [hbb])
    have hp : p = false := by
      cases p with
      | false => rfl
      | true => exact absurd hx (hc.life x)
    refine hb.same (by rw [hbb]) ?_
    simp only [hx, hp, Life.granted, if_true, reduceCtorEq, if_false] at hgr
    simp only [ledger]
    generalize b.granted = g at hgr ⊢
    simp only [hbb, ownerPermits, hp, Bool.false_eq_true, if_false]
    omega
  | giveBack t x hr hx =>
    have hgr := State.granted_update (b := b) ((hi.live x).mpr (by simp [hx])) (by rw [hbb])
      (by rw [hbb]) (by rw [hbb])
    have hp := hc'.role t
    simp only [hbb, Function.update_self, Role.permits] at hp
    refine hb.role (t := t) (by rw [hbb]) ?_
    simp only [hx, Life.granted, if_true, reduceCtorEq, if_false] at hgr
    simp only [ledger]
    generalize b.granted = g at hgr ⊢
    simp only [hbb, ownerPermits, hr, Role.permits, Tally.count_ofNat hp, Tally.count_some]
    omega
  | startCancel t x hr hx =>
    have hgr := State.granted_same (b := b) ((hi.live x).mpr (by simp [hx])) (by rw [hbb])
      (by rw [hbb]) (by rw [hbb]) (by simp) (by simp [hx])
    refine hb.role (t := t) (by rw [hbb]) ?_
    simp only [ledger, hgr]
    simp only [hbb, ownerPermits, hr, Role.permits, History.given,
      History.forgotten]
  | pushCancel t x hr =>
    have hgr : b.granted = a.granted := by rw [hbb]; rfl
    refine hb.role (t := t) (by rw [hbb]) ?_
    simp only [ledger, hgr]
    simp only [hbb, ownerPermits, hr, Role.permits]
  | waited t x hr hx =>
    have hgr : b.granted = a.granted := by rw [hbb]; rfl
    refine hb.role (t := t) (by rw [hbb]) ?_
    simp only [ledger, hgr]
    simp only [hbb, ownerPermits, hr, Role.permits]
  | lock t p q after hr hrel =>
    have hgr : b.granted = a.granted := by rw [hbb]; rfl
    have ho : a.owner = none := hi.lock.owner_none.mpr ⟨q, hrel⟩
    have hp := hc'.owner _ (by rw [hbb])
    refine hb.role (t := t) (by rw [hbb]) ?_
    simp only [ledger, hgr]
    simp only [hbb, ownerPermits, ho, hr, hrel, Role.permits, Rel.permits,
      Tally.count_add hp, Tally.count_some]
    omega
  | deferLocked t p after hr hrel =>
    have hgr : b.granted = a.granted := by rw [hbb]; rfl
    refine hb.role (t := t) (by rw [hbb]) ?_
    simp only [ledger, hgr]
    simp only [hbb, ownerPermits, hr, hrel, Role.permits_after, Rel.permits,
      Tally.count_some]
    simp only [Role.permits]
    omega
  | deferDirty t p q after hr hrel =>
    have hgr : b.granted = a.granted := by rw [hbb]; rfl
    have hp := hc'.rel
    simp only [hbb, Rel.permits] at hp
    refine hb.role (t := t) (by rw [hbb]) ?_
    simp only [ledger, hgr]
    simp only [hbb, ownerPermits, hr, hrel, Role.permits_after, Rel.permits,
      Tally.count_add hp, Tally.count_some]
    simp only [Role.permits]
    omega
  | swap o ho hp =>
    have hgr : b.granted = a.granted := by rw [hbb]; rfl
    refine hb.same (by rw [hbb]) ?_
    simp only [ledger, hgr]
    simp only [hbb, ownerPermits, ho]
  | flipAvailable o ho hp hacq hl =>
    have hgr : b.granted = a.granted := by rw [hbb]; rfl
    refine hb.same (by rw [hbb]) ?_
    simp only [ledger, hgr]
    simp only [hbb, ownerPermits, ho, hacq, Acq.permits, Tally.count_some]
    omega
  | flipAdd o q ho hp hacq =>
    have hgr : b.granted = a.granted := by rw [hbb]; rfl
    have hq := hc'.acq
    simp only [hbb, Acq.permits] at hq
    refine hb.same (by rw [hbb]) ?_
    simp only [ledger, hgr]
    simp only [hbb, ownerPermits, ho, hacq, Acq.permits, Tally.count_add hq,
      Tally.count_some]
    omega
  | flipTake o pushed ho hp hacq hpush =>
    have hgr : b.granted = a.granted := by rw [hbb]; rfl
    refine hb.same (by rw [hbb]) ?_
    simp only [ledger, hgr]
    simp only [hbb, ownerPermits, ho, hacq, Acq.permits]
  | flipSkip o ho hp hacq hl =>
    have hgr : b.granted = a.granted := by rw [hbb]; rfl
    refine hb.same (by rw [hbb]) ?_
    simp only [ledger, hgr]
    simp only [hbb, ownerPermits, ho]
  | unlink o x taken ho hp ht =>
    have hgr : b.granted = a.granted := by rw [hbb]; rfl
    refine hb.same (by rw [hbb]) ?_
    simp only [ledger, hgr]
    simp only [hbb, ownerPermits, ho, History.given, History.forgotten]
  | accept o x ho hp =>
    have hx : a.life x = .cancelling :=
      hi.accepting_life (by simp [accepting_of_owner ho, hp, Phase.accepting])
    have hgr := State.granted_same (b := b) ((hi.live x).mpr (by simp [hx])) (by rw [hbb])
      (by rw [hbb]) (by rw [hbb]) (by simp) (by simp [hx])
    refine hb.same (by rw [hbb]) ?_
    simp only [ledger, hgr]
    simp only [hbb, ownerPermits, ho, History.given, History.forgotten]
  | cancelled o ho hp ht =>
    have hgr : b.granted = a.granted := by rw [hbb]; rfl
    refine hb.same (by rw [hbb]) ?_
    simp only [ledger, hgr]
    simp only [hbb, ownerPermits, ho]
  | grant o x linked n ho hp hl hx hr hn =>
    have hgr := State.granted_update (b := b) ((hi.live x).mpr (by simp [hx])) (by rw [hbb])
      (by rw [hbb]) (by rw [hbb])
    refine hb.same (by rw [hbb]) ?_
    simp only [hx, Life.granted, if_true, reduceCtorEq, if_false] at hgr
    simp only [ledger]
    generalize b.granted = g at hgr ⊢
    simp only [hbb, ownerPermits, ho, hr, Tally.count_some, History.given, History.forgotten]
    omega
  | fail o x linked ho hp hl hx hr => exact absurd hr (hc.owner o ho)
  | stop o ho hp hbl =>
    have hgr : b.granted = a.granted := by rw [hbb]; rfl
    refine hb.same (by rw [hbb]) ?_
    simp only [ledger, hgr]
    simp only [hbb, ownerPermits, ho]
  | relock o q ho hp hrel =>
    have hgr : b.granted = a.granted := by rw [hbb]; rfl
    have hq := hc'.owner _ (by rw [hbb])
    refine hb.same (by rw [hbb]) ?_
    simp only [ledger, hgr]
    simp only [hbb, ownerPermits, ho, hrel, Rel.permits, Tally.count_add hq,
      Tally.count_some]
    omega
  | unlock o after ho hp hrel hr =>
    have hgr : b.granted = a.granted := by rw [hbb]; rfl
    refine hb.role (t := o.thread) (by rw [hbb]) ?_
    simp only [ledger, hgr]
    simp only [hbb, ownerPermits, ho, hrel, hr, Rel.permits, Role.permits_after,
      Tally.count_some]
    simp only [Role.permits, Tally.count_some]
    omega

end Clean

end WeightedSemaphore.Protocol
