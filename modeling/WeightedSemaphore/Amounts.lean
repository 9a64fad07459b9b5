import WeightedSemaphore.Refinement

/-!
# Sums and differences of permits

However amounts are added up, and through whichever words the partial sums pass, the result stands
for the exact sum, or is poison when that exceeds `maxAvailable`. And a requested amount is only
subtracted from a count that covers it.
-/

namespace WeightedSemaphore

open Function (update update_self)
open Packable (encode decode)
open AtomicWaker (FinishPc)

section

variable [Usize]

namespace Permits

theorem val_add_le (p q : Permits) : (p + q).val ≤ usizeMax := Nat.min_le_right ..

theorem val_canon_le (p : Permits) : p.canon.val ≤ usizeMax := by
  have hlt := maxAvailable_lt_usizeMax
  unfold canon
  cases h : p.intoUsize with
  | none => exact le_rfl
  | some n =>
    have hn := (intoUsize_eq_some.mp h).2
    change n ≤ usizeMax
    omega

end Permits

section Sums

inductive Slot
  | unlocked
  | lockedDirty
  | available
  deriving DecidableEq

def Slot.reload (p : Permits) : Slot → Option Permits
  | unlocked =>
    match (decode (encode (ReleaseState.unlocked p)) : Option ReleaseState) with
    | some (.unlocked q) => some q
    | _ => none
  | lockedDirty =>
    match (decode (encode (ReleaseState.lockedDirty p)) : Option ReleaseState) with
    | some (.lockedDirty q) => some q
    | _ => none
  | available =>
    match (decode (encode (AcquireState.available p)) : Option AcquireState) with
    | some (.available q) => some q
    | _ => none

theorem Slot.reload_eq (slot : Slot) (p : Permits) : slot.reload p = some p.canon := by
  cases slot <;> rw [reload, Packable.decode_encode] <;> rfl

/-- A way to add up amounts: an order, a bracketing, and the words that partial sums pass. -/
inductive Summation
  | amount (n : ℕ) (h : n ≤ usizeMax)
  | add (left right : Summation)
  | store (slot : Slot) (sum : Summation)

namespace Summation

def amounts : Summation → List ℕ
  | amount n _ => [n]
  | add left right => left.amounts ++ right.amounts
  | store _ sum => sum.amounts

def eval : Summation → Option Permits
  | amount n _ => some (Permits.new n)
  | add left right => do
    let p ← left.eval
    let q ← right.eval
    return p + q
  | store slot sum => do
    let p ← sum.eval
    slot.reload p

/-- The induction is on the bracketing: saturation, overflow past `maxAvailable` and the collapse of
poison in a word all commute with the capped sum of what was added so far. -/
theorem eval_eq (e : Summation) : ∃ p, e.eval = some p ∧ p.val ≤ usizeMax ∧
    p.intoUsize = Tally.ofNat maxAvailable e.amounts.sum := by
  induction e with
  | amount n h =>
    refine ⟨Permits.new n, rfl, h, ?_⟩
    rw [Permits.intoUsize_new, amounts, List.sum_singleton]
  | add left right ihl ihr =>
    obtain ⟨p, hp, -, hpsum⟩ := ihl
    obtain ⟨q, hq, -, hqsum⟩ := ihr
    refine ⟨p + q, by simp [eval, hp, hq], Permits.val_add_le p q, ?_⟩
    rw [Permits.intoUsize_add, hpsum, hqsum, Tally.ofNat_add, amounts, List.sum_append]
  | store slot sum ih =>
    obtain ⟨p, hp, -, hpsum⟩ := ih
    refine ⟨p.canon, ?_, Permits.val_canon_le p, ?_⟩
    · simp [eval, hp, Slot.reload_eq]
    · rw [Permits.intoUsize_canon, hpsum, amounts]

end Summation

end Sums

section Differences

variable {ι : Type}

/-- The count, and the requested amount to be subtracted from it, in the next step of `t`: in
`try_acquire`, in `poll_enter`, and at the end of `try_pop`. -/
def Sys.subtraction (s : Sys ι) (t : ι) : Option (ℕ × ℕ) :=
  match s.frames t with
  | .tryAcquire amount (.loop (.available available)) =>
    match available.intoUsize with
    | none => none
    | some n => if n < amount then none else some (n, amount)
  | .pollEnter a (.loop (.available available)) =>
    match available.intoUsize with
    | none => none
    | some n => if s.mem.amount a ≤ n then some (n, s.mem.amount a) else none
  | .release _ _ (.finish pop _) => pop.releasable.map fun n => (n, pop.amount)
  | _ => none

variable [DecidableEq ι]

structure Sys.Debits (s : Sys ι) (t : ι) (s' : Sys ι) : Prop where
  try_acquire : ∀ k pc, s.frames t = .tryAcquire k pc → s'.frames t = .idle .acquired →
    ∃ n m, s.subtraction t = some (n, k) ∧ s.sem.acquire.load = .available (Permits.new n) ∧
      s'.sem.acquire.load = .available (Permits.new m) ∧ m + k = n
  poll_enter : ∀ a pc, s.frames t = .pollEnter a pc → s'.frames t = .idle .ready →
    ∃ n m, s.subtraction t = some (n, s.mem.amount a) ∧
      s.sem.acquire.load = .available (Permits.new n) ∧
      s'.sem.acquire.load = .available (Permits.new m) ∧ m + s.mem.amount a = n
  try_pop : ∀ r ret pop pc r' pc' n, s.frames t = .release r ret (.finish pop pc) →
    s'.frames t = .release r' ret pc' → (∃ data vtable, pc' = .wake pop data vtable) ∨
      pc' = .relink pop → r.intoUsize = some n →
    ∃ m, s.subtraction t = some (n, s.mem.amount pop.front) ∧ r' = Permits.new m ∧
      m + s.mem.amount pop.front = n

variable {s s' : Sys ι} {t : ι} {spurious : Bool} {initial : ℕ}

omit [DecidableEq ι] in
theorem Permits.canon_of_intoUsize {p : Permits} {n : ℕ} (h : p.intoUsize = some n) :
    p.canon = Permits.new n := by
  rw [canon, h]

theorem AcquireState.taken {word word' : Atomic AcquireState} {available : Permits} {n k : ℕ}
    (h : available.intoUsize = some n) (hk : k ≤ n)
    (hx : word.cmpxchgWeak (.available available) (.available (Permits.new (n - k))) spurious =
      some word') :
    ∃ m, word.load = .available (Permits.new n) ∧ word'.load = .available (Permits.new m) ∧
      m + k = n := by
  obtain ⟨hload, rfl, -⟩ := Atomic.cmpxchgWeak_eq_some hx
  have hn := (Permits.intoUsize_eq_some.mp h).2
  have hm : (Permits.new (n - k)).intoUsize = some (n - k) := if_pos (by omega : n - k ≤ _)
  refine ⟨n - k, ?_, ?_, by omega⟩
  · rw [hload, Atomic.load_new]
    exact congrArg AcquireState.available (Permits.canon_of_intoUsize h)
  · rw [Atomic.load_new]
    exact congrArg AcquireState.available (Permits.canon_of_intoUsize hm)

namespace Sys

theorem tryAcquire_debits {k : ℕ} {pc : TryAcquirePc} (hf : s.frames t = .tryAcquire k pc)
    (hret : (s.tryAcquire t k spurious pc).frames t = .idle .acquired) :
    ∃ n m, s.subtraction t = some (n, k) ∧ s.sem.acquire.load = .available (Permits.new n) ∧
      (s.tryAcquire t k spurious pc).sem.acquire.load = .available (Permits.new m) ∧
      m + k = n := by
  cases pc with
  | load => simp [tryAcquire, goto] at hret
  | loop current =>
    cases current with
    | queued back => simp [tryAcquire, goto] at hret
    | available available =>
      simp only [tryAcquire] at hret ⊢
      cases hq : available.intoUsize with
      | none => simp [hq, goto] at hret
      | some n =>
        simp only [hq] at hret ⊢
        split_ifs at hret ⊢ with hlt
        · simp [goto] at hret
        · cases hx : s.sem.acquire.cmpxchgWeak (.available available)
            (.available (Permits.new (n - k))) spurious with
          | none => simp [hx, goto] at hret
          | some acquire =>
            obtain ⟨m, hload, hload', hm⟩ := AcquireState.taken hq (by omega) hx
            refine ⟨n, m, ?_, hload, hload', hm⟩
            simp [subtraction, hf, hq, hlt]

theorem pollEnter_debits {a : Ptr} {pc : EnterPc} (hf : s.frames t = .pollEnter a pc)
    (hret : (s.pollEnter t a spurious pc).frames t = .idle .ready) :
    ∃ n m, s.subtraction t = some (n, s.mem.amount a) ∧
      s.sem.acquire.load = .available (Permits.new n) ∧
      (s.pollEnter t a spurious pc).sem.acquire.load = .available (Permits.new m) ∧
      m + s.mem.amount a = n := by
  cases pc with
  | load => simp [pollEnter, goto] at hret
  | loop current =>
    cases current with
    | queued back => simp [pollEnter, enterWakerPoll, goto] at hret
    | available available =>
      simp only [pollEnter] at hret ⊢
      cases hq : available.intoUsize with
      | none => simp [hq, goto] at hret
      | some n =>
        simp only [hq] at hret ⊢
        split_ifs at hret ⊢ with hle
        · cases hx : s.sem.acquire.cmpxchgWeak (.available available)
            (.available (Permits.new (n - s.mem.amount a))) spurious with
          | none => simp [hx, goto] at hret
          | some acquire =>
            obtain ⟨m, hload, hload', hm⟩ := AcquireState.taken hq hle hx
            refine ⟨n, m, ?_, hload, hload', hm⟩
            simp [subtraction, hf, hq, hle]
        · simp [enterWakerPoll, goto] at hret
  | poll current available back tok pc =>
    simp only [pollEnter] at hret
    split at hret <;> simp [goto] at hret
  | push current available back =>
    simp only [pollEnter] at hret
    split at hret <;> simp [goto] at hret

/-- The permits left by `try_pop` when the exchange of `finish` has gone through. -/
theorem finish_left {r r' : Permits} {ret : Cont} {pop : Pop} {pc : FinishPc} {pc' : ReleasePc ι}
    (hret : (s.finish t r ret spurious pop pc).frames t = .release r' ret pc')
    (hpc : (∃ data vtable, pc' = .wake pop data vtable) ∨ pc' = .relink pop) {n : ℕ}
    (hn : pop.releasable = some n) : r' = Permits.new (n - pop.amount) := by
  simp only [finish, hn] at hret
  split at hret
  all_goals
    simp only [goto, update_self, Frame.release.injEq, reduceCtorEq] at hret
  · obtain ⟨-, -, rfl⟩ := hret
    simp at hpc
  · obtain ⟨-, -, rfl⟩ := hret
    simp at hpc
  · obtain ⟨-, -, rfl⟩ := hret
    simp at hpc
  · exact hret.1.symm
  · exact hret.1.symm

end Sys

/-- The locals of `try_pop` in a reachable state. -/
theorem Reachable.pop_covers (h : Reachable initial s) {r : Permits} {ret : Cont} {pop : Pop}
    {pc : FinishPc} (hf : s.frames t = .release r ret (.finish pop pc)) :
    pop.releasable = r.intoUsize ∧ pop.amount = s.mem.amount pop.front ∧
      ∀ n, r.intoUsize = some n → s.mem.amount pop.front ≤ n := by
  obtain ⟨a, hr⟩ := h.represents
  obtain ⟨o, -, -, -, hrel, -, -, hpop, -⟩ := hr.sim.owner_of hr.inv hf rfl
  obtain ⟨-, hamount, -, hreleasable, hle⟩ := hpop
  rw [hrel] at hreleasable hle
  exact ⟨hreleasable, hamount, hle⟩

theorem Reachable.covered (h : Reachable initial s) {n k : ℕ}
    (hsub : s.subtraction t = some (n, k)) : k ≤ n := by
  unfold Sys.subtraction at hsub
  split at hsub
  · split at hsub
    · cases hsub
    · split_ifs at hsub with hlt
      cases hsub
      omega
  · split at hsub
    · cases hsub
    · split_ifs at hsub with hle
      cases hsub
      exact hle
  · next r ret pop pc hf =>
    obtain ⟨m, hm, heq⟩ := Option.map_eq_some_iff.mp hsub
    obtain ⟨hrel, hamount, hle⟩ := h.pop_covers hf
    cases heq
    rw [hamount]
    exact hle n (hrel ▸ hm)
  · cases hsub

theorem Reachable.debits (h : Reachable initial s) (hn : s.step t spurious = some s') :
    s.Debits t s' := by
  constructor
  case try_acquire =>
    intro k pc hf hret
    simp only [Sys.step, hf, Option.some.injEq] at hn
    subst hn
    exact Sys.tryAcquire_debits hf hret
  case poll_enter =>
    intro a pc hf hret
    simp only [Sys.step, hf, Option.some.injEq] at hn
    subst hn
    exact Sys.pollEnter_debits hf hret
  case try_pop =>
    intro r ret pop pc r' pc' n hf hret hpc hr
    simp only [Sys.step, hf, Option.some.injEq] at hn
    subst hn
    obtain ⟨hrel, hamount, hle⟩ := h.pop_covers hf
    have hk := hle n hr
    refine ⟨n - pop.amount, ?_, Sys.finish_left hret hpc (hrel.trans hr), ?_⟩
    · simp [Sys.subtraction, hf, hrel, hr, hamount]
    · omega

/-- Sums of permits do not depend on order and grouping and never wrap, and no subtraction of a
requested amount underflows. -/
theorem permit_sums_exact (initial : ℕ) :
    (∀ (e : Summation) (l : List ℕ), e.amounts.Perm l → ∃ p, e.eval = some p ∧
      p.val ≤ usizeMax ∧ p.intoUsize = if l.sum ≤ maxAvailable then some l.sum else none) ∧
    ∀ (s : Sys ι) (t : ι), Reachable initial s →
      (∀ n k, s.subtraction t = some (n, k) → k ≤ n) ∧
        ∀ spurious s', s.step t spurious = some s' → s.Debits t s' := by
  refine ⟨fun e l hl => ?_, fun s t h => ⟨fun n k => h.covered, fun _ _ hn => h.debits hn⟩⟩
  obtain ⟨p, hp, hle, hsum⟩ := e.eval_eq
  refine ⟨p, hp, hle, ?_⟩
  rw [hsum, hl.sum_eq]
  rfl

end Differences

end

attribute [local instance] usize64

/-- A partial sum beyond `maxAvailable` is poison for good. -/
example :
    (Summation.add (.store .lockedDirty
      (.add (.amount maxAvailable (by decide +kernel)) (.amount 1 (by decide +kernel))))
      (.amount 0 (by decide +kernel))).eval = some Permits.poison := by
  decide +kernel

end WeightedSemaphore
