import WeightedSemaphore.Word
import WeightedSemaphore.Lib.Tally

/-!
# Permit counts and the packed words of the semaphore

`Permits` counts up to `maxAvailable`; every larger value means poison. The release word and the
acquire word store it beside a tag, and both collapse all poison values to one word.
-/

namespace WeightedSemaphore

open Tally

variable [Usize]

def maxAvailable : ℕ := (1 <<< (Usize.bits - 3)) - 1

theorem maxAvailable_eq : maxAvailable = payload - 1 := by
  rw [maxAvailable, Nat.shiftLeft_eq, one_mul]
  rfl

theorem maxAvailable_lt_usizeMax : maxAvailable < usizeMax := by
  have h := payload_ge
  rw [maxAvailable_eq, usizeMax, two_pow_bits]
  omega

/-- A number of available permits, or a "poisoned flag" if greater than `maxAvailable`. -/
structure Permits where
  val : ℕ
  deriving DecidableEq

namespace Permits

def new (x : ℕ) : Permits := ⟨x⟩

def poison : Permits := ⟨usizeMax⟩

def intoUsize (p : Permits) : Option ℕ := if p.val ≤ maxAvailable then some p.val else none

/-- `saturating_add`. -/
instance : Add Permits := ⟨fun p q => ⟨min (p.val + q.val) usizeMax⟩⟩

def canon (p : Permits) : Permits :=
  match p.intoUsize with
  | none => poison
  | some n => new n

theorem intoUsize_new (x : ℕ) : (new x).intoUsize = Tally.ofNat maxAvailable x := rfl

@[simp] theorem intoUsize_poison : poison.intoUsize = none :=
  if_neg (Nat.not_le.mpr maxAvailable_lt_usizeMax)

@[simp] theorem intoUsize_zero : (new 0).intoUsize = some 0 := rfl

theorem intoUsize_eq_some {p : Permits} {n : ℕ} :
    p.intoUsize = some n ↔ p = new n ∧ n ≤ maxAvailable := by
  unfold intoUsize new
  constructor
  · intro h
    split at h
    · obtain rfl := Option.some.inj h
      exact ⟨rfl, by assumption⟩
    · cases h
  · rintro ⟨rfl, h⟩
    exact if_pos h

@[simp] theorem intoUsize_canon (p : Permits) : p.canon.intoUsize = p.intoUsize := by
  unfold canon
  cases h : p.intoUsize with
  | none => simp
  | some n =>
    obtain ⟨rfl, -⟩ := intoUsize_eq_some.mp h
    exact h

@[simp] theorem intoUsize_add (p q : Permits) :
    (p + q).intoUsize = Tally.add maxAvailable p.intoUsize q.intoUsize := by
  have hlt := maxAvailable_lt_usizeMax
  change (if min (p.val + q.val) usizeMax ≤ maxAvailable then
    some (min (p.val + q.val) usizeMax) else none) = _
  unfold intoUsize
  by_cases hp : p.val ≤ maxAvailable
  · by_cases hq : q.val ≤ maxAvailable
    · rw [if_pos hp, if_pos hq, Tally.add_some_some]
      by_cases hs : p.val + q.val ≤ maxAvailable
      · rw [Nat.min_eq_left (by omega), if_pos hs, Tally.ofNat_of_le hs]
      · rw [if_neg (by omega), Tally.ofNat_of_lt (by omega)]
    · rw [if_neg hq, Tally.add_none, if_neg (by omega)]
  · rw [if_neg hp, Tally.none_add, if_neg (by omega)]

end Permits

inductive ReleaseState
  /-- No release is in progress. Permits available to the next pending acquire. -/
  | unlocked (available : Permits)
  /-- One release owns the lock and tracks the number of available permits. -/
  | locked
  /-- As `locked`, and a release completed without holding the lock. Its permits are for the lock
  owner to release. -/
  | lockedDirty (available : Permits)
  deriving DecidableEq

inductive AcquireState
  /-- There may be pending acquires; the back of the queue. -/
  | queued (back : Ptr)
  /-- There are no pending acquires; the available permits. -/
  | available (permits : Permits)
  deriving DecidableEq

inductive AcquireStep
  /-- The future was just created. -/
  | entering
  /-- The future has registered a waker. -/
  | waiting
  /-- The future has returned `Ready` or is being cancelled. -/
  | done
  deriving DecidableEq

namespace ReleaseState

def encode : ReleaseState → ℕ
  | locked => 0
  | unlocked releasable =>
    match releasable.intoUsize with
    | none => 1
    | some releasable => shl releasable 3 ||| 2
  | lockedDirty releasable =>
    match releasable.intoUsize with
    | none => 3
    | some releasable => shl releasable 3 ||| 4

/-- The remaining tags are `unreachable!()`. -/
def decode (val : ℕ) : Option ReleaseState :=
  match val &&& 7 with
  | 0 => some locked
  | 1 => some (unlocked Permits.poison)
  | 2 => some (unlocked (Permits.new (val >>> 3)))
  | 3 => some (lockedDirty Permits.poison)
  | 4 => some (lockedDirty (Permits.new (val >>> 3)))
  | _ => none

def canon : ReleaseState → ReleaseState
  | locked => locked
  | unlocked p => unlocked p.canon
  | lockedDirty p => lockedDirty p.canon

theorem shl_three_of_intoUsize {p : Permits} {n : ℕ} (h : p.intoUsize = some n) (t : ℕ)
    (ht : t < 8) : shl n 3 ||| t = 8 * n + t := by
  have hn := (Permits.intoUsize_eq_some.mp h).2
  have hp := payload_ge
  rw [maxAvailable_eq] at hn
  rw [shl_three, Nat.mod_eq_of_lt (by omega), mul_eight_or _ _ ht]

instance : Packable ReleaseState where
  encode := encode
  decode := decode
  canon := canon
  decode_encode v := by
    cases v with
    | locked => simp [encode, canon, decode]
    | unlocked p =>
      cases h : p.intoUsize with
      | none => simp [encode, canon, Permits.canon, h, decode]
      | some n =>
        obtain ⟨ht, hn⟩ := tag_payload n 2 (by decide)
        simp only [encode, canon, Permits.canon, h]
        rw [shl_three_of_intoUsize h 2 (by decide), decode, ht, hn]
        rfl
    | lockedDirty p =>
      cases h : p.intoUsize with
      | none => simp [encode, canon, Permits.canon, h, decode]
      | some n =>
        obtain ⟨ht, hn⟩ := tag_payload n 4 (by decide)
        simp only [encode, canon, Permits.canon, h]
        rw [shl_three_of_intoUsize h 4 (by decide), decode, ht, hn]
        rfl
  encode_canon v := by
    cases v <;> simp only [encode, canon, Permits.intoUsize_canon]

end ReleaseState

namespace AcquireState

def encode : AcquireState → ℕ
  | .queued back => back.addr
  | .available permits =>
    match permits.intoUsize with
    | none => usizeMax
    | some n => shl n 1 ||| 1

def decode (val : ℕ) : Option AcquireState :=
  if val &&& 1 = 1 then
    if val = usizeMax then some (available Permits.poison)
    else some (available (Permits.new (val >>> 1)))
  else (Packable.decode val : Option Ptr).map queued

def canon : AcquireState → AcquireState
  | queued back => queued back
  | available p => available p.canon

instance : Packable AcquireState where
  encode := encode
  decode := decode
  canon := canon
  decode_encode v := by
    have hbits := two_pow_bits
    have hpay := payload_ge
    cases v with
    | queued back =>
      have ha := back.aligned
      have hback : Packable.decode back.addr = some back := Packable.decode_encode back
      rw [encode, canon, decode, if_neg (by rw [and_one]; omega), hback]
      rfl
    | available p =>
      cases h : p.intoUsize with
      | none =>
        have hodd : usizeMax &&& 1 = 1 := by rw [and_one, usizeMax]; omega
        simp only [encode, canon, Permits.canon, h]
        rw [decode, if_pos hodd, if_pos rfl]
      | some n =>
        have hn := (Permits.intoUsize_eq_some.mp h).2
        rw [maxAvailable_eq] at hn
        have hword : shl n 1 ||| 1 = 2 * n + 1 := by
          rw [shl_one, Nat.mod_eq_of_lt (by omega), mul_two_or]
        have hmax : 2 * n + 1 ≠ usizeMax := by rw [usizeMax]; omega
        simp only [encode, canon, Permits.canon, h]
        rw [hword, decode, if_pos (by rw [and_one]; omega), if_neg hmax, shr_one,
          show (2 * n + 1) / 2 = n by omega]
  encode_canon v := by
    cases v <;> simp only [encode, canon, Permits.intoUsize_canon]

end AcquireState

end WeightedSemaphore
