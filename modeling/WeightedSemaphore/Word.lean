import Mathlib.Data.Nat.Basic
import Mathlib.Tactic.NormNum
import Mathlib.Tactic.Ring

/-!
# Machine words and packed atomics

The source packs its shared state into `AtomicUsize` words. The width of `usize` is a parameter.
A cell can only be built by encoding a value, so the word it holds is always one that `decode`
accepts; `canon` is the value that is read back after a store.
-/

namespace WeightedSemaphore

theorem mul_eight_or (x t : ℕ) (ht : t < 8) : 8 * x ||| t = 8 * x + t := by
  have h := Nat.shiftLeft_add_eq_or_of_lt (i := 3) ht x
  rw [Nat.shiftLeft_eq] at h
  rw [Nat.mul_comm 8 x]
  exact h.symm

theorem mul_two_or (x : ℕ) : 2 * x ||| 1 = 2 * x + 1 := by
  have h := Nat.shiftLeft_add_eq_or_of_lt (i := 1) (b := 1) (by norm_num) x
  rw [Nat.shiftLeft_eq] at h
  rw [Nat.mul_comm 2 x]
  exact h.symm

theorem and_seven (x : ℕ) : x &&& 7 = x % 8 := Nat.and_two_pow_sub_one_eq_mod x 3

theorem and_one (x : ℕ) : x &&& 1 = x % 2 := Nat.and_two_pow_sub_one_eq_mod x 1

theorem shr_three (x : ℕ) : x >>> 3 = x / 8 := Nat.shiftRight_eq_div_pow x 3

theorem shr_one (x : ℕ) : x >>> 1 = x / 2 := Nat.shiftRight_eq_div_pow x 1

/-- A word with a three bit tag gives back its tag and its payload. -/
theorem tag_payload (n t : ℕ) (ht : t < 8) : (8 * n + t) &&& 7 = t ∧ (8 * n + t) >>> 3 = n := by
  rw [and_seven, shr_three]
  omega

class Usize where
  bits : ℕ
  bits_ge : 8 ≤ bits

@[reducible] def usize64 : Usize := ⟨64, by decide⟩

section Words

variable [Usize]

def usizeMax : ℕ := 2 ^ Usize.bits - 1

/-- `x << k` on `usize`: bits shifted out are lost. -/
def shl (x k : ℕ) : ℕ := (x <<< k) % 2 ^ Usize.bits

def payload : ℕ := 2 ^ (Usize.bits - 3)

theorem payload_ge : 32 ≤ payload := by
  have h : 5 ≤ Usize.bits - 3 := by have := Usize.bits_ge; omega
  calc 32 = 2 ^ 5 := by norm_num
    _ ≤ 2 ^ (Usize.bits - 3) := Nat.pow_le_pow_right (by norm_num) h

theorem two_pow_bits : 2 ^ Usize.bits = 8 * payload := by
  have h : Usize.bits = (Usize.bits - 3) + 3 := by have := Usize.bits_ge; omega
  unfold payload
  conv_lhs => rw [h, pow_add]
  ring

theorem shl_three (x : ℕ) : shl x 3 = 8 * (x % payload) := by
  rw [shl, Nat.shiftLeft_eq, two_pow_bits, Nat.mul_comm x, show (2 : ℕ) ^ 3 = 8 from rfl,
    Nat.mul_mod_mul_left]

theorem shl_one (x : ℕ) : shl x 1 = 2 * (x % (4 * payload)) := by
  rw [shl, Nat.shiftLeft_eq, two_pow_bits, Nat.mul_comm x, show (2 : ℕ) ^ 1 = 2 from rfl,
    show 8 * payload = 2 * (4 * payload) by ring, Nat.mul_mod_mul_left]

/-- `*const Waiter`: waiters are `repr(align(2))`. -/
@[ext] structure Ptr where
  addr : ℕ
  aligned : addr % 2 = 0
  inBounds : addr < 2 ^ Usize.bits
  deriving DecidableEq

def null : Ptr := ⟨0, rfl, Nat.two_pow_pos _⟩

class Packable (T : Type) where
  encode : T → ℕ
  decode : ℕ → Option T
  canon : T → T
  decode_encode : ∀ v, decode (encode v) = some (canon v)
  encode_canon : ∀ v, encode (canon v) = encode v

open Packable (encode decode canon)

instance : Packable Ptr where
  encode p := p.addr
  decode val := if h : val % 2 = 0 ∧ val < 2 ^ Usize.bits then some ⟨val, h.1, h.2⟩ else none
  canon p := p
  decode_encode p := by rw [dif_pos ⟨p.aligned, p.inBounds⟩]
  encode_canon _ := rfl

end Words

instance neZero_eight : NeZero 8 := ⟨by decide⟩

def usize64.ptr (n : Fin 8) : @Ptr usize64 :=
  @Ptr.mk usize64 (2 * n + 2) (by omega) (show 2 * n.val + 2 < 2 ^ 64 by omega)

open Packable (encode decode canon)

/-- An `AtomicUsize` containing a bitpacked `T`. -/
structure Atomic (T : Type) [Packable T] where
  word : ℕ
  packed : ∃ v : T, word = encode v

namespace Atomic

variable {T : Type} [Packable T]

theorem decode_isSome (a : Atomic T) : (decode a.word : Option T).isSome := by
  obtain ⟨v, hv⟩ := a.packed
  rw [hv, Packable.decode_encode]
  rfl

def new (val : T) : Atomic T := ⟨encode val, val, rfl⟩

def load (a : Atomic T) : T := (decode a.word).get a.decode_isSome

/-- A weak compare-exchange: the new cell on success, `none` on failure, after which the caller
reloads its `current`. -/
def cmpxchgWeak (a : Atomic T) (current val : T) (spurious : Bool) : Option (Atomic T) :=
  if a.word = encode current ∧ spurious = false then some (new val) else none

@[simp] theorem load_new (v : T) : (new v).load = canon v := by
  simp [load, new, Packable.decode_encode]

theorem encode_load (a : Atomic T) : encode a.load = a.word := by
  obtain ⟨w, v, rfl⟩ := a
  rw [show (⟨encode v, v, rfl⟩ : Atomic T) = new v from rfl, load_new, Packable.encode_canon]
  rfl

theorem ext_word {a b : Atomic T} (h : a.word = b.word) : a = b := by
  obtain ⟨_, _⟩ := a
  obtain ⟨_, _⟩ := b
  cases h
  rfl

theorem new_load (a : Atomic T) : new a.load = a := ext_word a.encode_load

theorem cmpxchgWeak_eq_some {a b : Atomic T} {current val : T} {spurious : Bool}
    (h : a.cmpxchgWeak current val spurious = some b) :
    a = new current ∧ b = new val ∧ spurious = false := by
  unfold cmpxchgWeak at h
  split at h
  · next hc => exact ⟨ext_word hc.1, (Option.some.inj h).symm, hc.2⟩
  · cases h

/-- An exchange against the word just read fails only spuriously. -/
theorem cmpxchgWeak_load (a : Atomic T) (val : T) :
    a.cmpxchgWeak a.load val false = some (new val) := by
  simp [cmpxchgWeak, encode_load]

theorem cmpxchgWeak_of_load {a : Atomic T} {current : T} (h : a.load = current) (val : T) :
    a.cmpxchgWeak current val false = some (new val) := by
  rw [← h, cmpxchgWeak_load]

theorem cmpxchgWeak_new (current val : T) :
    (new current).cmpxchgWeak current val false = some (new val) :=
  if_pos ⟨rfl, rfl⟩

end Atomic

end WeightedSemaphore
