import WeightedSemaphore.Returns

/-!
# Packing is faithful

Decoding an encoded value gives it back, up to the values that stand for the same: all counts above
`maxAvailable` are poison, and sequence numbers are taken modulo the payload of the word. So a
compare-exchange against a value that was decoded from a word compares against that very word.
-/

namespace WeightedSemaphore

open Function (update update_self update_of_ne)
open Packable (encode decode canon)
open Waker (State)
open AtomicWaker (PollPc FinishPc StartCancelPc AcceptCancelPc)

section Canon

variable {T : Type} [Packable T]

theorem Packable.canon_canon (v : T) : canon (canon v) = canon v := by
  have h := Packable.decode_encode (canon v)
  rw [Packable.encode_canon, Packable.decode_encode] at h
  exact (Option.some.inj h).symm

theorem Packable.encode_eq_iff (v w : T) :
    encode v = encode w ↔ canon v = canon w := by
  constructor
  · intro h
    have hd := congrArg (decode (T := T)) h
    rw [Packable.decode_encode, Packable.decode_encode] at hd
    exact Option.some.inj hd
  · intro h
    rw [← Packable.encode_canon v, h, Packable.encode_canon]

end Canon

section Words

variable [Usize]

def Permits.Same (p q : Permits) : Prop := p = q ∨ maxAvailable < p.val ∧ maxAvailable < q.val

inductive ReleaseState.Same : ReleaseState → ReleaseState → Prop
  | unlocked {p q : Permits} (h : p.Same q) : Same (.unlocked p) (.unlocked q)
  | locked : Same .locked .locked
  | lockedDirty {p q : Permits} (h : p.Same q) : Same (.lockedDirty p) (.lockedDirty q)

inductive AcquireState.Same : AcquireState → AcquireState → Prop
  | queued (back : Ptr) : Same (.queued back) (.queued back)
  | available {p q : Permits} (h : p.Same q) : Same (.available p) (.available q)

inductive Waker.State.Same : State → State → Prop
  | pending {m n : ℕ} (h : m % 2 ^ (Usize.bits - 3) = n % 2 ^ (Usize.bits - 3)) :
    Same (.pending m) (.pending n)
  | storing {m n : ℕ} (h : m % 2 ^ (Usize.bits - 3) = n % 2 ^ (Usize.bits - 3)) :
    Same (.storing m) (.storing n)
  | finished (poisoned : Bool) : Same (.finished poisoned) (.finished poisoned)
  | cancelling : Same .cancelling .cancelling
  | cancelled : Same .cancelled .cancelled

/-- Values are packed into words of the machine, alike just when they are the same, and what is read
back is the same. -/
structure Faithful (T : Type) [Packable T] (Same : T → T → Prop) : Prop where
  in_range : ∀ v : T, encode v < 2 ^ Usize.bits
  decode_encode : ∀ v : T, ∃ v', decode (encode v) = some v' ∧ Same v v'
  encode_eq : ∀ v w : T, encode v = encode w ↔ Same v w

/-- It is enough to say which values have the same canonical representative. -/
theorem Faithful.of_canon {T : Type} [Packable T] {Same : T → T → Prop}
    (hrange : ∀ v : T, encode v < 2 ^ Usize.bits) (hsame : ∀ v w, canon v = canon w ↔ Same v w) :
    Faithful T Same where
  in_range := hrange
  decode_encode v :=
    ⟨canon v, Packable.decode_encode v, (hsame v (canon v)).mp (Packable.canon_canon v).symm⟩
  encode_eq v w := (Packable.encode_eq_iff v w).trans (hsame v w)

theorem Permits.canon_eq_iff (p q : Permits) : p.canon = q.canon ↔ p.Same q := by
  have hmax := maxAvailable_lt_usizeMax
  have hval (p : Permits) : p.canon = if p.val ≤ maxAvailable then p else poison := by
    unfold Permits.canon Permits.intoUsize
    split_ifs <;> rfl
  rw [hval, hval, Same]
  split_ifs with hp hq hq
  · constructor
    · exact Or.inl
    · rintro (h | h)
      · exact h
      · omega
  · constructor
    · rintro rfl
      exact absurd hp (Nat.not_le.mpr hmax)
    · rintro (rfl | h)
      · exact absurd hp hq
      · omega
  · constructor
    · rintro rfl
      exact absurd hq (Nat.not_le.mpr hmax)
    · rintro (rfl | h)
      · exact absurd hq hp
      · omega
  · simp only [true_iff]
    omega

theorem tagged_lt {n t : ℕ} (hn : n < payload) (ht : t < 8) : 8 * n + t < 2 ^ Usize.bits := by
  rw [two_pow_bits]
  omega

theorem ReleaseState.encode_lt (v : ReleaseState) : encode v < 2 ^ Usize.bits := by
  have hpay := payload_ge
  have hbits := two_pow_bits
  change ReleaseState.encode v < _
  cases v with
  | locked =>
    simp only [ReleaseState.encode]
    omega
  | unlocked p =>
    simp only [ReleaseState.encode]
    cases h : p.intoUsize with
    | none =>
      dsimp only
      omega
    | some n =>
      have hn := (Permits.intoUsize_eq_some.mp h).2
      rw [maxAvailable_eq] at hn
      dsimp only
      rw [shl_three_of_intoUsize h 2 (by decide)]
      exact tagged_lt (by omega) (by decide)
  | lockedDirty p =>
    simp only [ReleaseState.encode]
    cases h : p.intoUsize with
    | none =>
      dsimp only
      omega
    | some n =>
      have hn := (Permits.intoUsize_eq_some.mp h).2
      rw [maxAvailable_eq] at hn
      dsimp only
      rw [shl_three_of_intoUsize h 4 (by decide)]
      exact tagged_lt (by omega) (by decide)

theorem AcquireState.encode_lt (v : AcquireState) : encode v < 2 ^ Usize.bits := by
  have hpay := payload_ge
  have hbits := two_pow_bits
  change AcquireState.encode v < _
  cases v with
  | queued back => exact back.inBounds
  | available p =>
    simp only [AcquireState.encode]
    cases h : p.intoUsize with
    | none =>
      dsimp only
      rw [usizeMax]
      omega
    | some n =>
      have hn := (Permits.intoUsize_eq_some.mp h).2
      rw [maxAvailable_eq] at hn
      dsimp only
      rw [shl_one, mul_two_or, Nat.mod_eq_of_lt (by omega)]
      omega

theorem Waker.State.encode_lt (v : State) : encode v < 2 ^ Usize.bits := by
  have hpay := payload_ge
  have hbits := two_pow_bits
  change State.encode v < _
  cases v with
  | pending seq =>
    rw [State.encode, State.shl_three_or seq 0 (by decide)]
    exact tagged_lt (Nat.mod_lt _ (by omega)) (by decide)
  | storing seq =>
    rw [State.encode, State.shl_three_or seq 1 (by decide)]
    exact tagged_lt (Nat.mod_lt _ (by omega)) (by decide)
  | finished poisoned =>
    cases poisoned <;> simp only [State.encode] <;> omega
  | cancelling =>
    simp only [State.encode]
    omega
  | cancelled =>
    simp only [State.encode]
    omega

theorem ReleaseState.faithful : Faithful ReleaseState Same := by
  refine .of_canon encode_lt fun v w => ?_
  change v.canon = w.canon ↔ _
  constructor
  · intro h
    cases v <;> cases w <;> simp only [ReleaseState.canon, reduceCtorEq] at h
    · exact .unlocked ((Permits.canon_eq_iff _ _).mp (unlocked.inj h))
    · exact .locked
    · exact .lockedDirty ((Permits.canon_eq_iff _ _).mp (lockedDirty.inj h))
  · rintro (h | _ | h)
    · exact congrArg unlocked ((Permits.canon_eq_iff _ _).mpr h)
    · rfl
    · exact congrArg lockedDirty ((Permits.canon_eq_iff _ _).mpr h)

theorem AcquireState.faithful : Faithful AcquireState Same := by
  refine .of_canon encode_lt fun v w => ?_
  change v.canon = w.canon ↔ _
  constructor
  · intro h
    cases v <;> cases w <;> simp only [AcquireState.canon, reduceCtorEq] at h
    · exact queued.inj h ▸ .queued _
    · exact .available ((Permits.canon_eq_iff _ _).mp (available.inj h))
  · rintro (_ | h)
    · rfl
    · exact congrArg available ((Permits.canon_eq_iff _ _).mpr h)

theorem Waker.State.faithful : Faithful State State.Same := by
  refine .of_canon State.encode_lt fun v w => ?_
  change v.canon = w.canon ↔ _
  constructor
  · intro h
    cases v <;> cases w <;> simp only [State.canon, reduceCtorEq] at h
    · exact .pending (State.pending.inj h)
    · exact .storing (State.storing.inj h)
    · exact State.finished.inj h ▸ .finished _
    · exact .cancelling
    · exact .cancelled
  · rintro (h | h | _ | _ | _)
    · exact congrArg State.pending h
    · exact congrArg State.storing h
    all_goals rfl

end Words

namespace Atomic

variable {T : Type} [Packable T] {a : Atomic T}

def Packed (a : Atomic T) : Prop := ∃ v : T, decode a.word = some v ∧ encode v = a.word

theorem load_packed (a : Atomic T) : a.Packed :=
  ⟨a.load, (Option.some_get a.decode_isSome).symm, a.encode_load⟩

/-- `current` was decoded from one word only, which its encoding gives back. A compare-exchange of
`a` against it succeeds, but for spurious failures, just when `a` holds that word. -/
def Exact (a : Atomic T) (current : T) : Prop :=
  ∃ read : ℕ, decode read = some current ∧ encode current = read ∧
    (∀ b : Atomic T, b.load = current → b.word = read) ∧
    ∀ val spurious, (a.cmpxchgWeak current val spurious).isSome ↔ a.word = read ∧ spurious = false

end Atomic

def Packable.Read {T : Type} [Packable T] (v : T) : Prop := canon v = v

theorem Packable.Read.load {T : Type} [Packable T] (a : Atomic T) : Packable.Read a.load := by
  obtain ⟨v, hv⟩ := a.packed
  rw [Packable.Read, show a = .new v from Atomic.ext_word hv, Atomic.load_new,
    Packable.canon_canon]

theorem Packable.Read.exact {T : Type} [Packable T] {v : T} (h : Packable.Read v) (a : Atomic T) :
    a.Exact v := by
  refine ⟨encode v, ?_, rfl, fun b hb => ?_, fun val spurious => ?_⟩
  · rw [Packable.decode_encode, h]
  · rw [← hb, Atomic.encode_load]
  · unfold Atomic.cmpxchgWeak
    split_ifs with hc
    · simpa using hc
    · simpa using hc

section

variable [Usize] {ι : Type}

namespace AtomicWaker

/-- The states that a method has read. A poll that has begun to store goes on with the state it has
exchanged itself. -/
def PollPc.Reads : PollPc → Prop
  | load => True
  | start current => Packable.Read current
  | loadData current => Packable.Read current
  | loadVtable current _ => Packable.Read current
  | storeData current _ _ => Packable.Read current
  | storeVtable current _ _ => Packable.Read current
  | publish current => Packable.Read current

def FinishPc.Reads : FinishPc → Prop
  | load => True
  | test current => Packable.Read current
  | loadVtable current _ => Packable.Read current
  | exchange current _ _ => Packable.Read current

def StartCancelPc.Reads : StartCancelPc → Prop
  | load => True
  | exchange current => Packable.Read current

def AcceptCancelPc.Reads : AcceptCancelPc ι → Prop
  | exchange current => Packable.Read current
  | _ => True

variable {w : AtomicWaker ι} {tok : ℕ} {spurious poisoned : Bool} {self : ι}

theorem poll_reads {pc pc' : PollPc} (h : pc.Reads)
    (hflow : (w.poll tok spurious pc).flow = .goto pc') : pc'.Reads := by
  cases pc with
  | load =>
    cases hflow
    exact .load _
  | start current =>
    cases current with
    | pending seq =>
      simp only [poll] at hflow
      split at hflow <;> cases hflow
      · exact congrArg State.storing (State.pending.inj h)
      · exact .load _
    | _ => cases hflow
  | publish current =>
    cases current with
    | storing seq =>
      simp only [poll] at hflow
      split at hflow <;> cases hflow
      exact .load _
    | _ => cases hflow
  | _ =>
    cases hflow
    exact h

theorem finish_reads {pc pc' : FinishPc} (h : pc.Reads)
    (hflow : (w.finish poisoned spurious pc).flow = .goto pc') : pc'.Reads := by
  cases pc with
  | load =>
    cases hflow
    exact .load _
  | test current =>
    cases current with
    | pending seq =>
      cases hflow
      exact h
    | storing seq =>
      simp only [finish] at hflow
      split at hflow <;> cases hflow
      exact .load _
    | _ => cases hflow
  | loadVtable current data =>
    cases hflow
    exact h
  | exchange current data vtable =>
    simp only [finish] at hflow
    split at hflow <;> cases hflow
    exact .load _

theorem startCancel_reads {pc pc' : StartCancelPc}
    (hflow : (w.startCancel self spurious pc).flow = .goto pc') : pc'.Reads := by
  cases pc with
  | load =>
    cases hflow
    exact .load _
  | exchange current =>
    cases current with
    | pending seq =>
      simp only [startCancel] at hflow
      split at hflow <;> cases hflow
      exact .load _
    | _ => cases hflow

theorem acceptCancel_reads {pc pc' : AcceptCancelPc ι}
    (hflow : (w.acceptCancel spurious pc).flow = .goto pc') : pc'.Reads := by
  cases pc with
  | load =>
    cases hflow
    exact .load _
  | exchange current =>
    cases current with
    | cancelling =>
      simp only [acceptCancel] at hflow
      split at hflow
      · cases hflow
      · split at hflow <;> cases hflow
        · trivial
        · exact .load _
    | _ => cases hflow
  | unpark thread => cases hflow

end AtomicWaker

def EnterPc.AllRead : EnterPc → Prop
  | load => True
  | loop current => Packable.Read current
  | poll current _ _ _ pc => Packable.Read current ∧ pc.Reads
  | push current _ _ => Packable.Read current

def Frame.Reads : Frame ι → Prop
  | tryAcquire _ (.loop current) => Packable.Read current
  | pollEnter _ pc => pc.AllRead
  | pollWaiting _ _ pc => pc.Reads
  | release _ _ (.lock current) => Packable.Read current
  | release _ _ (.flip _ current) => Packable.Read current
  | release _ _ (.accept _ _ pc) => pc.Reads
  | release _ _ (.finish _ pc) => pc.Reads
  | release _ _ (.unlock current) => Packable.Read current
  | dropFuture _ (.startCancel pc) => pc.Reads
  | dropFuture _ (.pushCancel current) => Packable.Read current
  | _ => True

variable [DecidableEq ι] {s s' : Sys ι} {t : ι} {act : Act ι} {r : Permits} {ret : Cont}
  {spurious : Bool} {x : Ptr}

def Sys.ReadsNext (s : Sys ι) (t : ι) (s' : Sys ι) : Prop :=
  ∃ f, s'.frames = update s.frames t f ∧ f.Reads

namespace Sys.ReadsNext

theorem tryAcquire (n : ℕ) (pc : TryAcquirePc) : s.ReadsNext t (s.tryAcquire t n spurious pc) := by
  obtain ⟨f, hf, hnext, -⟩ := Sys.tryAcquire_next s t n spurious pc
  refine ⟨f, hf, ?_⟩
  cases pc with
  | load =>
    obtain rfl : f = _ := hnext
    exact Packable.Read.load _
  | loop current =>
    rcases hnext with ⟨rfl, -⟩ | ⟨rfl, -⟩ | ⟨rfl, -⟩ | ⟨rfl, -⟩
    · trivial
    · trivial
    · trivial
    · exact Packable.Read.load _

theorem pollEnter {pc : EnterPc} (h : pc.AllRead) :
    s.ReadsNext t (s.pollEnter t x spurious pc) := by
  cases pc with
  | load => exact ⟨_, rfl, Packable.Read.load _⟩
  | loop current =>
    simp only [Sys.pollEnter]
    cases current with
    | queued back => exact ⟨_, rfl, h, trivial⟩
    | available q =>
      dsimp only
      split
      · exact ⟨_, rfl, trivial⟩
      · split_ifs
        · split
          · exact ⟨_, rfl, trivial⟩
          · exact ⟨_, rfl, Packable.Read.load _⟩
        · exact ⟨_, rfl, h, trivial⟩
  | poll current available back tok pc =>
    simp only [Sys.pollEnter]
    cases hflow : ((s.mem.waker x).poll tok spurious pc).flow with
    | goto pc' => exact ⟨_, rfl, h.1, AtomicWaker.poll_reads h.2 hflow⟩
    | ret res => cases res <;> exact ⟨_, rfl, by first | exact h.1 | trivial⟩
    | panic => exact ⟨_, rfl, trivial⟩
  | push current available back =>
    simp only [Sys.pollEnter]
    split
    · exact ⟨_, rfl, trivial⟩
    · exact ⟨_, rfl, Packable.Read.load _⟩

theorem pollWaiting {tok : ℕ} {pc : PollPc} (h : pc.Reads) :
    s.ReadsNext t (s.pollWaiting t x tok spurious pc) := by
  simp only [Sys.pollWaiting]
  cases hflow : ((s.mem.waker x).poll tok spurious pc).flow with
  | goto pc' => exact ⟨_, rfl, AtomicWaker.poll_reads h hflow⟩
  | ret res =>
    cases res with
    | pending => exact ⟨_, rfl, trivial⟩
    | ready p => cases p <;> exact ⟨_, rfl, trivial⟩
  | panic => exact ⟨_, rfl, trivial⟩

theorem afterRelease (s : Sys ι) (release : Atomic ReleaseState) :
    s.ReadsNext t ({ s with sem.release := release }.afterRelease t ret) := by
  cases ret <;> exact ⟨_, rfl, trivial⟩

theorem release {pc : ReleasePc ι} (h : (Frame.release r ret pc).Reads) :
    s.ReadsNext t (s.release t r ret spurious pc) := by
  cases pc with
  | lockLoad => exact ⟨_, rfl, Packable.Read.load _⟩
  | lock current =>
    simp only [Sys.release, Sys.lockOrElseDefer]
    cases current <;> dsimp only <;> split
    all_goals first
      | exact ⟨_, rfl, trivial⟩
      | exact ⟨_, rfl, Packable.Read.load _⟩
      | exact afterRelease s _
  | swapCancel => exact ⟨_, rfl, trivial⟩
  | flipLoad nextCancel => exact ⟨_, rfl, Packable.Read.load _⟩
  | flip nextCancel current =>
    simp only [Sys.release, Sys.flip]
    cases current with
    | available q =>
      dsimp only
      split
      · split_ifs <;> exact ⟨_, rfl, trivial⟩
      · exact ⟨_, rfl, Packable.Read.load _⟩
    | queued back =>
      dsimp only
      split_ifs
      · split
        · exact ⟨_, rfl, trivial⟩
        · exact ⟨_, rfl, Packable.Read.load _⟩
      · exact ⟨_, rfl, trivial⟩
      · split
        · exact ⟨_, rfl, trivial⟩
        · exact ⟨_, rfl, Packable.Read.load _⟩
  | walk nextCancel back waiter =>
    simp only [Sys.release, Sys.walk]
    split_ifs <;> exact ⟨_, rfl, trivial⟩
  | cancel nextCancel =>
    simp only [Sys.release, Sys.cancel]
    split_ifs <;> exact ⟨_, rfl, trivial⟩
  | accept waker nextCancel pc =>
    simp only [Sys.release, Sys.accept]
    cases hflow : ((s.mem.waker waker).acceptCancel spurious pc).flow with
    | goto pc' =>
      have hreads := AtomicWaker.acceptCancel_reads hflow
      cases pc' <;> exact ⟨_, rfl, hreads⟩
    | ret thread => exact ⟨_, rfl, trivial⟩
    | panic => exact ⟨_, rfl, trivial⟩
  | tryPop =>
    simp only [Sys.release, Sys.tryPop]
    split_ifs
    · exact ⟨_, rfl, trivial⟩
    · split
      · split_ifs <;> exact ⟨_, rfl, trivial⟩
      · exact ⟨_, rfl, trivial⟩
  | finish pop pc =>
    simp only [Sys.release, Sys.finish]
    cases hflow : ((s.mem.waker pop.front).finish pop.releasable.isNone spurious pc).flow with
    | goto pc' =>
      have hreads := AtomicWaker.finish_reads h hflow
      cases pc' <;> exact ⟨_, rfl, hreads⟩
    | ret res =>
      cases res with
      | cancelling => exact ⟨_, rfl, trivial⟩
      | finished wake => cases wake <;> exact ⟨_, rfl, trivial⟩
    | panic => exact ⟨_, rfl, trivial⟩
  | wake pop data vtable => exact ⟨_, rfl, trivial⟩
  | relink pop => exact ⟨_, rfl, trivial⟩
  | unlockLoad => exact ⟨_, rfl, Packable.Read.load _⟩
  | unlock current =>
    simp only [Sys.release, Sys.tryUnlock]
    cases current with
    | unlocked q => exact ⟨_, rfl, trivial⟩
    | locked =>
      dsimp only
      split
      · exact afterRelease s _
      · exact ⟨_, rfl, Packable.Read.load _⟩
    | lockedDirty q =>
      dsimp only
      split
      · exact ⟨_, rfl, trivial⟩
      · exact ⟨_, rfl, Packable.Read.load _⟩

theorem dropFuture {pc : DropPc} (hn : s.dropFuture t x spurious pc = some s') :
    s.ReadsNext t s' := by
  cases pc with
  | startCancel pc =>
    simp only [Sys.dropFuture] at hn
    cases hflow : ((s.mem.waker x).startCancel t spurious pc).flow with
    | goto pc' =>
      rw [hflow] at hn
      obtain rfl := Option.some.inj hn
      exact ⟨_, rfl, AtomicWaker.startCancel_reads hflow⟩
    | ret res =>
      rw [hflow] at hn
      cases res with
      | cancelling =>
        obtain rfl := Option.some.inj hn
        exact ⟨_, rfl, trivial⟩
      | finished p =>
        cases p <;> obtain rfl := Option.some.inj hn <;> exact ⟨_, rfl, trivial⟩
    | panic =>
      rw [hflow] at hn
      obtain rfl := Option.some.inj hn
      exact ⟨_, rfl, trivial⟩
  | loadCancel =>
    obtain rfl := Option.some.inj hn
    exact ⟨_, rfl, Packable.Read.load _⟩
  | pushCancel current =>
    simp only [Sys.dropFuture] at hn
    split at hn <;> obtain rfl := Option.some.inj hn
    · exact ⟨_, rfl, trivial⟩
    · exact ⟨_, rfl, Packable.Read.load _⟩
  | waitCancel pc =>
    cases pc with
    | load =>
      simp only [Sys.dropFuture] at hn
      split at hn <;> obtain rfl := Option.some.inj hn <;> exact ⟨_, rfl, trivial⟩
    | park =>
      simp only [Sys.dropFuture] at hn
      split_ifs at hn
      obtain rfl := Option.some.inj hn
      exact ⟨_, rfl, trivial⟩
  | waker =>
    simp only [Sys.dropFuture] at hn
    split at hn <;> obtain rfl := Option.some.inj hn <;> exact ⟨_, rfl, trivial⟩

theorem step (h : (s.frames t).Reads) (hn : s.step t spurious = some s') : s.ReadsNext t s' := by
  unfold Sys.step at hn
  cases hf : s.frames t with
  | idle ret => simp [hf] at hn
  | panicked => simp [hf] at hn
  | tryAcquire n pc =>
    rw [hf] at hn
    obtain rfl := Option.some.inj hn
    exact tryAcquire n pc
  | pollEnter x pc =>
    rw [hf] at h hn
    obtain rfl := Option.some.inj hn
    exact pollEnter h
  | pollWaiting x tok pc =>
    rw [hf] at h hn
    obtain rfl := Option.some.inj hn
    exact pollWaiting h
  | release r ret pc =>
    rw [hf] at h hn
    obtain rfl := Option.some.inj hn
    exact release h
  | dropFuture x pc =>
    rw [hf] at hn
    exact dropFuture hn

theorem call {c : Call} (hn : s.call t c = some s') : s.ReadsNext t s' := by
  obtain ⟨f, hf, hc⟩ := Sys.call_next hn
  refine ⟨f, hf, ?_⟩
  cases c with
  | poll a => rcases hc with ⟨-, rfl⟩ | ⟨-, tok, rfl⟩ | ⟨-, rfl⟩ <;> trivial
  | dropFuture a =>
    simp only [Sys.call] at hn
    split_ifs at hn
    have hft : s'.frames t = f := by rw [hf, update_self]
    split at hn <;> obtain rfl := Option.some.inj hn <;> rw [← hft] <;>
      simp [Sys.goto, Frame.Reads, StartCancelPc.Reads]
  | tryAcquire n =>
    obtain rfl : f = _ := hc
    trivial
  | _ =>
    obtain ⟨r, rfl⟩ := hc
    trivial

end Sys.ReadsNext

theorem Sys.reads_next (h : ∀ t, (s.frames t).Reads) (hn : s.next act = some s') (t : ι) :
    (s'.frames t).Reads := by
  have of_next {u : ι} (hu : s.ReadsNext u s') : (s'.frames t).Reads := by
    obtain ⟨f, hf, hreads⟩ := hu
    rw [hf]
    by_cases htu : t = u
    · subst htu
      rwa [update_self]
    · rw [update_of_ne htu]
      exact h t
  cases act with
  | call u c =>
    simp only [Sys.next] at hn
    split_ifs at hn
    exact of_next (.call hn)
  | step u spurious => exact of_next (.step (h u) hn)
  | _ =>
    rw [Sys.next_frames_of_ne hn (by simp) (by simp)]
    exact h t

section Exact

variable (sem : Semaphore) (mem : Waiters ι)

def Frame.Exact : Frame ι → Prop
  | tryAcquire _ (.loop current) => sem.acquire.Exact current
  | pollEnter _ (.loop current) => sem.acquire.Exact current
  | pollEnter x (.poll _ _ _ _ (.start current)) => (mem.waker x).state.Exact current
  | pollEnter x (.poll _ _ _ _ (.publish current)) => (mem.waker x).state.Exact current
  | pollEnter _ (.push current _ _) => sem.acquire.Exact current
  | pollWaiting x _ (.start current) => (mem.waker x).state.Exact current
  | pollWaiting x _ (.publish current) => (mem.waker x).state.Exact current
  | release _ _ (.lock current) => sem.release.Exact current
  | release _ _ (.flip _ current) => sem.acquire.Exact current
  | release _ _ (.accept x _ (.exchange current)) => (mem.waker x).state.Exact current
  | release _ _ (.finish pop (.test current)) => (mem.waker pop.front).state.Exact current
  | release _ _ (.finish pop (.exchange current _ _)) => (mem.waker pop.front).state.Exact current
  | release _ _ (.unlock current) => sem.release.Exact current
  | dropFuture x (.startCancel (.exchange current)) => (mem.waker x).state.Exact current
  | dropFuture _ (.pushCancel current) => sem.nextCancel.Exact current
  | _ => True

variable {sem mem}

omit [DecidableEq ι] in
theorem Frame.Reads.exact {f : Frame ι} (h : f.Reads) : f.Exact sem mem := by
  cases f with
  | idle ret => trivial
  | panicked => trivial
  | tryAcquire n pc => cases pc <;> first | trivial | exact Packable.Read.exact h _
  | pollEnter x pc =>
    cases pc with
    | poll current available back tok pc =>
      cases pc <;> first | trivial | exact Packable.Read.exact h.2 _
    | _ => first | trivial | exact Packable.Read.exact h _
  | pollWaiting x tok pc => cases pc <;> first | trivial | exact Packable.Read.exact h _
  | release r ret pc =>
    cases pc with
    | accept x nextCancel pc => cases pc <;> first | trivial | exact Packable.Read.exact h _
    | finish pop pc => cases pc <;> first | trivial | exact Packable.Read.exact h _
    | _ => first | trivial | exact Packable.Read.exact h _
  | dropFuture x pc =>
    cases pc with
    | startCancel pc => cases pc <;> first | trivial | exact Packable.Read.exact h _
    | _ => first | trivial | exact Packable.Read.exact h _

end Exact

structure Sys.Packed (s : Sys ι) : Prop where
  acquire : s.sem.acquire.Packed
  release : s.sem.release.Packed
  nextCancel : s.sem.nextCancel.Packed
  waker : ∀ x, (s.mem.waker x).state.Packed
  exchanges : ∀ t, (s.frames t).Exact s.sem s.mem

/-- The three layouts are faithful up to overflow and the wrapping of sequence numbers, and so are
all words and exchanges of every run. -/
theorem packing_faithful (initial : ℕ) :
    maxAvailable = 2 ^ (Usize.bits - 3) - 1 ∧ Faithful ReleaseState ReleaseState.Same ∧
      Faithful AcquireState AcquireState.Same ∧ Faithful State State.Same ∧
      ∀ s : Sys ι, Reachable initial s → s.Packed := by
  refine ⟨maxAvailable_eq, ReleaseState.faithful, AcquireState.faithful, State.faithful,
    fun s hs => ?_⟩
  have hreads : ∀ t, (s.frames t).Reads :=
    hs.invariant (I := fun s => ∀ t, (s.frames t).Reads)
      (fun u act u' hu _ hn => Sys.reads_next hu hn) fun _ => trivial
  exact ⟨Atomic.load_packed _, Atomic.load_packed _, Atomic.load_packed _,
    fun x => Atomic.load_packed _, fun t => (hreads t).exact⟩

end

end WeightedSemaphore
