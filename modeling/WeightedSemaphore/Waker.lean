import WeightedSemaphore.Word

/-!
# The waker shared by a future and its producer

`AtomicWaker` synchronizes a future, which registers wakers and may cancel, with a producer, which
marks the future as finished or accepts its cancellation. Each method is written as a program over
one waker: a program counter type with its live locals, and a function that performs the next
atomic access. A clone of a `Waker` is a token `tok`, whose data pointer and vtable pointer are both
the number `tok`; `0` is the null pointer.
-/

namespace WeightedSemaphore

variable [Usize]

namespace Waker

inductive State
  | pending (seq : ℕ)
  /-- A poll is in progress, storing a new waker. -/
  | storing (seq : ℕ)
  /-- A finish has succeeded, and will call wake if necessary. -/
  | finished (poisoned : Bool)
  /-- `startCancel` has been called. -/
  | cancelling
  /-- `acceptCancel` has been called. -/
  | cancelled
  deriving DecidableEq

namespace State

def encode : State → ℕ
  | pending seq => shl seq 3 ||| 0
  | storing seq => shl seq 3 ||| 1
  | finished false => 2
  | finished true => 3
  | cancelling => 4
  | cancelled => 5

/-- The remaining tags are `unreachable!()`. -/
def decode (val : ℕ) : Option State :=
  match val &&& 7 with
  | 0 => some (pending (val >>> 3))
  | 1 => some (storing (val >>> 3))
  | 2 => some (finished false)
  | 3 => some (finished true)
  | 4 => some cancelling
  | 5 => some cancelled
  | _ => none

/-- Sequence numbers are stored modulo the payload of the word. -/
def canon : State → State
  | pending seq => pending (seq % payload)
  | storing seq => storing (seq % payload)
  | st => st

theorem shl_three_or (seq t : ℕ) (ht : t < 8) : shl seq 3 ||| t = 8 * (seq % payload) + t := by
  rw [shl_three, mul_eight_or _ _ ht]

instance : Packable State where
  encode := encode
  decode := decode
  canon := canon
  decode_encode v := by
    cases v with
    | pending seq =>
      obtain ⟨ht, hn⟩ := tag_payload (seq % payload) 0 (by decide)
      rw [encode, shl_three_or seq 0 (by decide), decode, ht, hn]
      rfl
    | storing seq =>
      obtain ⟨ht, hn⟩ := tag_payload (seq % payload) 1 (by decide)
      rw [encode, shl_three_or seq 1 (by decide), decode, ht, hn]
      rfl
    | finished poisoned => cases poisoned <;> simp [encode, canon, decode]
    | cancelling => simp [encode, canon, decode]
    | cancelled => simp [encode, canon, decode]
  encode_canon v := by
    cases v with
    | pending seq => simp only [canon, encode, shl_three, Nat.mod_mod]
    | storing seq => simp only [canon, encode, shl_three, Nat.mod_mod]
    | finished poisoned => rfl
    | cancelling => rfl
    | cancelled => rfl

end State

end Waker

open Waker (State)

inductive Flow (π ρ : Type)
  | goto (pc : π)
  | ret (val : ρ)
  | panic

structure AtomicWaker (ι : Type) where
  vtable : ℕ
  data : ℕ
  state : Atomic State
  /-- The thread waiting for acceptance of cancellation. -/
  thread : Option ι

namespace AtomicWaker

variable {ι : Type}

def new : AtomicWaker ι := ⟨0, 0, .new (.pending 0), none⟩

/-- A step of a method: the waker after it, what follows, and the `Waker` it dropped, as the pair of
pointers it was rebuilt from. -/
structure Step (ι π ρ : Type) where
  waker : AtomicWaker ι
  flow : Flow π ρ
  dropped : Option (ℕ × ℕ)

/-- Program counters of `poll`. The first loop is at `start`, the second at `publish`. -/
inductive PollPc
  | load
  | start (current : State)
  | loadData (current : State)
  | loadVtable (current : State) (oldData : ℕ)
  | storeData (current : State) (oldData oldVtable : ℕ)
  | storeVtable (current : State) (oldData oldVtable : ℕ)
  | publish (current : State)
  deriving DecidableEq

inductive PollResult
  | pending
  | ready (poisoned : Bool)
  deriving DecidableEq

/-- Store a new waker and return the poisoned bit if finished. `tok` is the clone of the context's
waker made on entry. -/
def poll (w : AtomicWaker ι) (tok : ℕ) (spurious : Bool) : PollPc → Step ι PollPc PollResult
  | .load => ⟨w, .goto (.start w.state.load), none⟩
  | .start (.pending seq) =>
    match w.state.cmpxchgWeak (.pending seq) (.storing seq) spurious with
    | some state => ⟨{ w with state }, .goto (.loadData (.storing seq)), none⟩
    | none => ⟨w, .goto (.start w.state.load), none⟩
  | .start (.finished poisoned) => ⟨w, .ret (.ready poisoned), some (tok, tok)⟩
  | .start _ => ⟨w, .panic, none⟩
  | .loadData current => ⟨w, .goto (.loadVtable current w.data), none⟩
  | .loadVtable current oldData => ⟨w, .goto (.storeData current oldData w.vtable), none⟩
  | .storeData current oldData oldVtable =>
    ⟨{ w with data := tok }, .goto (.storeVtable current oldData oldVtable), none⟩
  | .storeVtable current oldData oldVtable =>
    ⟨{ w with vtable := tok }, .goto (.publish current),
      if oldVtable = 0 then none else some (oldData, oldVtable)⟩
  | .publish (.storing seq) =>
    match w.state.cmpxchgWeak (.storing seq) (.pending (seq + 1)) spurious with
    | some state => ⟨{ w with state }, .ret .pending, none⟩
    | none => ⟨w, .goto (.publish w.state.load), none⟩
  | .publish (.finished poisoned) => ⟨w, .ret (.ready poisoned), some (tok, tok)⟩
  | .publish _ => ⟨w, .panic, none⟩

inductive FinishPc
  | load
  | test (current : State)
  | loadVtable (current : State) (data : ℕ)
  | exchange (current : State) (data vtable : ℕ)
  deriving DecidableEq

inductive FinishResult
  | cancelling
  | finished (wake : Option (ℕ × ℕ))
  deriving DecidableEq

def finish (w : AtomicWaker ι) (poisoned spurious : Bool) :
    FinishPc → Step ι FinishPc FinishResult
  | .load => ⟨w, .goto (.test w.state.load), none⟩
  | .test (.pending seq) => ⟨w, .goto (.loadVtable (.pending seq) w.data), none⟩
  | .test (.storing seq) =>
    match w.state.cmpxchgWeak (.storing seq) (.finished poisoned) spurious with
    | some state => ⟨{ w with state }, .ret (.finished none), none⟩
    | none => ⟨w, .goto (.test w.state.load), none⟩
  | .test .cancelling => ⟨w, .ret .cancelling, none⟩
  | .test _ => ⟨w, .panic, none⟩
  | .loadVtable current data => ⟨w, .goto (.exchange current data w.vtable), none⟩
  | .exchange current data vtable =>
    match w.state.cmpxchgWeak current (.finished poisoned) spurious with
    | some state => ⟨{ w with state }, .ret (.finished (some (data, vtable))), none⟩
    | none => ⟨w, .goto (.test w.state.load), none⟩

inductive StartCancelPc
  | load
  | exchange (current : State)
  deriving DecidableEq

inductive WakerResult
  /-- The producer should `acceptCancel`, the future thread should `waitCancel`. -/
  | cancelling
  /-- The future completed. -/
  | finished (poisoned : Bool)
  deriving DecidableEq

/-- `current` is the calling thread. -/
def startCancel (w : AtomicWaker ι) (self : ι) (spurious : Bool) :
    StartCancelPc → Step ι StartCancelPc WakerResult
  | .load => ⟨{ w with thread := some self }, .goto (.exchange w.state.load), none⟩
  | .exchange (.pending seq) =>
    match w.state.cmpxchgWeak (.pending seq) .cancelling spurious with
    | some state => ⟨{ w with state }, .ret .cancelling, none⟩
    | none => ⟨w, .goto (.exchange w.state.load), none⟩
  | .exchange (.finished poisoned) => ⟨w, .ret (.finished poisoned), none⟩
  | .exchange _ => ⟨w, .panic, none⟩

inductive WaitCancelPc
  | load
  /-- Inside `thread::park()`. -/
  | park
  deriving DecidableEq

/-- Wait for the producer thread to accept cancellation. Leaving `park` is a step of the caller,
which holds the thread's parking token. -/
def waitCancel (w : AtomicWaker ι) : WaitCancelPc → Step ι WaitCancelPc Unit
  | .load =>
    match w.state.load with
    | .cancelling => ⟨w, .goto .park, none⟩
    | .cancelled => ⟨w, .ret (), none⟩
    | _ => ⟨w, .panic, none⟩
  | .park => ⟨w, .goto .load, none⟩

inductive AcceptCancelPc (ι : Type)
  | load
  | exchange (current : State)
  | unpark (thread : ι)

/-- Accept cancellation on the producer thread, notifying the future thread, which is returned when
it is unparked. The thread handle is taken before the exchange and put back if that fails; nothing
else reads it in between. -/
def acceptCancel (w : AtomicWaker ι) (spurious : Bool) :
    AcceptCancelPc ι → Step ι (AcceptCancelPc ι) ι
  | .load => ⟨w, .goto (.exchange w.state.load), none⟩
  | .exchange .cancelling =>
    match w.thread with
    | none => ⟨w, .panic, none⟩
    | some thread =>
      match w.state.cmpxchgWeak .cancelling .cancelled spurious with
      | some state => ⟨{ w with state, thread := none }, .goto (.unpark thread), none⟩
      | none => ⟨w, .goto (.exchange w.state.load), none⟩
  | .exchange _ => ⟨w, .panic, none⟩
  | .unpark thread => ⟨w, .ret thread, none⟩

def drop (w : AtomicWaker ι) (panicking : Bool) : Step ι Unit Unit :=
  match w.state.load with
  | .pending _ | .cancelled =>
    ⟨w, .ret (), if w.vtable = 0 then none else some (w.data, w.vtable)⟩
  | .finished _ => ⟨w, .ret (), none⟩
  | _ => if panicking then ⟨w, .ret (), none⟩ else ⟨w, .panic, none⟩

end AtomicWaker

end WeightedSemaphore
