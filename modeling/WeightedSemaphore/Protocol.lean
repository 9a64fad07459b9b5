import WeightedSemaphore.History
import WeightedSemaphore.Lib.Tally
import Mathlib.Data.Finset.Basic
import Mathlib.Logic.Function.Basic

/-!
# The abstract semaphore protocol

What the semaphore does, without pointers, packed words, stale local copies and wakers. The queue is
a list in two parts (`linked`, which only the lock owner touches, and the waiters pushed since), the
cancel stack is a list, and permits are tallies. A step is one of the exchanges that another thread
can notice, or a decision of the lock owner. The order and the guards of the steps are those of
`release`, `poll_enter`, `try_acquire` and of the destructor of an acquire future.
-/

namespace WeightedSemaphore.Protocol

open Function (update)

/-- The life of a waiter, as its future, the queue and the lock owner see it together. -/
inductive Life
  | absent
  | entering
  | queued
  | cancelling
  | cancelled
  | finished (poisoned : Bool)
  | done
  deriving DecidableEq

inductive Acq (ω : Type)
  | available (permits : Tally)
  | queued (pushed : List ω)

inductive Rel
  | unlocked (available : Tally)
  | locked
  | lockedDirty (available : Tally)

/-- Where the lock owner stands in its pass; `accept x` has unlinked `x` and not yet accepted it. -/
inductive Phase (ω : Type)
  | swap
  | flip
  | cancel
  | accept (x : ω)
  | pop
  | unlock

structure Owner (ι ω : Type) where
  thread : ι
  releasable : Tally
  phase : Phase ω
  taken : List ω

/-- What a thread owes to the protocol. `after` is the waiter whose cancellation the thread will
wait for once its release is over. -/
inductive Role (ω : Type)
  | quiet
  | releasing (permits : Tally) (after : Option ω)
  | owning (after : Option ω)
  | cancelling (x : ω)
  | waiting (x : ω)

namespace Role

variable {ω : Type}

def holds : Role ω → Option ω
  | quiet => none
  | releasing _ after => after
  | owning after => after
  | cancelling x => some x
  | waiting x => some x

def after : Option ω → Role ω
  | none => quiet
  | some x => waiting x

@[simp] theorem holds_after (k : Option ω) : (after k).holds = k := by cases k <;> rfl

end Role

structure State (ι ω : Type) where
  acq : Acq ω
  rel : Rel
  linked : List ω
  cstack : List ω
  owner : Option (Owner ι ω)
  role : ι → Role ω
  life : ω → Life
  amount : ω → ℕ
  live : Finset ω
  uid : ω → ℕ
  nextUid : ℕ
  /-- The sum of the amounts of live guards. -/
  held : ℕ
  hist : History

variable {ι ω : Type}

namespace Phase

def accepting : Phase ω → List ω
  | accept x => [x]
  | _ => []

def Flipped : Phase ω → Prop
  | swap => False
  | flip => False
  | _ => True

end Phase

namespace State

def init (cap initial : ℕ) : State ι ω where
  acq := .available (Tally.ofNat cap initial)
  rel := .unlocked (some 0)
  linked := []
  cstack := []
  owner := none
  role := fun _ => .quiet
  life := fun _ => .absent
  amount := fun _ => 0
  live := ∅
  uid := fun _ => 0
  nextUid := 0
  held := 0
  hist := []

def pushed (a : State ι ω) : List ω :=
  match a.acq with
  | .available _ => []
  | .queued pushed => pushed

def queue (a : State ι ω) : List ω := a.linked ++ a.pushed.reverse

def accepting (a : State ι ω) : List ω :=
  match a.owner with
  | none => []
  | some o => o.phase.accepting

def taken (a : State ι ω) : List ω :=
  match a.owner with
  | none => []
  | some o => o.taken

def marked (a : State ι ω) : List ω := a.cstack ++ (a.accepting ++ a.taken)

/-- The owner of `r` permits cannot pop the front of the queue. -/
def Blocked (a : State ι ω) (r : Tally) : Prop :=
  match a.linked with
  | [] => True
  | x :: _ => a.life x = .cancelling ∨ ∃ n, r = some n ∧ n < a.amount x

end State

variable [DecidableEq ι] [DecidableEq ω]

inductive Step (cap : ℕ) : State ι ω → State ι ω → Prop
  | create {a : State ι ω} (x : ω) (n : ℕ) (hx : a.life x = .absent) :
    Step cap a { a with
      life := update a.life x .entering
      amount := update a.amount x n
      live := insert x a.live
      uid := update a.uid x a.nextUid
      nextUid := a.nextUid + 1 }
  | free {a : State ι ω} (x : ω)
    (hx : a.life x = .entering ∨ a.life x = .done ∨ a.life x = .cancelled ∨
      a.life x = .finished true)
    (hr : ∀ t, (a.role t).holds ≠ some x) :
    Step cap a { a with life := update a.life x .absent, live := a.live.erase x }
  | retire {a : State ι ω} (x : ω) (hx : a.life x = .entering) :
    Step cap a { a with life := update a.life x .done }
  | fast {a : State ι ω} (n m : ℕ) (hacq : a.acq = .available (some m)) (hn : n ≤ m) :
    Step cap a { a with
      acq := .available (some (m - n)), held := a.held + n, hist := .fastPath n :: a.hist }
  | fastPoll {a : State ι ω} (x : ω) (m : ℕ) (hacq : a.acq = .available (some m))
    (hx : a.life x = .entering) (hn : a.amount x ≤ m) :
    Step cap a { a with
      acq := .available (some (m - a.amount x))
      life := update a.life x .done
      held := a.held + a.amount x
      hist := .fastPath (a.amount x) :: a.hist }
  | enter {a : State ι ω} (t : ι) (x : ω) (n : ℕ) (pushed : List ω) (hr : a.role t = .quiet)
    (hx : a.life x = .entering)
    (hacq : a.acq = .available (some n) ∧ n < a.amount x ∧ pushed = [] ∨
      a.acq = .queued pushed ∧ n = 0) :
    Step cap a { a with
      acq := .queued (x :: pushed)
      life := update a.life x .queued
      role := update a.role t (.releasing (some n) none)
      hist := .installed (a.uid x) :: a.hist }
  | release {a : State ι ω} (t : ι) (n : ℕ) (hr : a.role t = .quiet) :
    Step cap a { a with
      role := update a.role t (.releasing (Tally.ofNat cap n) none)
      hist := .released n :: a.hist }
  | poison {a : State ι ω} (t : ι) (n : ℕ) (hr : a.role t = .quiet) (hn : n ≤ a.held) :
    Step cap a { a with
      role := update a.role t (.releasing none none)
      held := a.held - n
      hist := .poison :: a.hist }
  | dropGuard {a : State ι ω} (t : ι) (n : ℕ) (hr : a.role t = .quiet) (hn : n ≤ a.held) :
    Step cap a { a with
      role := update a.role t (.releasing (Tally.ofNat cap n) none), held := a.held - n }
  | forget {a : State ι ω} (n : ℕ) (hn : n ≤ a.held) :
    Step cap a { a with held := a.held - n, hist := .forgot n :: a.hist }
  | claim {a : State ι ω} (x : ω) (p : Bool) (hx : a.life x = .finished p) :
    Step cap a { a with
      life := update a.life x .done, held := a.held + if p then 0 else a.amount x }
  | giveBack {a : State ι ω} (t : ι) (x : ω) (hr : a.role t = .quiet)
    (hx : a.life x = .finished false) :
    Step cap a { a with
      life := update a.life x .done
      role := update a.role t (.releasing (Tally.ofNat cap (a.amount x)) none) }
  | startCancel {a : State ι ω} (t : ι) (x : ω) (hr : a.role t = .quiet)
    (hx : a.life x = .queued) :
    Step cap a { a with
      life := update a.life x .cancelling
      role := update a.role t (.cancelling x)
      hist := .cancelling (a.uid x) :: a.hist }
  | pushCancel {a : State ι ω} (t : ι) (x : ω) (hr : a.role t = .cancelling x) :
    Step cap a { a with
      cstack := x :: a.cstack, role := update a.role t (.releasing (some 0) (some x)) }
  | waited {a : State ι ω} (t : ι) (x : ω) (hr : a.role t = .waiting x)
    (hx : a.life x = .cancelled) :
    Step cap a { a with role := update a.role t .quiet }
  | lock {a : State ι ω} (t : ι) (p q : Tally) (after : Option ω)
    (hr : a.role t = .releasing p after) (hrel : a.rel = .unlocked q) :
    Step cap a { a with
      rel := .locked
      role := update a.role t (.owning after)
      owner := some ⟨t, Tally.add cap p q, .swap, []⟩ }
  | deferLocked {a : State ι ω} (t : ι) (p : Tally) (after : Option ω)
    (hr : a.role t = .releasing p after) (hrel : a.rel = .locked) :
    Step cap a { a with rel := .lockedDirty p, role := update a.role t (.after after) }
  | deferDirty {a : State ι ω} (t : ι) (p q : Tally) (after : Option ω)
    (hr : a.role t = .releasing p after) (hrel : a.rel = .lockedDirty q) :
    Step cap a { a with
      rel := .lockedDirty (Tally.add cap q p), role := update a.role t (.after after) }
  | swap {a : State ι ω} (o : Owner ι ω) (ho : a.owner = some o) (hp : o.phase = .swap) :
    Step cap a { a with
      cstack := [], owner := some { o with phase := .flip, taken := a.cstack } }
  | flipAvailable {a : State ι ω} (o : Owner ι ω) (ho : a.owner = some o) (hp : o.phase = .flip)
    (hacq : a.acq = .queued []) (hl : a.linked = []) :
    Step cap a { a with
      acq := .available o.releasable
      owner := some { o with phase := .cancel, releasable := some 0 } }
  | flipAdd {a : State ι ω} (o : Owner ι ω) (q : Tally) (ho : a.owner = some o)
    (hp : o.phase = .flip) (hacq : a.acq = .available q) :
    Step cap a { a with
      acq := .available (Tally.add cap q o.releasable)
      owner := some { o with phase := .cancel, releasable := some 0 } }
  | flipTake {a : State ι ω} (o : Owner ι ω) (pushed : List ω) (ho : a.owner = some o)
    (hp : o.phase = .flip) (hacq : a.acq = .queued pushed) (hpush : pushed ≠ []) :
    Step cap a { a with
      acq := .queued []
      linked := a.linked ++ pushed.reverse
      owner := some { o with phase := .cancel } }
  | flipSkip {a : State ι ω} (o : Owner ι ω) (ho : a.owner = some o) (hp : o.phase = .flip)
    (hacq : a.acq = .queued []) (hl : a.linked ≠ []) :
    Step cap a { a with owner := some { o with phase := .cancel } }
  | unlink {a : State ι ω} (o : Owner ι ω) (x : ω) (taken : List ω) (ho : a.owner = some o)
    (hp : o.phase = .cancel) (ht : o.taken = x :: taken) :
    Step cap a { a with
      linked := a.linked.erase x
      owner := some { o with phase := .accept x, taken := taken }
      hist := .unlinked (a.uid x) :: a.hist }
  | accept {a : State ι ω} (o : Owner ι ω) (x : ω) (ho : a.owner = some o)
    (hp : o.phase = .accept x) :
    Step cap a { a with
      life := update a.life x .cancelled
      owner := some { o with phase := .cancel }
      hist := .cancelled (a.uid x) :: a.hist }
  | cancelled {a : State ι ω} (o : Owner ι ω) (ho : a.owner = some o) (hp : o.phase = .cancel)
    (ht : o.taken = []) :
    Step cap a { a with owner := some { o with phase := .pop } }
  | grant {a : State ι ω} (o : Owner ι ω) (x : ω) (linked : List ω) (n : ℕ)
    (ho : a.owner = some o) (hp : o.phase = .pop) (hl : a.linked = x :: linked)
    (hx : a.life x = .queued) (hr : o.releasable = some n) (hn : a.amount x ≤ n) :
    Step cap a { a with
      linked := linked
      life := update a.life x (.finished false)
      owner := some { o with releasable := some (n - a.amount x) }
      hist := .finished (a.uid x) false :: a.hist }
  | fail {a : State ι ω} (o : Owner ι ω) (x : ω) (linked : List ω) (ho : a.owner = some o)
    (hp : o.phase = .pop) (hl : a.linked = x :: linked) (hx : a.life x = .queued)
    (hr : o.releasable = none) :
    Step cap a { a with
      linked := linked
      life := update a.life x (.finished true)
      hist := .finished (a.uid x) true :: a.hist }
  | stop {a : State ι ω} (o : Owner ι ω) (ho : a.owner = some o) (hp : o.phase = .pop)
    (hb : a.Blocked o.releasable) :
    Step cap a { a with owner := some { o with phase := .unlock } }
  | relock {a : State ι ω} (o : Owner ι ω) (q : Tally) (ho : a.owner = some o)
    (hp : o.phase = .unlock) (hrel : a.rel = .lockedDirty q) :
    Step cap a { a with
      rel := .locked
      owner := some { o with phase := .swap, releasable := Tally.add cap o.releasable q } }
  | unlock {a : State ι ω} (o : Owner ι ω) (after : Option ω) (ho : a.owner = some o)
    (hp : o.phase = .unlock) (hrel : a.rel = .locked) (hr : a.role o.thread = .owning after) :
    Step cap a { a with
      rel := .unlocked o.releasable
      owner := none
      role := update a.role o.thread (.after after) }

end WeightedSemaphore.Protocol
