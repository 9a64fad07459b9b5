import WeightedSemaphore.Lib.Linear
import WeightedSemaphore.Outcomes

/-!
# Calls that need no queue

`release`, `poison` and `try_acquire` alone, with a record of the calls: when each began and ended,
what it returned, and for a call that deferred to the lock owner, which call that was. The record
changes nothing about the run.
-/

namespace WeightedSemaphore

open Function (update update_self update_of_ne)
open Linear (earlier answer Explains)

inductive CounterOp
  | release (amount : ℕ)
  | poison
  | tryAcquire (amount : ℕ)
  deriving DecidableEq

namespace CounterOp

/-- A plain counter, which overflows above `cap`, and what it answers. -/
def apply (cap : ℕ) (available : Tally) : CounterOp → Tally × Ret
  | release amount => (Tally.add cap available (Tally.ofNat cap amount), .unit)
  | poison => (none, .unit)
  | tryAcquire amount =>
    match available with
    | none => (none, .poisoned)
    | some n => if amount ≤ n then (some (n - amount), .acquired) else (some n, .wouldBlock)

end CounterOp

structure Calls (ι : Type) where
  count : ℕ
  /-- The number of actions so far. -/
  time : ℕ
  op : ℕ → CounterOp
  begun : ℕ → ℕ
  ended : ℕ → Option (ℕ × Ret)
  /-- The call that held the release lock when this one deferred to it. -/
  deferredTo : ℕ → Option ℕ
  /-- The last call of each thread. -/
  current : ι → ℕ
  /-- The last call that took the release lock. -/
  holder : ℕ

namespace Calls

variable {ι : Type}

def init : Calls ι where
  count := 0
  time := 0
  op := fun _ => .poison
  begun := fun _ => 0
  ended := fun _ => none
  deferredTo := fun _ => none
  current := fun _ => 0
  holder := 0

def result (g : Calls ι) (k : ℕ) : Option Ret := (g.ended k).map Prod.snd

/-- When a call counts as over: when it returned, and for one that deferred, when the call that held
the lock returned. -/
def settled (g : Calls ι) (k : ℕ) : Option ℕ :=
  match g.deferredTo k with
  | none => (g.ended k).map Prod.fst
  | some o => (g.ended o).map Prod.fst

theorem settled_direct {g : Calls ι} {k : ℕ} (h : g.deferredTo k = none) :
    g.settled k = (g.ended k).map Prod.fst := by
  simp only [settled, h]

theorem settled_deferred {g : Calls ι} {k o : ℕ} (h : g.deferredTo k = some o) :
    g.settled k = (g.ended o).map Prod.fst := by
  simp only [settled, h]

def Precedes (g : Calls ι) (j k : ℕ) : Prop := ∃ τ r, g.ended j = some (τ, r) ∧ τ < g.begun k

def Settles (g : Calls ι) (j k : ℕ) : Prop := ∃ τ, g.settled j = some τ ∧ τ < g.begun k

end Calls

section

variable [Usize] {ι : Type} [DecidableEq ι]

namespace Call

def counterOp : Call → Option CounterOp
  | tryAcquire amount => some (.tryAcquire amount)
  | release amount => some (.release amount)
  | poison => some .poison
  | _ => none

end Call

/-- No future is created or used, and guards are not dropped. -/
def Act.QueueFree : Act ι → Bool
  | .call _ c => c.counterOp.isSome
  | .step _ _ => true
  | .acquire _ _ => false
  | .forget _ => true
  | .setPanicking _ _ => true

namespace Calls

def start (g : Calls ι) (t : ι) (op : CounterOp) : Calls ι :=
  { g with
    count := g.count + 1
    op := update g.op g.count op
    begun := update g.begun g.count g.time
    current := update g.current t g.count }

def finish (g : Calls ι) (t : ι) (ret : Ret) : Calls ι :=
  { g with ended := update g.ended (g.current t) (some (g.time, ret)) }

def defer (g : Calls ι) (t : ι) : Calls ι :=
  { g with deferredTo := update g.deferredTo (g.current t) (some g.holder) }

def lock (g : Calls ι) (t : ι) : Calls ι := { g with holder := g.current t }

def step (g : Calls ι) (t : ι) : Frame ι → Frame ι → Calls ι
  | .release _ _ (.lock _), .release _ _ .swapCancel => g.lock t
  | .release _ _ (.lock _), .idle ret => (g.defer t).finish t ret
  | _, .idle ret => g.finish t ret
  | _, _ => g

def tick (g : Calls ι) : Calls ι := { g with time := g.time + 1 }

def note (g : Calls ι) (s : Sys ι) (act : Act ι) (s' : Sys ι) : Calls ι :=
  match act with
  | .call t c =>
    match c.counterOp with
    | some op => (g.start t op).tick
    | none => g.tick
  | .step t _ => (g.step t (s.frames t) (s'.frames t)).tick
  | _ => g.tick

def next (p : Sys ι × Calls ι) (act : Act ι) : Option (Sys ι × Calls ι) :=
  (p.1.next act).map fun s' => (s', p.2.note p.1 act s')

end Calls

def QueueFreeRun (initial : ℕ) (s : Sys ι) (g : Calls ι) : Prop :=
  Runs.Steps Calls.next (fun _ act => act.QueueFree = true) (Sys.init initial, Calls.init) (s, g)

end

end WeightedSemaphore
