import WeightedSemaphore.WakerSpec
import WeightedSemaphore.Lib.Runs

/-!
# One waker, a future and a producer

The system in which a single `AtomicWaker` is used. The future side polls any number of times, with
a fresh clone of some context's waker each time, and may then call `start_cancel` and `wait_cancel`.
The producer side calls `finish` until it returns `Finished`, and `accept_cancel` once a
cancellation has started. Either side takes its next atomic access whenever it likes, and every weak
exchange may fail spuriously. The log holds what the two sides have observed, newest first.
-/

namespace WeightedSemaphore

variable [Usize] {ι : Type}

open AtomicWaker (PollPc PollResult FinishPc FinishResult StartCancelPc WakerResult WaitCancelPc
  AcceptCancelPc)
open Waker (State Kind)

namespace Handshake

inductive Event
  /-- A poll cloned the waker `tok`. -/
  | began (tok : ℕ)
  /-- The poll of `tok` returned `Poll::Pending`. -/
  | pending (tok : ℕ)
  /-- The poll of `tok` returned `Poll::Ready`. -/
  | ready (tok : ℕ) (poisoned : Bool)
  /-- `start_cancel` returned `Cancelling`. -/
  | cancelling
  /-- `start_cancel` returned `Finished`. -/
  | cancelFinished (poisoned : Bool)
  | waited
  /-- `finish` returned `Cancelling`. -/
  | finishCancelling
  /-- The exchange of `finish` succeeded; it took the pair to wake from the waker. -/
  | exchanged (poisoned : Bool) (wake : Option (ℕ × ℕ))
  /-- `finish` returned `Finished`. -/
  | finished (poisoned : Bool)
  /-- The exchange of `accept_cancel` succeeded. -/
  | accepted
  | woken (data vtable : ℕ)
  | dropped (data vtable : ℕ)
  deriving DecidableEq

def Event.isPending : Event → Bool
  | pending _ => true
  | _ => false

def Event.isFinished : Event → Bool
  | finished _ => true
  | _ => false

inductive Future (ι : Type)
  | idle
  | poll (tok : ℕ) (pc : PollPc)
  | startCancel (self : ι) (pc : StartCancelPc)
  /-- `start_cancel` returned `Cancelling`. -/
  | cancelling
  | waitCancel (pc : WaitCancelPc)
  /-- The cancellation is over: nothing but the destructor is left. -/
  | ended
  | dropped
  | panicked

inductive Producer (ι : Type)
  | idle
  | finish (poisoned : Bool) (pc : FinishPc)
  /-- `finish` is in `waker.wake()`. -/
  | wake (poisoned : Bool) (data vtable : ℕ)
  | acceptCancel (pc : AcceptCancelPc ι)
  | panicked

inductive Act (ι : Type)
  | poll
  | startCancel (self : ι)
  | waitCancel
  | finish (poisoned : Bool)
  | acceptCancel
  | drop
  /-- The next access of the future side. -/
  | future (spurious : Bool)
  /-- The next access of the producer side. -/
  | producer (spurious : Bool)

/-- The destructor may run: neither side is inside a method that uses the waker. -/
def Droppable : Future ι → Producer ι → Bool
  | .idle, .finish _ _ => false
  | .ended, .finish _ _ => false
  | .idle, .acceptCancel (.unpark _) => true
  | .ended, .acceptCancel (.unpark _) => true
  | .idle, .acceptCancel _ => false
  | .ended, .acceptCancel _ => false
  | .idle, _ => true
  | .ended, _ => true
  | _, _ => false

end Handshake

open Handshake

structure Handshake (ι : Type) where
  waker : AtomicWaker ι
  future : Future ι
  producer : Producer ι
  /-- The next clone of a waker. -/
  nextTok : ℕ
  /-- The polls that returned `Pending` since `finish` last read the state. -/
  since : ℕ
  log : List Handshake.Event

namespace Handshake

def init : Handshake ι where
  waker := .new
  future := .idle
  producer := .idle
  nextTok := 1
  since := 0
  log := []

def logEvent (s : Handshake ι) (e : Event) : Handshake ι := { s with log := e :: s.log }

def run {π ρ : Type} (s : Handshake ι) (r : AtomicWaker.Step ι π ρ) : Handshake ι :=
  { s with
    waker := r.waker
    log := match r.dropped with
      | none => s.log
      | some (data, vtable) => .dropped data vtable :: s.log }

def runPoll (s : Handshake ι) (tok : ℕ) (r : AtomicWaker.Step ι PollPc PollResult) :
    Handshake ι :=
  match r.flow with
  | .goto pc => { s.run r with future := .poll tok pc }
  | .ret .pending =>
    { (s.run r).logEvent (.pending tok) with future := .idle, since := s.since + 1 }
  | .ret (.ready p) => { (s.run r).logEvent (.ready tok p) with future := .idle }
  | .panic => { s.run r with future := .panicked }

def runStartCancel (s : Handshake ι) (self : ι) (r : AtomicWaker.Step ι StartCancelPc WakerResult) :
    Handshake ι :=
  match r.flow with
  | .goto pc => { s.run r with future := .startCancel self pc }
  | .ret .cancelling => { (s.run r).logEvent .cancelling with future := .cancelling }
  | .ret (.finished p) => { (s.run r).logEvent (.cancelFinished p) with future := .ended }
  | .panic => { s.run r with future := .panicked }

/-- `park` may return at any time. -/
def runWaitCancel (s : Handshake ι) (r : AtomicWaker.Step ι WaitCancelPc Unit) : Handshake ι :=
  match r.flow with
  | .goto pc => { s.run r with future := .waitCancel pc }
  | .ret () => { (s.run r).logEvent .waited with future := .ended }
  | .panic => { s.run r with future := .panicked }

def runDrop (s : Handshake ι) (r : AtomicWaker.Step ι Unit Unit) : Handshake ι :=
  match r.flow with
  | .panic => { s.run r with future := .panicked }
  | _ => { s.run r with future := .dropped }

def runFinish (s : Handshake ι) (p : Bool) (r : AtomicWaker.Step ι FinishPc FinishResult) :
    Handshake ι :=
  match r.flow with
  -- `test` is entered by a load of the state only
  | .goto (.test current) => { s.run r with producer := .finish p (.test current), since := 0 }
  | .goto pc => { s.run r with producer := .finish p pc }
  | .ret .cancelling => { (s.run r).logEvent .finishCancelling with producer := .idle }
  | .ret (.finished none) =>
    { ((s.run r).logEvent (.exchanged p none)).logEvent (.finished p) with producer := .idle }
  | .ret (.finished (some (data, vtable))) =>
    { (s.run r).logEvent (.exchanged p (some (data, vtable))) with
      producer := .wake p data vtable }
  | .panic => { s.run r with producer := .panicked }

def runAcceptCancel (s : Handshake ι) (r : AtomicWaker.Step ι (AcceptCancelPc ι) ι) :
    Handshake ι :=
  match r.flow with
  | .goto (.unpark thread) =>
    { (s.run r).logEvent .accepted with producer := .acceptCancel (.unpark thread) }
  | .goto pc => { s.run r with producer := .acceptCancel pc }
  | .ret _ => { s.run r with producer := .idle }
  | .panic => { s.run r with producer := .panicked }

def stepFuture (s : Handshake ι) (spurious : Bool) : Option (Handshake ι) :=
  match s.future with
  | .poll tok pc => some (s.runPoll tok (s.waker.poll tok spurious pc))
  | .startCancel self pc => some (s.runStartCancel self (s.waker.startCancel self spurious pc))
  | .waitCancel pc => some (s.runWaitCancel (s.waker.waitCancel pc))
  | _ => none

def stepProducer (s : Handshake ι) (spurious : Bool) : Option (Handshake ι) :=
  match s.producer with
  | .finish p pc => some (s.runFinish p (s.waker.finish p spurious pc))
  | .wake p data vtable =>
    some { (s.logEvent (.woken data vtable)).logEvent (.finished p) with producer := .idle }
  | .acceptCancel pc => some (s.runAcceptCancel (s.waker.acceptCancel spurious pc))
  | _ => none

def next (s : Handshake ι) : Act ι → Option (Handshake ι)
  | .poll =>
    match s.future with
    | .idle => some { s.logEvent (.began s.nextTok) with
        future := .poll s.nextTok .load, nextTok := s.nextTok + 1 }
    | _ => none
  | .startCancel self =>
    match s.future with
    | .idle => some { s with future := .startCancel self .load }
    | _ => none
  | .waitCancel =>
    match s.future with
    | .cancelling => some { s with future := .waitCancel .load }
    | _ => none
  | .finish p =>
    match s.future, s.producer with
    | .dropped, _ => none
    | _, .idle =>
      if s.log.any Event.isPending && !s.log.any Event.isFinished then
        some { s with producer := .finish p .load }
      else none
    | _, _ => none
  | .acceptCancel =>
    match s.future, s.producer with
    | .dropped, _ => none
    | _, .idle =>
      if .cancelling ∈ s.log then some { s with producer := .acceptCancel .load } else none
    | _, _ => none
  | .drop => if Droppable s.future s.producer then some (s.runDrop (s.waker.drop false)) else none
  | .future spurious => s.stepFuture spurious
  | .producer spurious => s.stepProducer spurious

abbrev Reachable (s : Handshake ι) : Prop := Runs.Reaches next init s

end Handshake

end WeightedSemaphore
