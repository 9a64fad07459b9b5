import WeightedSemaphore.Lib.Logs
import WeightedSemaphore.Returns

/-!
# The work of the lock owner

`Sys.deed` names what an action contributes to the work done inside of `release`: which loop it
turns, whether it retries a compare-exchange, and how it enters or leaves the lock. Every step of a
thread in `release` is one deed. `ReleasePc.rank` bounds the steps that remain until a loop turns,
and `Stage` is all that the accounts of the lock need to know of a thread.
-/

namespace WeightedSemaphore

open Function (update)
open AtomicWaker (FinishPc AcceptCancelPc)

inductive Deed
  /-- A call began. -/
  | called
  /-- `poll_enter` pushed a waiter. -/
  | pushed (uid : ℕ)
  /-- A compare-exchange failed. -/
  | retried
  | locked
  /-- The exchange to `LockedDirty` that ends a release without the lock. -/
  | deferred
  /-- The outer loop of `release` begins a pass. -/
  | pass
  /-- The loop in `flip` is at a waiter. -/
  | visited (uid : ℕ)
  /-- The loop in `cancel` is at a waiter. -/
  | removed (uid : ℕ)
  /-- `try_pop` finished a waiter and returns true. -/
  | popped (uid : ℕ)
  /-- `try_pop` returns false. -/
  | refused
  | relocked
  | unlocked
  | plain
  deriving DecidableEq

namespace Deed

/-- The deeds of a single turn of a loop, a retry, or a new call. -/
def charged : Deed → Bool
  | called => true
  | retried => true
  | pass => true
  | visited _ => true
  | removed _ => true
  | popped _ => true
  | _ => false

def pushed? : Deed → Option ℕ
  | pushed u => some u
  | _ => none

def visited? : Deed → Option ℕ
  | visited u => some u
  | _ => none

def removed? : Deed → Option ℕ
  | removed u => some u
  | _ => none

def popped? : Deed → Option ℕ
  | popped u => some u
  | _ => none

def pushes (w : List Deed) : List ℕ := w.filterMap pushed?

def visits (w : List Deed) : List ℕ := w.filterMap visited?

def removals (w : List Deed) : List ℕ := w.filterMap removed?

def pops (w : List Deed) : List ℕ := w.filterMap popped?

def tenure (w : List Deed) : List Deed := w.takeWhile (· ≠ locked)

def lastPass (w : List Deed) : List Deed := w.takeWhile (· ≠ pass)

end Deed

variable [Usize] {ι : Type}

namespace ReleasePc

def deed (s : Sys ι) (f : Frame ι) : ReleasePc ι → Deed
  | lock _ =>
    match f with
    | .release _ _ (.lock _) => .retried
    | .release _ _ .swapCancel => .locked
    | _ => .deferred
  | swapCancel => .pass
  | flip _ _ =>
    match f with
    | .release _ _ (.flip _ _) => .retried
    | _ => .plain
  | walk _ _ waiter => if waiter = null then .plain else .visited (s.ghost.uid waiter)
  | cancel nextCancel => if nextCancel = null then .plain else .removed (s.ghost.uid nextCancel)
  | accept _ _ (.exchange _) =>
    match f with
    | .release _ _ (.accept _ _ (.exchange _)) => .retried
    | _ => .plain
  | tryPop =>
    match f with
    | .release _ _ .unlockLoad => if s.sem.front = null then .plain else .refused
    | _ => .plain
  | finish pop (.test _) =>
    match f with
    | .release _ _ (.finish _ (.test _)) => .retried
    | .release _ _ .unlockLoad => .refused
    | .release _ _ (.relink _) => .popped (s.ghost.uid pop.front)
    | _ => .plain
  | finish pop (.exchange _ _ _) =>
    match f with
    | .release _ _ (.finish _ _) => .retried
    | .release _ _ (.wake _ _ _) => .popped (s.ghost.uid pop.front)
    | _ => .plain
  | unlock _ =>
    match f with
    | .release _ _ (.unlock _) => .retried
    | .release _ _ .swapCancel => .relocked
    | .panicked => .plain
    | _ => .unlocked
  | _ => .plain

/-- The steps that remain until a loop turns, an exchange fails or the call returns. -/
def rank : ReleasePc ι → ℕ
  | lockLoad => 2
  | lock _ => 1
  | swapCancel => 0
  | flipLoad _ => 10
  | flip _ _ => 9
  | walk _ _ _ => 8
  | cancel _ => 7
  | accept _ _ .load => 10
  | accept _ _ (.exchange _) => 9
  | accept _ _ (.unpark _) => 8
  | tryPop => 6
  | finish _ .load => 5
  | finish _ (.test _) => 4
  | finish _ (.loadVtable _ _) => 3
  | finish _ (.exchange _ _ _) => 2
  | wake _ _ _ => 8
  | relink _ => 7
  | unlockLoad => 2
  | unlock _ => 1

end ReleasePc

namespace Frame

def rank : Frame ι → ℕ
  | pollEnter _ _ => 3
  | dropFuture _ (.startCancel _) => 2
  | dropFuture _ .loadCancel => 2
  | dropFuture _ (.pushCancel _) => 2
  | release _ _ pc => pc.rank
  | _ => 0

def locks : Frame ι → ℕ
  | pollEnter _ _ => 1
  | dropFuture _ (.startCancel _) => 1
  | dropFuture _ .loadCancel => 1
  | dropFuture _ (.pushCancel _) => 1
  | release _ _ .lockLoad => 1
  | release _ _ (.lock _) => 1
  | _ => 0

def pushes : Frame ι → ℕ
  | pollEnter _ _ => 1
  | _ => 0

end Frame

inductive Stage
  | outside
  /-- About to begin a pass. -/
  | coming
  /-- In a pass, where the queue may be popped. -/
  | popping
  /-- At the end of a pass. -/
  | leaving
  deriving DecidableEq

def ReleasePc.stage : ReleasePc ι → Stage
  | lockLoad => .outside
  | lock _ => .outside
  | swapCancel => .coming
  | unlockLoad => .leaving
  | unlock _ => .leaving
  | _ => .popping

def Frame.stage : Frame ι → Stage
  | release _ _ pc => pc.stage
  | _ => .outside

/-- What the accounts need to know of the release word. -/
inductive Held
  | free
  | clean
  | dirty
  deriving DecidableEq

def ReleaseState.held : ReleaseState → Held
  | unlocked _ => .free
  | locked => .clean
  | lockedDirty _ => .dirty

@[simp] theorem ReleaseState.held_canon (v : ReleaseState) :
    (Packable.canon v).held = v.held := by
  cases v <;> rfl

/-- The deeds of a thread and of the release word that can accompany a change of stage. -/
inductive Stage.Moves : Stage → Held → Option Deed → Stage → Held → Prop
  | enter (h : Held) (d : Option Deed) (hd : d = none ∨ d = some .called ∨ d = some .plain ∨
      d = some .retried ∨ ∃ u, d = some (.pushed u)) : Moves outside h d outside h
  | lock (h h' : Held) (hh : h = .free) (hh' : h' = .clean) :
    Moves outside h (some .locked) coming h'
  | defer (h h' : Held) (hh : h ≠ .free) (hh' : h' = .dirty) :
    Moves outside h (some .deferred) outside h'
  | pass (h : Held) : Moves coming h (some .pass) popping h
  | work (h : Held) (d : Deed) (st : Stage) (hst : st ≠ coming) (hd : d = .plain ∨ d = .retried ∨
      (∃ u, d = .visited u) ∨ (∃ u, d = .removed u) ∨ ∃ u, d = .popped u) :
      Moves popping h (some d) st h
  | refuse (h : Held) : Moves popping h (some .refused) leaving h
  | leave (h : Held) (d : Deed) (st : Stage) (hst : st = outside ∨ st = leaving)
      (hd : d = .plain ∨ d = .retried) : Moves leaving h (some d) st h
  | relock (h h' : Held) (hh : h = .dirty) (hh' : h' = .clean) :
    Moves leaving h (some .relocked) coming h'
  | unlock (h h' : Held) (hh : h = .clean) (hh' : h' = .free) :
    Moves leaving h (some .unlocked) outside h'

omit [Usize] in
/-- A thread comes into a pass only from inside of the lock. -/
theorem Stage.Moves.inside {st : Stage} {h h' : Held} {d : Option Deed}
    (hm : Stage.Moves st h d .popping h') : st ≠ .outside := by
  rintro rfl
  cases hm

namespace Sys

def deed (s : Sys ι) (act : Act ι) (s' : Sys ι) : Option Deed :=
  match act with
  | .call _ _ => some .called
  | .step t _ =>
    match s.frames t with
    | .release _ _ pc => some (pc.deed s (s'.frames t))
    | .pollEnter a (.push _ _ _) =>
      match s'.frames t with
      | .release _ _ _ => some (.pushed (s.ghost.uid a))
      | _ => none
    | _ => none
  | _ => none

def held (s : Sys ι) : Held := s.sem.release.load.held

end Sys

/-- The deed `d` takes a frame to the next one, within the rank and the rights of the frame. -/
structure Frame.Does (f : Frame ι) (d : Option Deed) (f' : Frame ι) : Prop where
  rank : f'.rank + d.toList.length ≤ f.rank + 11 * d.toList.countP Deed.charged
  locks : f'.locks + d.toList.countP (fun d => d = .locked ∨ d = .deferred) ≤
    f.locks + d.toList.count .called
  pushes : f'.pushes + (Deed.pushes d.toList).length ≤
    f.pushes + d.toList.count .called

structure Sys.Performs [DecidableEq ι] (s : Sys ι) (t : ι) (d : Option Deed) (s' : Sys ι) :
    Prop where
  frames : ∃ f, s'.frames = update s.frames t f
  does : (s.frames t).Does d (s'.frames t)
  moves : Stage.Moves (s.frames t).stage s.held d (s'.frames t).stage s'.held

def Frame.Spent (f : Frame ι) : Prop :=
  f.rank = 0 ∧ f.locks = 0 ∧ f.pushes = 0 ∧ f.stage = .outside

end WeightedSemaphore
