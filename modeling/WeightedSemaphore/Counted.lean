import WeightedSemaphore.Guard

/-!
# Reference counting

A semaphore behind an `Arc`. Clones of the `Arc`, acquire futures of the second kind and their
guards each own a reference, and the semaphore is freed when the strong count drops to 0. A method
accesses the semaphore through a reference that it borrows or owns; only the destructor of an
`AcquireFutureArc` goes on after its field `arc` is dropped, since `inner` is declared later.
-/

namespace WeightedSemaphore

open Function (update)

variable [Usize] {ι : Type}

def GuardDrop.call : GuardDrop → Call
  | poison => .poison
  | release amount => .release amount

inductive ArcOp
  | idle
  /-- `release` or `poison`, called on a clone. -/
  | borrow (clone : ℕ)
  /-- `Semaphore::try_acquire_arc`, up to the return of `try_acquire`. -/
  | tryAcquire (clone amount : ℕ)
  /-- At the `self.clone()` of `try_acquire_arc`. -/
  | cloneSelf (clone amount : ℕ)
  /-- `poll` of an `AcquireFutureArc`, up to the return of the poll of `inner`. -/
  | poll (a : Ptr)
  /-- At the `this.arc.clone()` of `poll`, with the amount of the guard that was returned. -/
  | cloneArc (a : Ptr) (guard : Option ℕ)
  /-- `guard?` returns an error: the clone is dropped. -/
  | dropClone (a : Ptr)
  /-- The destructor of the field `inner`, after that of `arc`. -/
  | dropInner (a : Ptr)
  /-- `Drop for SemaphoreGuardArc`, up to the return of `release` or `poison`. -/
  | dropGuard
  /-- The local `semaphore` of that destructor is dropped. -/
  | dropSemaphore
  deriving DecidableEq

structure Counted (ι : Type) where
  sys : Sys ι
  strong : ℕ
  /-- The clones of the `Arc` that there are, and who calls methods on them. -/
  clones : Finset ℕ
  nextClone : ℕ
  borrowers : ℕ → Finset ι
  /-- The acquire futures that have their field `arc`, and who polls them. -/
  futures : Finset Ptr
  poller : Ptr → Option ι
  guards : List (SemaphoreGuardArc Unit)
  ops : ι → ArcOp

namespace Counted

inductive Act (ι : Type)
  | clone (c : ℕ)
  | dropClone (c : ℕ)
  | release (t : ι) (c amount : ℕ)
  | poison (t : ι) (c : ℕ)
  | acquireArc (c : ℕ) (a : Ptr) (amount : ℕ)
  | tryAcquireArc (t : ι) (c amount : ℕ)
  | poll (t : ι) (a : Ptr)
  | dropFuture (t : ι) (a : Ptr)
  /-- `SemaphoreGuardArc::new` on a clone. -/
  | newGuard (t : ι) (c amount : ℕ)
  | split (i permits : ℕ)
  | extend (i j : ℕ)
  | forget (i : ℕ)
  | dropGuard (t : ι) (i : ℕ)
  | setPanicking (t : ι) (panicking : Bool)
  | step (t : ι) (spurious : Bool)
  deriving DecidableEq

/-- `Arc::new(Semaphore::new(initial))`. -/
def init (initial : ℕ) : Counted ι where
  sys := .init initial
  strong := 1
  clones := {0}
  nextClone := 1
  borrowers := fun _ => ∅
  futures := ∅
  poller := fun _ => none
  guards := []
  ops := fun _ => .idle

variable [DecidableEq ι]

def goto (s : Counted ι) (t : ι) (op : ArcOp) : Counted ι := { s with ops := update s.ops t op }

def borrow (s : Counted ι) (t : ι) (c : ℕ) : Counted ι :=
  { s with borrowers := update s.borrowers c (insert t (s.borrowers c)) }

def unborrow (s : Counted ι) (t : ι) (c : ℕ) : Counted ι :=
  { s with borrowers := update s.borrowers c ((s.borrowers c).erase t) }

def setPoller (s : Counted ι) (a : Ptr) (t : Option ι) : Counted ι :=
  { s with poller := update s.poller a t }

/-- `Arc::clone`. -/
def incr (s : Counted ι) : Counted ι := { s with strong := s.strong + 1 }

/-- `Drop for Arc`. -/
def decr (s : Counted ι) : Counted ι := { s with strong := s.strong - 1 }

/-- `SemaphoreGuardArc::new`. -/
def newGuard (s : Counted ι) (t : ι) (amount : ℕ) : Counted ι :=
  { s with guards := .new () amount (s.sys.panicking t) :: s.guards }

def forgetGuard (s : Counted ι) : Option (ℕ × Counted ι) :=
  match s.sys.guards with
  | [] => none
  | guard :: _ => (s.sys.next (.forget 0)).map fun sys => (guard.forget, { s with sys })

/-- Go on with `t` when the method of the semaphore that it has called returns. -/
def resume (s : Counted ι) (t : ι) : Option (Counted ι) :=
  match s.ops t, s.sys.frames t with
  | .borrow c, .idle _ => some ((s.unborrow t c).goto t .idle)
  | .tryAcquire c amount, .idle .acquired =>
    s.forgetGuard.map fun (_, s) => s.goto t (.cloneSelf c amount)
  | .tryAcquire c _, .idle _ => some ((s.unborrow t c).goto t .idle)
  | .poll a, .idle .ready =>
    s.forgetGuard.map fun (amount, s) => s.goto t (.cloneArc a (some amount))
  | .poll a, .idle .readyErr => some (s.goto t (.cloneArc a none))
  | .poll a, .idle _ => some ((s.setPoller a none).goto t .idle)
  | .dropInner _, .idle _ => some (s.goto t .idle)
  | .dropGuard, .idle _ => some (s.goto t .dropSemaphore)
  | _, _ => some s

def inner (s : Counted ι) (t : ι) (act : WeightedSemaphore.Act ι) : Option (Counted ι) :=
  (s.sys.next act).bind fun sys => { s with sys }.resume t

def step (s : Counted ι) (t : ι) (spurious : Bool) : Option (Counted ι) :=
  match s.ops t with
  | .idle => none
  | .cloneSelf c amount => some (((s.incr.newGuard t amount).unborrow t c).goto t .idle)
  | .cloneArc a (some amount) => some (((s.incr.newGuard t amount).setPoller a none).goto t .idle)
  | .cloneArc a none => some (s.incr.goto t (.dropClone a))
  | .dropClone a => some ((s.decr.setPoller a none).goto t .idle)
  | .dropSemaphore => some (s.decr.goto t .idle)
  | _ => s.inner t (.step t spurious)

/-- A clone can be dropped or moved when nobody borrows it. -/
def takeClone (s : Counted ι) (c : ℕ) : Option (Counted ι) :=
  if c ∈ s.clones ∧ s.borrowers c = ∅ then some { s with clones := s.clones.erase c } else none

def onClone (s : Counted ι) (t : ι) (c : ℕ) (op : ArcOp) (call : Call) : Option (Counted ι) :=
  if s.ops t = .idle ∧ c ∈ s.clones then
    ((s.borrow t c).goto t op).inner t (.call t call)
  else none

def next (s : Counted ι) : Act ι → Option (Counted ι)
  | .clone c =>
    if c ∈ s.clones then
      some { s.incr with clones := insert s.nextClone s.clones, nextClone := s.nextClone + 1 }
    else none
  | .dropClone c => (s.takeClone c).map decr
  | .release t c amount => s.onClone t c (.borrow c) (.release amount)
  | .poison t c => s.onClone t c (.borrow c) .poison
  | .acquireArc c a amount =>
    if c ∈ s.clones then
      (s.sys.next (.acquire a amount)).map fun sys =>
        { s.incr with sys, futures := insert a s.futures, poller := update s.poller a none }
    else none
  | .tryAcquireArc t c amount => s.onClone t c (.tryAcquire c amount) (.tryAcquire amount)
  | .poll t a =>
    if s.ops t = .idle ∧ a ∈ s.futures ∧ s.poller a = none then
      ((s.setPoller a (some t)).goto t (.poll a)).inner t (.call t (.poll a))
    else none
  -- the fields are dropped in declaration order
  | .dropFuture t a =>
    if s.ops t = .idle ∧ a ∈ s.futures ∧ s.poller a = none then
      ({ s.decr with futures := s.futures.erase a }.goto t (.dropInner a)).inner t
        (.call t (.dropFuture a))
    else none
  | .newGuard t c amount => (s.takeClone c).map fun s => s.newGuard t amount
  | .split i permits =>
    s.guards[i]?.map fun guard =>
      match guard.split permits with
      | (guard, .ok new) => { s.incr with guards := new :: s.guards.set i guard }
      | (guard, .error _) => { s with guards := s.guards.set i guard }
  -- `forget` drops the reference of `other`
  | .extend i j =>
    match s.guards[i]?, s.guards[j]? with
    | some guard, some other =>
      if i = j then none
      else (guard.extend other).map fun guard =>
        { s.decr with guards := (s.guards.set i guard).eraseIdx j }
    | _, _ => none
  | .forget i => s.guards[i]?.map fun _ => { s.decr with guards := s.guards.eraseIdx i }
  | .dropGuard t i =>
    if s.ops t = .idle then
      s.guards[i]?.bind fun guard =>
        match guard.drop (s.sys.panicking t) with
        | none => some { s with guards := s.guards.eraseIdx i }
        | some d =>
          ({ s with guards := s.guards.eraseIdx i }.goto t .dropGuard).inner t (.call t d.call)
    else none
  | .setPanicking t panicking =>
    if s.ops t = .idle then
      (s.sys.next (.setPanicking t panicking)).map fun sys => { s with sys }
    else none
  | .step t spurious => s.step t spurious

end Counted

end WeightedSemaphore
