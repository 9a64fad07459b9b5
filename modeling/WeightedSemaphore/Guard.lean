import WeightedSemaphore.Conservation

/-!
# Guards

`SemaphoreGuard` and `SemaphoreGuardArc`: splitting, merging, forgetting and dropping. The second
kind shares ownership of the semaphore it belongs to, an allocation of type `α`. `Shared` is a
semaphore with all guards of both kinds, and with counts of what happened to the permits they stand
for.
-/

namespace WeightedSemaphore

variable [Usize] {ι α : Type}

def saturatingAdd (a b : ℕ) : ℕ := min (a + b) usizeMax

inductive SemaphoreGuardSplitErr
  | underflow
  deriving DecidableEq

inductive GuardDrop
  | poison
  | release (amount : ℕ)
  deriving DecidableEq

namespace SemaphoreGuard

def forget (self : SemaphoreGuard) : ℕ := self.amount

/-- Combine two guards into one, with the sum of the originals' permits. Both belong to the one
semaphore that is modelled, which the source asserts. -/
def extend (self other : SemaphoreGuard) : SemaphoreGuard :=
  { self with amount := saturatingAdd self.amount other.forget }

def split (self : SemaphoreGuard) (permits : ℕ) :
    SemaphoreGuard × Except SemaphoreGuardSplitErr SemaphoreGuard :=
  if self.amount ≥ permits then
    ({ self with amount := self.amount - permits }, .ok ⟨permits, self.panicking⟩)
  else (self, .error .underflow)

/-- `Drop for SemaphoreGuard`, by a thread that is unwinding or not. -/
def drop (self : SemaphoreGuard) (panicking : Bool) : GuardDrop :=
  if !self.panicking && panicking then .poison else .release self.amount

end SemaphoreGuard

structure SemaphoreGuardArc (α : Type) where
  semaphore : Option α
  amount : ℕ
  panicking : Bool
  deriving DecidableEq

namespace SemaphoreGuardArc

def new (semaphore : α) (amount : ℕ) (panicking : Bool) : SemaphoreGuardArc α :=
  ⟨some semaphore, amount, panicking⟩

def forget (self : SemaphoreGuardArc α) : ℕ := self.amount

/-- `none` when an `unwrap` or the assertion fails. -/
def extend [DecidableEq α] (self other : SemaphoreGuardArc α) : Option (SemaphoreGuardArc α) :=
  match self.semaphore, other.semaphore with
  | some sem1, some sem2 =>
    if sem1 = sem2 then some { self with amount := saturatingAdd self.amount other.forget }
    else none
  | _, _ => none

def split (self : SemaphoreGuardArc α) (permits : ℕ) :
    SemaphoreGuardArc α × Except SemaphoreGuardSplitErr (SemaphoreGuardArc α) :=
  if self.amount ≥ permits then
    ({ self with amount := self.amount - permits },
      .ok ⟨self.semaphore, permits, self.panicking⟩)
  else (self, .error .underflow)

/-- `Drop for SemaphoreGuardArc`; `none` when `forget` has taken the reference away. -/
def drop (self : SemaphoreGuardArc α) (panicking : Bool) : Option GuardDrop :=
  match self.semaphore with
  | none => none
  | some _ => some (if !self.panicking && panicking then .poison else .release self.amount)

end SemaphoreGuardArc

variable [DecidableEq ι]

/-- The call of a destructor. Permits of a guard are not new, so that `release` is not logged. -/
def Sys.startDrop (s : Sys ι) (t : ι) : GuardDrop → Sys ι
  | .poison => (s.log .poison).startRelease t Permits.poison
  | .release amount => s.startRelease t (Permits.new amount)

structure Shared (ι α : Type) where
  /-- The allocation that holds the semaphore. -/
  arc : α
  /-- The semaphore, with its guards of the first kind. -/
  sys : Sys ι
  arcs : List (SemaphoreGuardArc α)
  /-- An assertion or an `unwrap` of `extend` failed. -/
  panicked : Bool
  /-- The amounts of the guards that acquisitions returned. -/
  acquired : ℕ
  /-- The amounts that destructors passed to `release`. -/
  released : ℕ
  /-- The amounts that `forget` returned. -/
  forgotten : ℕ

namespace Shared

inductive Act (ι : Type)
  /-- Anything but splitting and merging guards, and guards of the second kind. -/
  | sys (act : WeightedSemaphore.Act ι)
  | split (i permits : ℕ)
  | extend (i j : ℕ)
  /-- The end of `try_acquire_arc`, and of a successful poll of an `AcquireFutureArc`. -/
  | intoArc (t : ι) (i : ℕ)
  | splitArc (i permits : ℕ)
  | extendArc (i j : ℕ)
  | forgetArc (i : ℕ)
  | dropArc (t : ι) (i : ℕ)

def init (arc : α) (initial : ℕ) : Shared ι α := ⟨arc, .init initial, [], false, 0, 0, 0⟩

def releasedBy (d : GuardDrop) : ℕ :=
  match d with
  | .poison => 0
  | .release amount => amount

def dropped (s : Sys ι) : WeightedSemaphore.Act ι → ℕ
  | .call t (.dropGuard i) =>
    (s.guards[i]?.map fun guard => releasedBy (guard.drop (s.panicking t))).getD 0
  | _ => 0

def forgot (s : Sys ι) : WeightedSemaphore.Act ι → ℕ
  | .forget i => (s.guards[i]?.map SemaphoreGuard.forget).getD 0
  | _ => 0

def next [DecidableEq α] (s : Shared ι α) : Act ι → Option (Shared ι α)
  | .sys act =>
    (s.sys.next act).map fun sys =>
      { s with
        sys
        -- an acquisition is what makes a new guard
        acquired := s.acquired + (sys.guarded - s.sys.guarded)
        released := s.released + dropped s.sys act
        forgotten := s.forgotten + forgot s.sys act }
  | .split i permits =>
    s.sys.guards[i]?.map fun guard =>
      match guard.split permits with
      | (guard, .ok new) => { s with sys.guards := new :: s.sys.guards.set i guard }
      | (guard, .error _) => { s with sys.guards := s.sys.guards.set i guard }
  | .extend i j =>
    match s.sys.guards[i]?, s.sys.guards[j]? with
    | some guard, some other =>
      if i = j then none
      else some { s with sys.guards := (s.sys.guards.set i (guard.extend other)).eraseIdx j }
    | _, _ => none
  | .intoArc t i =>
    s.sys.guards[i]?.map fun guard =>
      { s with
        sys.guards := s.sys.guards.eraseIdx i
        arcs := .new s.arc guard.forget (s.sys.panicking t) :: s.arcs }
  | .splitArc i permits =>
    s.arcs[i]?.map fun guard =>
      match guard.split permits with
      | (guard, .ok new) => { s with arcs := new :: s.arcs.set i guard }
      | (guard, .error _) => { s with arcs := s.arcs.set i guard }
  | .extendArc i j =>
    match s.arcs[i]?, s.arcs[j]? with
    | some guard, some other =>
      if i = j then none
      else
        match guard.extend other with
        | some guard => some { s with arcs := (s.arcs.set i guard).eraseIdx j }
        | none => some { s with panicked := true }
    | _, _ => none
  | .forgetArc i =>
    s.arcs[i]?.map fun guard =>
      { s with
        sys := s.sys.log (.forgot guard.forget)
        arcs := s.arcs.eraseIdx i
        forgotten := s.forgotten + guard.forget }
  | .dropArc t i =>
    if (s.sys.frames t).isIdle then
      s.arcs[i]?.map fun guard =>
        match guard.drop (s.sys.panicking t) with
        | none => { s with arcs := s.arcs.eraseIdx i }
        | some d =>
          { s with
            sys := s.sys.startDrop t d
            arcs := s.arcs.eraseIdx i
            released := s.released + releasedBy d }
    else none

end Shared

end WeightedSemaphore
