import WeightedSemaphore.History
import WeightedSemaphore.Lib.Runs
import WeightedSemaphore.State
import WeightedSemaphore.Waker
import Mathlib.Data.Finset.Basic

/-!
# The semaphore as a transition system

Any number of threads poll and drop acquire futures, release, poison, try to acquire and drop
guards. A thread's `Frame` is the method it is in, with the live locals, and `Sys.step` performs its
next access to shared memory. Every load, swap and compare-exchange of an atomic is a step of its
own, and a weak compare-exchange may fail spuriously. Plain memory that only the lock owner (or only
the thread that polls or drops a future) accesses is read and written together with the atomic
access before it, one loop iteration at a time.

`Ghost` is the part of the state that no step reads: identities of waiters, which outlive the reuse
of their addresses, and the history of the run.
-/

namespace WeightedSemaphore

variable [Usize] {ι : Type}

open AtomicWaker (PollPc PollResult FinishPc FinishResult StartCancelPc WakerResult WaitCancelPc
  AcceptCancelPc)

structure Semaphore where
  /-- The number of available permits or the back of the queue (without next edges). -/
  acquire : Atomic AcquireState
  /-- A number of releasable permits, and the state of the current release lock. -/
  release : Atomic ReleaseState
  /-- The front of the queue (with next edges). -/
  front : Ptr
  /-- The last node swapped from the acquire word (with next edges). -/
  middle : Ptr
  /-- A stack of nodes that are cancelling. -/
  nextCancel : Atomic Ptr

def Semaphore.new (initial : ℕ) : Semaphore where
  acquire := .new (.available (Permits.new initial))
  release := .new (.unlocked (Permits.new 0))
  front := null
  middle := null
  nextCancel := .new null

/-- The fields of `Waiter`, each as an array over the addresses of waiters. -/
structure Waiters (ι : Type) where
  amount : Ptr → ℕ
  step : Ptr → AcquireStep
  waker : Ptr → AtomicWaker ι
  /-- The later node in the acquire queue. -/
  next : Ptr → Ptr
  /-- The earlier node in the acquire queue. -/
  prev : Ptr → Ptr
  /-- The next node in the cancellation stack. -/
  nextCancel : Ptr → Ptr

structure SemaphoreGuard where
  amount : ℕ
  panicking : Bool
  deriving DecidableEq

inductive Ret
  | unit
  | pending
  | ready
  | readyErr
  | acquired
  | wouldBlock
  | poisoned
  | panicked
  deriving DecidableEq

/-- Where a call to `release` returns to: the user, the end of `poll_enter`, or one of the two calls
in the destructor of an acquire future. -/
inductive Cont
  | caller
  | pollEnter (a : Ptr)
  | cancelling (a : Ptr)
  | gaveBack (a : Ptr)
  deriving DecidableEq

inductive TryAcquirePc
  | load
  | loop (current : AcquireState)
  deriving DecidableEq

inductive EnterPc
  | load
  | loop (current : AcquireState)
  | poll (current : AcquireState) (available : ℕ) (back : Ptr) (tok : ℕ) (pc : PollPc)
  | push (current : AcquireState) (available : ℕ) (back : Ptr)
  deriving DecidableEq

structure Pop where
  front : Ptr
  amount : ℕ
  next : Ptr
  releasable : Option ℕ
  deriving DecidableEq

inductive ReleasePc (ι : Type)
  | lockLoad
  | lock (current : ReleaseState)
  | swapCancel
  | flipLoad (nextCancel : Ptr)
  | flip (nextCancel : Ptr) (current : AcquireState)
  | walk (nextCancel back waiter : Ptr)
  | cancel (nextCancel : Ptr)
  | accept (waker nextCancel : Ptr) (pc : AcceptCancelPc ι)
  | tryPop
  | finish (pop : Pop) (pc : FinishPc)
  /-- Inside the user's `wake`. -/
  | wake (pop : Pop) (data vtable : ℕ)
  | relink (pop : Pop)
  | unlockLoad
  | unlock (current : ReleaseState)

inductive DropPc
  | startCancel (pc : StartCancelPc)
  | loadCancel
  | pushCancel (current : Ptr)
  | waitCancel (pc : WaitCancelPc)
  /-- Dropping the fields of the waiter. -/
  | waker
  deriving DecidableEq

inductive Frame (ι : Type)
  | idle (ret : Ret)
  /-- An assertion of the implementation failed. -/
  | panicked
  | tryAcquire (amount : ℕ) (pc : TryAcquirePc)
  | pollEnter (a : Ptr) (pc : EnterPc)
  | pollWaiting (a : Ptr) (tok : ℕ) (pc : PollPc)
  | release (releasable : Permits) (ret : Cont) (pc : ReleasePc ι)
  | dropFuture (a : Ptr) (pc : DropPc)

def Frame.isIdle : Frame ι → Bool
  | .idle _ => true
  | _ => false

inductive TokenEvent
  /-- `finish` read the state of the waker of `uid`. -/
  | observed (uid : ℕ)
  /-- A poll of `uid` stored `tok` and is about to return `Pending`. -/
  | registered (uid tok : ℕ)
  | woken (data vtable : ℕ)
  | dropped (data vtable : ℕ)
  deriving DecidableEq

/-- Newest events first. -/
structure Ghost where
  uid : Ptr → ℕ
  nextUid : ℕ
  nextTok : ℕ
  /-- A finished waiter's permits were handed on, to a guard or back to the semaphore. -/
  claimed : Ptr → Bool
  hist : History
  tokens : List TokenEvent

structure Sys (ι : Type) where
  sem : Semaphore
  mem : Waiters ι
  frames : ι → Frame ι
  guards : List SemaphoreGuard
  /-- The addresses of the acquire futures that are not dropped yet. -/
  live : Finset Ptr
  /-- The thread that polls or drops the future, which borrows it exclusively. -/
  user : Ptr → Option ι
  parkToken : ι → Bool
  panicking : ι → Bool
  ghost : Ghost

namespace Sys

def init (initial : ℕ) : Sys ι where
  sem := .new initial
  mem := ⟨fun _ => 0, fun _ => .done, fun _ => .new, fun _ => null, fun _ => null, fun _ => null⟩
  frames := fun _ => .idle .unit
  guards := []
  live := ∅
  user := fun _ => none
  parkToken := fun _ => false
  panicking := fun _ => false
  ghost := ⟨fun _ => 0, 0, 1, fun _ => false, [], []⟩

variable [DecidableEq ι]

def goto (s : Sys ι) (t : ι) (f : Frame ι) : Sys ι :=
  { s with frames := Function.update s.frames t f }

def log (s : Sys ι) (e : Event) : Sys ι :=
  { s with ghost.hist := e :: s.ghost.hist }

def logToken (s : Sys ι) (e : TokenEvent) : Sys ι :=
  { s with ghost.tokens := e :: s.ghost.tokens }

def newGuard (s : Sys ι) (t : ι) (amount : ℕ) : Sys ι :=
  { s with guards := ⟨amount, s.panicking t⟩ :: s.guards }

def setStep (s : Sys ι) (a : Ptr) (step : AcquireStep) : Sys ι :=
  { s with mem.step := Function.update s.mem.step a step }

def setUser (s : Sys ι) (a : Ptr) (user : Option ι) : Sys ι :=
  { s with user := Function.update s.user a user }

def runWaker {π ρ : Type} (s : Sys ι) (a : Ptr) (r : AtomicWaker.Step ι π ρ) : Sys ι :=
  { s with
    mem.waker := Function.update s.mem.waker a r.waker
    ghost.tokens := match r.dropped with
      | none => s.ghost.tokens
      | some (data, vtable) => .dropped data vtable :: s.ghost.tokens }

def tryAcquire (s : Sys ι) (t : ι) (amount : ℕ) (spurious : Bool) : TryAcquirePc → Sys ι
  | .load => s.goto t (.tryAcquire amount (.loop s.sem.acquire.load))
  | .loop (.queued _) => s.goto t (.idle .wouldBlock)
  | .loop (.available available) =>
    match available.intoUsize with
    | none => s.goto t (.idle .poisoned)
    | some n =>
      if n < amount then s.goto t (.idle .wouldBlock)
      else
        match s.sem.acquire.cmpxchgWeak (.available available)
          (.available (Permits.new (n - amount))) spurious with
        | some acquire =>
          (({ s with sem.acquire := acquire }.log (.fastPath amount)).newGuard t amount).goto t
            (.idle .acquired)
        | none => s.goto t (.tryAcquire amount (.loop s.sem.acquire.load))

def enterWakerPoll (s : Sys ι) (t : ι) (a : Ptr) (current : AcquireState) (available : ℕ)
    (back : Ptr) : Sys ι :=
  { s with ghost.nextTok := s.ghost.nextTok + 1 }.goto t
    (.pollEnter a (.poll current available back s.ghost.nextTok .load))

def pollEnter (s : Sys ι) (t : ι) (a : Ptr) (spurious : Bool) : EnterPc → Sys ι
  | .load => s.goto t (.pollEnter a (.loop s.sem.acquire.load))
  | .loop (.queued back) => s.enterWakerPoll t a (.queued back) 0 back
  | .loop (.available available) =>
    match available.intoUsize with
    | none => ((s.setStep a .done).setUser a none).goto t (.idle .readyErr)
    | some n =>
      if s.mem.amount a ≤ n then
        match s.sem.acquire.cmpxchgWeak (.available available)
          (.available (Permits.new (n - s.mem.amount a))) spurious with
        | some acquire =>
          (((({ s with sem.acquire := acquire }.log (.fastPath (s.mem.amount a))).setStep a
            .done).newGuard t (s.mem.amount a)).setUser a none).goto t (.idle .ready)
        | none => s.goto t (.pollEnter a (.loop s.sem.acquire.load))
      else s.enterWakerPoll t a (.available available) n null
  | .poll current available back tok pc =>
    let r := (s.mem.waker a).poll tok spurious pc
    match r.flow with
    | .goto pc =>
      (s.runWaker a r).goto t (.pollEnter a (.poll current available back tok pc))
    | .ret .pending =>
      ((s.runWaker a r).logToken (.registered (s.ghost.uid a) tok)).goto t
        (.pollEnter a (.push current available back))
    -- `assert!(self.waiter().waker.poll(cx).is_pending())`
    | .ret (.ready _) => (s.runWaker a r).goto t .panicked
    | .panic => (s.runWaker a r).goto t .panicked
  | .push current available back =>
    let s := { s with mem.prev := Function.update s.mem.prev a back }
    match s.sem.acquire.cmpxchgWeak current (.queued a) spurious with
    | some acquire =>
      (({ s with sem.acquire := acquire }.log (.installed (s.ghost.uid a))).setStep a
        .waiting).goto t (.release (Permits.new available) (.pollEnter a) .lockLoad)
    | none => s.goto t (.pollEnter a (.loop s.sem.acquire.load))

def pollWaiting (s : Sys ι) (t : ι) (a : Ptr) (tok : ℕ) (spurious : Bool) (pc : PollPc) : Sys ι :=
  let r := (s.mem.waker a).poll tok spurious pc
  match r.flow with
  | .goto pc => (s.runWaker a r).goto t (.pollWaiting a tok pc)
  | .ret .pending =>
    (((s.runWaker a r).logToken (.registered (s.ghost.uid a) tok)).setUser a none).goto t
      (.idle .pending)
  | .ret (.ready true) =>
    (({ s.runWaker a r with ghost.claimed := Function.update s.ghost.claimed a true }.setStep a
      .done).setUser a none).goto t (.idle .readyErr)
  | .ret (.ready false) =>
    ((({ s.runWaker a r with ghost.claimed := Function.update s.ghost.claimed a true }.setStep a
      .done).newGuard t (s.mem.amount a)).setUser a none).goto t (.idle .ready)
  | .panic => (s.runWaker a r).goto t .panicked

/-- `ReleaseAction::lock_or_else_defer`, on deferral returning from `release`. -/
def afterRelease (s : Sys ι) (t : ι) : Cont → Sys ι
  | .caller => s.goto t (.idle .unit)
  | .pollEnter a => (s.setUser a none).goto t (.idle .pending)
  | .cancelling a => s.goto t (.dropFuture a (.waitCancel .load))
  | .gaveBack a => s.goto t (.dropFuture a .waker)

def lockOrElseDefer (s : Sys ι) (t : ι) (releasable : Permits) (ret : Cont) (spurious : Bool)
    (current : ReleaseState) : Sys ι :=
  match current with
  | .unlocked available =>
    match s.sem.release.cmpxchgWeak current .locked spurious with
    | some release =>
      { s with sem.release := release }.goto t (.release (releasable + available) ret .swapCancel)
    | none => s.goto t (.release releasable ret (.lock s.sem.release.load))
  | .locked =>
    match s.sem.release.cmpxchgWeak current (.lockedDirty releasable) spurious with
    | some release => { s with sem.release := release }.afterRelease t ret
    | none => s.goto t (.release releasable ret (.lock s.sem.release.load))
  | .lockedDirty available =>
    match s.sem.release.cmpxchgWeak current (.lockedDirty (available + releasable)) spurious with
    | some release => { s with sem.release := release }.afterRelease t ret
    | none => s.goto t (.release releasable ret (.lock s.sem.release.load))

/-- One iteration of the loop of `ReleaseAction::flip`. -/
def flip (s : Sys ι) (t : ι) (releasable : Permits) (ret : Cont) (spurious : Bool)
    (nextCancel : Ptr) (current : AcquireState) : Sys ι :=
  let retry := s.goto t (.release releasable ret (.flip nextCancel s.sem.acquire.load))
  match current with
  | .available available =>
    match s.sem.acquire.cmpxchgWeak current (.available (available + releasable)) spurious with
    | some acquire =>
      let s := { s with sem.acquire := acquire }
      if s.sem.front = null then
        s.goto t (.release (Permits.new 0) ret (.cancel nextCancel))
      else s.goto t .panicked
    | none => retry
  | .queued back =>
    if back = null ∧ s.sem.front = null then
      match s.sem.acquire.cmpxchgWeak current (.available releasable) spurious with
      | some acquire =>
        { s with sem.acquire := acquire }.goto t
          (.release (Permits.new 0) ret (.cancel nextCancel))
      | none => retry
    else if back = null then s.goto t (.release releasable ret (.cancel nextCancel))
    else
      match s.sem.acquire.cmpxchgWeak current (.queued null) spurious with
      | some acquire =>
        { s with sem.acquire := acquire }.goto t
          (.release releasable ret (.walk nextCancel back back))
      | none => retry

/-- One iteration of the inner loop of `ReleaseAction::flip`, which adds next edges. -/
def walk (s : Sys ι) (t : ι) (releasable : Permits) (ret : Cont) (nextCancel back waiter : Ptr) :
    Sys ι :=
  let leave (s : Sys ι) := { s with sem.middle := back }.goto t
    (.release releasable ret (.cancel nextCancel))
  if waiter = null then leave s
  else
    let prev := s.mem.prev waiter
    if prev = null then
      let middle := s.sem.middle
      if middle = null then leave { s with sem.front := waiter }
      else
        leave { s with
          mem.next := Function.update s.mem.next middle waiter
          mem.prev := Function.update s.mem.prev waiter middle }
    else
      { s with mem.next := Function.update s.mem.next prev waiter }.goto t
        (.release releasable ret (.walk nextCancel back prev))

/-- One iteration of `ReleaseAction::cancel`, up to the call of `accept_cancel`. -/
def cancel (s : Sys ι) (t : ι) (releasable : Permits) (ret : Cont) (nextCancel : Ptr) : Sys ι :=
  if nextCancel = null then s.goto t (.release releasable ret .tryPop)
  else
    let next := s.mem.next nextCancel
    let prev := s.mem.prev nextCancel
    ({ s with
      sem.front := if prev = null then next else s.sem.front
      mem.next := if prev = null then s.mem.next else Function.update s.mem.next prev next
      sem.middle := if next = null then prev else s.sem.middle
      mem.prev := if next = null then s.mem.prev else Function.update s.mem.prev next prev }.log
        (.unlinked (s.ghost.uid nextCancel))).goto t
      (.release releasable ret (.accept nextCancel (s.mem.nextCancel nextCancel) .load))

def accept (s : Sys ι) (t : ι) (releasable : Permits) (ret : Cont) (spurious : Bool)
    (waker nextCancel : Ptr) (pc : AcceptCancelPc ι) : Sys ι :=
  let r := (s.mem.waker waker).acceptCancel spurious pc
  match r.flow with
  | .goto (.unpark thread) =>
    ((s.runWaker waker r).log (.cancelled (s.ghost.uid waker))).goto t
      (.release releasable ret (.accept waker nextCancel (.unpark thread)))
  | .goto pc => (s.runWaker waker r).goto t (.release releasable ret (.accept waker nextCancel pc))
  | .ret thread =>
    { s with parkToken := Function.update s.parkToken thread true }.goto t
      (.release releasable ret (.cancel nextCancel))
  | .panic => (s.runWaker waker r).goto t .panicked

/-- The loop condition of `release` and `ReleaseAction::try_pop`, up to the call of `finish`. -/
def tryPop (s : Sys ι) (t : ι) (releasable : Permits) (ret : Cont) : Sys ι :=
  let front := s.sem.front
  if front = null then s.goto t (.release releasable ret .unlockLoad)
  else
    let pop : Pop := ⟨front, s.mem.amount front, s.mem.next front, releasable.intoUsize⟩
    match pop.releasable with
    | some n =>
      if n < s.mem.amount front then s.goto t (.release releasable ret .unlockLoad)
      else s.goto t (.release releasable ret (.finish pop .load))
    | none => s.goto t (.release releasable ret (.finish pop .load))

/-- `AtomicWaker::finish` on the front node. The local `releasable` is brought up to date with the
exchange that finishes the waiter; the source does so after `wake`, which cannot see it. -/
def finish (s : Sys ι) (t : ι) (releasable : Permits) (ret : Cont) (spurious : Bool) (pop : Pop)
    (pc : FinishPc) : Sys ι :=
  let poisoned := pop.releasable.isNone
  let r := (s.mem.waker pop.front).finish poisoned spurious pc
  let left : Permits := match pop.releasable with
    | some n => Permits.new (n - pop.amount)
    | none => releasable
  let finished := (s.runWaker pop.front r).log (.finished (s.ghost.uid pop.front) poisoned)
  match r.flow with
  | .goto (.test state) =>
    ((s.runWaker pop.front r).logToken (.observed (s.ghost.uid pop.front))).goto t
      (.release releasable ret (.finish pop (.test state)))
  | .goto pc => (s.runWaker pop.front r).goto t (.release releasable ret (.finish pop pc))
  | .ret .cancelling => (s.runWaker pop.front r).goto t (.release releasable ret .unlockLoad)
  | .ret (.finished (some (data, vtable))) =>
    finished.goto t (.release left ret (.wake pop data vtable))
  | .ret (.finished none) => finished.goto t (.release left ret (.relink pop))
  | .panic => (s.runWaker pop.front r).goto t .panicked

def relink (s : Sys ι) (t : ι) (releasable : Permits) (ret : Cont) (pop : Pop) : Sys ι :=
  { s with
    sem.front := pop.next
    sem.middle := if pop.next = null then null else s.sem.middle
    mem.prev :=
      if pop.next = null then s.mem.prev else Function.update s.mem.prev pop.next null }.goto t
    (.release releasable ret .tryPop)

def tryUnlock (s : Sys ι) (t : ι) (releasable : Permits) (ret : Cont) (spurious : Bool)
    (current : ReleaseState) : Sys ι :=
  match current with
  | .lockedDirty available =>
    match s.sem.release.cmpxchgWeak current .locked spurious with
    | some release =>
      { s with sem.release := release }.goto t (.release (releasable + available) ret .swapCancel)
    | none => s.goto t (.release releasable ret (.unlock s.sem.release.load))
  | .unlocked _ => s.goto t .panicked
  | .locked =>
    match s.sem.release.cmpxchgWeak current (.unlocked releasable) spurious with
    | some release => { s with sem.release := release }.afterRelease t ret
    | none => s.goto t (.release releasable ret (.unlock s.sem.release.load))

def release (s : Sys ι) (t : ι) (releasable : Permits) (ret : Cont) (spurious : Bool) :
    ReleasePc ι → Sys ι
  | .lockLoad => s.goto t (.release releasable ret (.lock s.sem.release.load))
  | .lock current => s.lockOrElseDefer t releasable ret spurious current
  | .swapCancel =>
    { s with sem.nextCancel := .new null }.goto t
      (.release releasable ret (.flipLoad s.sem.nextCancel.load))
  | .flipLoad nextCancel =>
    s.goto t (.release releasable ret (.flip nextCancel s.sem.acquire.load))
  | .flip nextCancel current => s.flip t releasable ret spurious nextCancel current
  | .walk nextCancel back waiter => s.walk t releasable ret nextCancel back waiter
  | .cancel nextCancel => s.cancel t releasable ret nextCancel
  | .accept waker nextCancel pc => s.accept t releasable ret spurious waker nextCancel pc
  | .tryPop => s.tryPop t releasable ret
  | .finish pop pc => s.finish t releasable ret spurious pop pc
  | .wake pop data vtable =>
    (s.logToken (.woken data vtable)).goto t (.release releasable ret (.relink pop))
  | .relink pop => s.relink t releasable ret pop
  | .unlockLoad => s.goto t (.release releasable ret (.unlock s.sem.release.load))
  | .unlock current => s.tryUnlock t releasable ret spurious current

/-- `Drop for AcquireFuture`, then the destructor of the waiter's waker. -/
def dropFuture (s : Sys ι) (t : ι) (a : Ptr) (spurious : Bool) : DropPc → Option (Sys ι)
  | .startCancel pc =>
    let r := (s.mem.waker a).startCancel t spurious pc
    match r.flow with
    | .goto pc => some ((s.runWaker a r).goto t (.dropFuture a (.startCancel pc)))
    | .ret .cancelling =>
      some (((s.runWaker a r).log (.cancelling (s.ghost.uid a))).goto t
        (.dropFuture a .loadCancel))
    | .ret (.finished true) => some ((s.runWaker a r).goto t (.dropFuture a .waker))
    | .ret (.finished false) =>
      some ({ s.runWaker a r with ghost.claimed := Function.update s.ghost.claimed a true }.goto t
        (.release (Permits.new (s.mem.amount a)) (.gaveBack a) .lockLoad))
    | .panic => some ((s.runWaker a r).goto t .panicked)
  | .loadCancel => some (s.goto t (.dropFuture a (.pushCancel s.sem.nextCancel.load)))
  | .pushCancel current =>
    let s := { s with mem.nextCancel := Function.update s.mem.nextCancel a current }
    match s.sem.nextCancel.cmpxchgWeak current a spurious with
    | some nextCancel =>
      some ({ s with sem.nextCancel := nextCancel }.goto t
        (.release (Permits.new 0) (.cancelling a) .lockLoad))
    | none => some (s.goto t (.dropFuture a (.pushCancel s.sem.nextCancel.load)))
  | .waitCancel .load =>
    let r := (s.mem.waker a).waitCancel .load
    match r.flow with
    | .goto pc => some ((s.runWaker a r).goto t (.dropFuture a (.waitCancel pc)))
    | .ret () => some ((s.runWaker a r).goto t (.dropFuture a .waker))
    | .panic => some ((s.runWaker a r).goto t .panicked)
  -- `thread::park()` returns when the thread's token is available, which it consumes, or spuriously
  | .waitCancel .park =>
    if s.parkToken t || spurious then
      some ({ s with parkToken := Function.update s.parkToken t false }.goto t
        (.dropFuture a (.waitCancel .load)))
    else none
  | .waker =>
    let r := (s.mem.waker a).drop (s.panicking t)
    match r.flow with
    | .panic => some ((s.runWaker a r).goto t .panicked)
    | _ =>
      some (({ s.runWaker a r with live := s.live.erase a }.setUser a none).goto t (.idle .unit))

/-- The next step of thread `t`; `none` when it is in no call, has panicked or is parked. -/
def step (s : Sys ι) (t : ι) (spurious : Bool) : Option (Sys ι) :=
  match s.frames t with
  | .idle _ => none
  | .panicked => none
  | .tryAcquire amount pc => some (s.tryAcquire t amount spurious pc)
  | .pollEnter a pc => some (s.pollEnter t a spurious pc)
  | .pollWaiting a tok pc => some (s.pollWaiting t a tok spurious pc)
  | .release releasable ret pc => some (s.release t releasable ret spurious pc)
  | .dropFuture a pc => s.dropFuture t a spurious pc

end Sys

inductive Call
  | poll (a : Ptr)
  | dropFuture (a : Ptr)
  | tryAcquire (amount : ℕ)
  | release (amount : ℕ)
  | poison
  | dropGuard (i : ℕ)
  deriving DecidableEq

namespace Sys

variable [DecidableEq ι]

def startRelease (s : Sys ι) (t : ι) (releasable : Permits) : Sys ι :=
  s.goto t (.release releasable .caller .lockLoad)

/-- A thread without a call begins one. Polling and dropping a future need exclusive access. -/
def call (s : Sys ι) (t : ι) : Call → Option (Sys ι)
  | .poll a =>
    if a ∈ s.live ∧ s.user a = none then
      match s.mem.step a with
      | .entering => some ((s.setUser a (some t)).goto t (.pollEnter a .load))
      | .waiting =>
        some ({ s.setUser a (some t) with ghost.nextTok := s.ghost.nextTok + 1 }.goto t
          (.pollWaiting a s.ghost.nextTok .load))
      -- "Polling completed future."
      | .done => some (s.goto t (.idle .panicked))
    else none
  | .dropFuture a =>
    if a ∈ s.live ∧ s.user a = none then
      match s.mem.step a with
      | .waiting => some ((s.setUser a (some t)).goto t (.dropFuture a (.startCancel .load)))
      | .entering => some ((s.setUser a (some t)).goto t (.dropFuture a .waker))
      | .done => some ((s.setUser a (some t)).goto t (.dropFuture a .waker))
    else none
  | .tryAcquire amount => some (s.goto t (.tryAcquire amount .load))
  | .release amount => some ((s.log (.released amount)).startRelease t (Permits.new amount))
  | .poison => some ((s.log .poison).startRelease t Permits.poison)
  -- `Drop for SemaphoreGuard`
  | .dropGuard i =>
    match s.guards[i]? with
    | none => none
    | some guard =>
      let s := { s with guards := s.guards.eraseIdx i }
      if !guard.panicking && s.panicking t then
        some ((s.log .poison).startRelease t Permits.poison)
      else some (s.startRelease t (Permits.new guard.amount))

/-- `Semaphore::acquire`: a future placed at the unused address `a`. -/
def acquire (s : Sys ι) (a : Ptr) (amount : ℕ) : Option (Sys ι) :=
  if a ∉ s.live ∧ a ≠ null then
    some { s with
      mem.amount := Function.update s.mem.amount a amount
      mem.step := Function.update s.mem.step a .entering
      mem.waker := Function.update s.mem.waker a .new
      mem.next := Function.update s.mem.next a null
      mem.prev := Function.update s.mem.prev a null
      mem.nextCancel := Function.update s.mem.nextCancel a null
      live := insert a s.live
      user := Function.update s.user a none
      ghost.uid := Function.update s.ghost.uid a s.ghost.nextUid
      ghost.nextUid := s.ghost.nextUid + 1
      ghost.claimed := Function.update s.ghost.claimed a false }
  else none

def forget (s : Sys ι) (i : ℕ) : Option (Sys ι) :=
  match s.guards[i]? with
  | none => none
  | some guard => some ({ s with guards := s.guards.eraseIdx i }.log (.forgot guard.amount))

end Sys

inductive Act (ι : Type)
  | call (t : ι) (c : Call)
  | step (t : ι) (spurious : Bool)
  | acquire (a : Ptr) (amount : ℕ)
  | forget (i : ℕ)
  /-- A thread outside of any call begins or ends unwinding. -/
  | setPanicking (t : ι) (panicking : Bool)
  deriving DecidableEq

variable [DecidableEq ι]

def Sys.next (s : Sys ι) : Act ι → Option (Sys ι)
  | .call t c => if (s.frames t).isIdle then s.call t c else none
  | .step t spurious => s.step t spurious
  | .acquire a amount => s.acquire a amount
  | .forget i => s.forget i
  | .setPanicking t panicking =>
    if (s.frames t).isIdle then
      some { s with panicking := Function.update s.panicking t panicking }
    else none

abbrev Reachable (initial : ℕ) (s : Sys ι) : Prop := Runs.Reaches Sys.next (Sys.init initial) s

/-- `n` steps of one thread, none of which fails spuriously. -/
def Act.steps (t : ι) (n : ℕ) : List (Act ι) := List.replicate n (.step t false)

/-- No call is in progress. -/
def Sys.Quiescent (s : Sys ι) : Prop := ∀ t, (s.frames t).isIdle = true

end WeightedSemaphore
