import WeightedSemaphore.Lib.Links
import WeightedSemaphore.Machine
import WeightedSemaphore.ProtocolInvariant
import WeightedSemaphore.WakerSpec

/-!
# The simulation relation

`Sim s a` says that the transition system's state `s` represents the protocol's state `a`. It has
four parts: `View` reads the abstract waiters, roles and counts off the concrete ones, `Words`
relates the three atomics of the semaphore, `Pass` relates the owner's program counter and the
linked queue in memory, and `Local` collects what each thread knows about the future it borrows.
-/

namespace WeightedSemaphore

open Protocol (Life Acq Rel Phase Owner Role)
open Waker (Kind)
open AtomicWaker (PollPc FinishPc AcceptCancelPc)
open Links

def Waker.Kind.life : Kind → Life
  | pending => .queued
  | storing => .queued
  | finished p => .finished p
  | cancelling => .cancelling
  | cancelled => .cancelled

variable [Usize] {ι : Type}

namespace Cont

/-- The future that the caller of `release` borrows. -/
def uses : Cont → Option Ptr
  | caller => none
  | pollEnter a => some a
  | cancelling a => some a
  | gaveBack a => some a

/-- The waiter whose cancellation is waited for after the release. -/
def after : Cont → Option Ptr
  | cancelling a => some a
  | _ => none

end Cont

def ReleasePc.locks : ReleasePc ι → Bool
  | lockLoad => true
  | lock _ => true
  | _ => false

namespace Frame

def uses : Frame ι → Option Ptr
  | idle _ => none
  | panicked => none
  | tryAcquire _ _ => none
  | pollEnter a _ => some a
  | pollWaiting a _ _ => some a
  | release _ ret _ => ret.uses
  | dropFuture a _ => some a

def role : Frame ι → Role Ptr
  | release releasable ret pc =>
    if pc.locks then .releasing releasable.intoUsize ret.after else .owning ret.after
  | dropFuture a .loadCancel => .cancelling a
  | dropFuture a (.pushCancel _) => .cancelling a
  | dropFuture a (.waitCancel _) => .waiting a
  | _ => .quiet

theorem role_idle {f : Frame ι} (h : f.isIdle = true) : f.role = .quiet := by
  cases f with
  | idle ret => rfl
  | _ => simp [isIdle] at h

end Frame

def EnterPc.Sees (amount : ℕ) (current : AcquireState) (available : ℕ) (back : Ptr) : Prop :=
  current = .queued back ∧ available = 0 ∨
    back = null ∧ available < amount ∧
      ∃ q : Permits, current = .available q ∧ q.intoUsize = some available

def EnterPc.Ok (amount : ℕ) (k : Kind) : EnterPc → Prop
  | load => k = .pending
  | loop _ => k = .pending
  | poll current available back _ pc =>
    pc.Ok k ∧ (∀ p, k ≠ .finished p) ∧ Sees amount current available back
  | push current available back => k = .pending ∧ Sees amount current available back

section Mem

variable (mem : Waiters ι) (claimed : Ptr → Bool)

def Cont.Ok : Cont → Prop
  | caller => True
  | pollEnter a => mem.step a = .waiting ∧ claimed a = false ∧ (mem.waker a).kind.Rest
  | cancelling a =>
    mem.step a = .waiting ∧ ((mem.waker a).kind = .cancelling ∨ (mem.waker a).kind = .cancelled)
  | gaveBack a =>
    mem.step a = .waiting ∧ claimed a = true ∧ ∃ p, (mem.waker a).kind = .finished p

def DropPc.Ok (t : ι) (a : Ptr) : DropPc → Prop
  | startCancel pc => mem.step a = .waiting ∧ claimed a = false ∧ pc.Ok (mem.waker a) t
  | loadCancel => mem.step a = .waiting ∧ (mem.waker a).kind = .cancelling
  | pushCancel _ => mem.step a = .waiting ∧ (mem.waker a).kind = .cancelling
  | waitCancel _ =>
    mem.step a = .waiting ∧ ((mem.waker a).kind = .cancelling ∨ (mem.waker a).kind = .cancelled)
  | waker =>
    ((mem.waker a).kind.Rest ∨ (mem.waker a).kind = .cancelled) ∧
      (mem.step a = .waiting → claimed a = true ∨ (mem.waker a).kind = .cancelled ∨
        (mem.waker a).kind = .finished true)

def Frame.Ok (t : ι) : Frame ι → Prop
  | idle _ => True
  | panicked => False
  | tryAcquire _ _ => True
  | pollEnter a pc => mem.step a = .entering ∧ pc.Ok (mem.amount a) (mem.waker a).kind
  | pollWaiting a _ pc => mem.step a = .waiting ∧ claimed a = false ∧ pc.Ok (mem.waker a).kind
  | release _ ret _ => ret.Ok mem claimed
  | dropFuture a pc => pc.Ok mem claimed t a

structure Resting (a : Ptr) : Prop where
  rest : (mem.waker a).kind.Rest
  entering : mem.step a = .entering → (mem.waker a).kind = .pending
  waiting : mem.step a = .waiting → claimed a = false

end Mem

structure Local (s : Sys ι) : Prop where
  users : ∀ t a, (s.frames t).uses = some a ↔ s.user a = some t
  user_live : ∀ t a, s.user a = some t → a ∈ s.live
  ok : ∀ t, (s.frames t).Ok s.mem s.ghost.claimed t
  resting : ∀ a ∈ s.live, s.user a = none → Resting s.mem s.ghost.claimed a
  claimed : ∀ a ∈ s.live, s.ghost.claimed a = true → ∃ p, (s.mem.waker a).kind = .finished p
  next_null : ∀ a ∈ s.live, s.mem.step a = .entering → s.mem.next a = null
  ne_null : ∀ a ∈ s.live, a ≠ null
  thread : ∀ a ∈ s.live, (s.mem.waker a).kind = .cancelling →
    ∃ t, (s.mem.waker a).thread = some t ∧ s.user a = some t

/-- The life that the fields of a waiter stand for. -/
def Sys.lifeOf (s : Sys ι) (a : Ptr) : Life :=
  if a ∈ s.live then
    match s.mem.step a with
    | .entering => .entering
    | .waiting => if s.ghost.claimed a then .done else (s.mem.waker a).kind.life
    | .done => .done
  else .absent

structure View (s : Sys ι) (a : Protocol.State ι Ptr) : Prop where
  life : ∀ x, a.life x = s.lifeOf x
  role : ∀ t, a.role t = (s.frames t).role
  amount : a.amount = s.mem.amount
  live : a.live = s.live
  uid : a.uid = s.ghost.uid
  nextUid : a.nextUid = s.ghost.nextUid
  held : a.held = (s.guards.map SemaphoreGuard.amount).sum
  hist : a.hist = s.ghost.hist

/-- Pushed waiters are linked by `prev` only. -/
def AcquireState.Rep (next prev : Ptr → Ptr) : AcquireState → Acq Ptr → Prop
  | available q, acq => acq = .available q.intoUsize
  | queued back, acq =>
    ∃ pushed, acq = .queued pushed ∧ Path null prev back pushed ∧ ∀ x ∈ pushed, next x = null

@[simp] theorem AcquireState.rep_canon {next prev : Ptr → Ptr} {acq : Acq Ptr} (v : AcquireState) :
    (Packable.canon v).Rep next prev acq ↔ v.Rep next prev acq := by
  cases v with
  | available q =>
    change acq = .available q.canon.intoUsize ↔ _
    rw [Permits.intoUsize_canon]
    rfl
  | queued back => rfl

def ReleaseState.rel : ReleaseState → Rel
  | unlocked q => .unlocked q.intoUsize
  | locked => .locked
  | lockedDirty q => .lockedDirty q.intoUsize

@[simp] theorem ReleaseState.rel_canon (v : ReleaseState) : (Packable.canon v).rel = v.rel := by
  cases v with
  | unlocked q => exact congrArg Rel.unlocked q.intoUsize_canon
  | locked => rfl
  | lockedDirty q => exact congrArg Rel.lockedDirty q.intoUsize_canon

structure Words (sem : Semaphore) (mem : Waiters ι) (a : Protocol.State ι Ptr) : Prop where
  acq : sem.acquire.load.Rep mem.next mem.prev a.acq
  rel : a.rel = sem.release.load.rel
  cstack : Path null mem.nextCancel sem.nextCancel.load a.cstack

section Words

variable {sem : Semaphore} {mem : Waiters ι} {a : Protocol.State ι Ptr}

theorem Words.acq_pushed (h : Words sem mem a) {p : Ptr}
    (hload : sem.acquire.load = .queued p) : Path null mem.prev p a.pushed := by
  have hacq := h.acq
  rw [hload] at hacq
  obtain ⟨pushed, hpushed, hpath, -⟩ := hacq
  rwa [Protocol.State.pushed, hpushed]

theorem Words.acq_available (h : Words sem mem a) {p : Permits}
    (hload : sem.acquire.load = .available p) : a.acq = .available p.intoUsize := by
  have hacq := h.acq
  rwa [hload] at hacq

end Words

section Pass

variable (sem : Semaphore) (mem : Waiters ι)

def LinkedOk (linked : List Ptr) : Prop :=
  Queue null mem.next mem.prev sem.front sem.middle linked

/-- In the middle of adding next edges: `done` already has them, `rest` is still to come, and `old`
is the queue from before. -/
def WalkOk (back waiter : Ptr) (linked : List Ptr) : Prop :=
  ∃ old rest done, linked = old ++ (rest.reverse ++ waiter :: done) ∧
    Queue null mem.next mem.prev sem.front sem.middle old ∧
    waiter ≠ null ∧ Path null mem.prev (mem.prev waiter) rest ∧
    mem.next waiter = first done null ∧ Seg mem.next mem.prev waiter done null ∧
    back = last waiter done

/-- After a pop, `front` and the first node's `prev` still name the node that is gone. -/
def PoppedOk (pop : Pop) (linked : List Ptr) : Prop :=
  pop.next = first linked null ∧ Seg mem.next mem.prev pop.front linked null ∧
    sem.middle = last pop.front linked

def Pop.Ok (pop : Pop) (linked : List Ptr) (releasable : Tally) : Prop :=
  (∃ rest, linked = pop.front :: rest) ∧ pop.amount = mem.amount pop.front ∧
    pop.next = mem.next pop.front ∧ pop.releasable = releasable ∧
    ∀ n, releasable = some n → mem.amount pop.front ≤ n

def ReleasePc.Ok (life : Ptr → Life) (linked : List Ptr) (o : Owner ι Ptr) :
    ReleasePc ι → Prop
  | lockLoad => False
  | lock _ => False
  | swapCancel => o.phase = .swap ∧ LinkedOk sem mem linked
  | flipLoad nextCancel =>
    o.phase = .flip ∧ Path null mem.nextCancel nextCancel o.taken ∧ LinkedOk sem mem linked
  | flip nextCancel current =>
    (if current = .queued null ∧ sem.front ≠ null then o.phase = .cancel else o.phase = .flip) ∧
      Path null mem.nextCancel nextCancel o.taken ∧ LinkedOk sem mem linked
  | walk nextCancel back waiter =>
    o.phase = .cancel ∧ Path null mem.nextCancel nextCancel o.taken ∧
      WalkOk sem mem back waiter linked
  | cancel nextCancel =>
    o.phase = .cancel ∧ Path null mem.nextCancel nextCancel o.taken ∧ LinkedOk sem mem linked
  | accept _ nextCancel (.unpark _) =>
    o.phase = .cancel ∧ Path null mem.nextCancel nextCancel o.taken ∧ LinkedOk sem mem linked
  | accept waker nextCancel pc =>
    o.phase = .accept waker ∧ (pc = .load ∨ pc = .exchange .cancelling) ∧
      Path null mem.nextCancel nextCancel o.taken ∧ LinkedOk sem mem linked
  | tryPop => o.phase = .pop ∧ LinkedOk sem mem linked
  | finish pop pc =>
    o.phase = .pop ∧ LinkedOk sem mem linked ∧ pop.Ok mem linked o.releasable ∧ pc.Ok ∧
      (pc = .test .cancelling → life pop.front = .cancelling)
  | wake pop _ _ => o.phase = .pop ∧ PoppedOk sem mem pop linked
  | relink pop => o.phase = .pop ∧ PoppedOk sem mem pop linked
  | unlockLoad => o.phase = .unlock ∧ LinkedOk sem mem linked
  | unlock current =>
    o.phase = .unlock ∧ (∀ p, current ≠ .unlocked p) ∧ LinkedOk sem mem linked

def OwnerFrame (life : Ptr → Life) (linked : List Ptr) (o : Owner ι Ptr) (f : Frame ι) : Prop :=
  ∃ releasable ret pc, f = .release releasable ret pc ∧ o.releasable = releasable.intoUsize ∧
    pc.Ok sem mem life linked o

end Pass

structure Pass (s : Sys ι) (a : Protocol.State ι Ptr) : Prop where
  free : a.owner = none → LinkedOk s.sem s.mem a.linked
  owned : ∀ o, a.owner = some o →
    OwnerFrame s.sem s.mem a.life a.linked o (s.frames o.thread)

structure Sim (s : Sys ι) (a : Protocol.State ι Ptr) : Prop where
  view : View s a
  words : Words s.sem s.mem a
  pass : Pass s a
  loc : Local s

theorem Sim.init (initial : ℕ) :
    Sim (Sys.init initial : Sys ι) (Protocol.State.init maxAvailable initial) where
  view := by
    refine ⟨fun x => ?_, fun _ => rfl, rfl, rfl, rfl, rfl, rfl, rfl⟩
    simp [Sys.init, Sys.lifeOf, Protocol.State.init]
  words := by
    refine ⟨?_, ?_, ?_⟩
    · simp only [Sys.init, Semaphore.new, Atomic.load_new, AcquireState.rep_canon]
      rfl
    · simp only [Sys.init, Semaphore.new, Atomic.load_new, ReleaseState.rel_canon]
      rfl
    · simp only [Sys.init, Semaphore.new, Atomic.load_new]
      rfl
  pass := ⟨fun _ => ⟨rfl, rfl, trivial⟩, by simp [Protocol.State.init]⟩
  loc := by
    constructor <;> simp [Sys.init, Frame.uses, Frame.Ok]

end WeightedSemaphore
