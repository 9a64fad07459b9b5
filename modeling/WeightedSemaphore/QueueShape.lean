import WeightedSemaphore.Refinement

/-!
# The shape of the queue

Between the phases of the lock owner, and whenever the lock is free, the waiters form one queue: a
doubly linked part that starts at `front`, and behind it the stack of the waiters pushed since,
which starts at the acquire word and is linked by `prev`.
-/

namespace WeightedSemaphore

open Protocol (Inv Life Owner Acq)
open Links
open Waker (Kind)

section

variable [Usize] {ι : Type}

/-- Outside of the loop that adds next edges, and of the end of a pop. -/
def ReleasePc.Boundary : ReleasePc ι → Prop
  | walk _ _ _ => False
  | wake _ _ _ => False
  | relink _ => False
  | _ => True

/-- The rest of the cancel stack that the lock owner has swapped. -/
def ReleasePc.head : ReleasePc ι → Option Ptr
  | flipLoad nextCancel => some nextCancel
  | flip nextCancel _ => some nextCancel
  | walk nextCancel _ _ => some nextCancel
  | cancel nextCancel => some nextCancel
  | accept _ nextCancel _ => some nextCancel
  | _ => none

def ReleasePc.Cancels (head : Ptr) : ReleasePc ι → Prop
  | cancel nextCancel => nextCancel = head
  | accept _ nextCancel _ => nextCancel = head
  | _ => False

def Sys.Boundary (s : Sys ι) : Prop :=
  ∀ t r ret pc, s.frames t = .release r ret pc → pc.Boundary

def Sys.Waits (s : Sys ι) (x : Ptr) : Prop :=
  x ∈ s.live ∧ s.mem.step x = .waiting ∧
    ((s.mem.waker x).kind = .pending ∨ (s.mem.waker x).kind = .storing ∨
      (s.mem.waker x).kind = .cancelling)

/-- The queue is `linked ++ pushed.reverse`, oldest waiter first. -/
structure QueueShape (s : Sys ι) (linked pushed : List Ptr) : Prop where
  front : Path null s.mem.next s.sem.front linked
  back : ∀ p, s.sem.acquire.load = .queued p → Path null s.mem.prev p pushed
  nodup : (linked ++ pushed.reverse).Nodup
  adjacent : ∀ x ∈ linked, ∀ y ∈ linked, s.mem.next x = y ↔ s.mem.prev y = x
  front_prev : s.sem.front ≠ null → s.mem.prev s.sem.front = null
  middle_next : s.sem.middle ≠ null → s.mem.next s.sem.middle = null
  front_null : s.sem.front = null ↔ s.sem.middle = null
  middle_last : ∀ h : linked ≠ [], linked.getLast h = s.sem.middle
  oldest_prev : ∀ h : pushed ≠ [], s.mem.prev (pushed.getLast h) = null
  available : ∀ p, s.sem.acquire.load = .available p → linked = [] ∧ pushed = []
  unlocked : ∀ p q, s.sem.acquire.load = .available p → s.sem.release.load = .unlocked q →
    q = Permits.new 0
  stack : ∃ l, Path null s.mem.nextCancel s.sem.nextCancel.load l ∧
    ∀ x ∈ l, x ∈ linked ++ pushed.reverse ∧ (s.mem.waker x).kind = .cancelling
  taken : ∀ t r ret pc head, s.frames t = .release r ret pc → pc.head = some head →
    ∃ l, Path null s.mem.nextCancel head l ∧
      ∀ x ∈ l, x ∈ linked ++ pushed.reverse ∧ (s.mem.waker x).kind = .cancelling
  taken_linked : ∀ t r ret pc head l, s.frames t = .release r ret pc → pc.Cancels head →
    Path null s.mem.nextCancel head l → ∀ x ∈ l, x ∈ linked
  nodes : ∀ x, x ∈ linked ++ pushed.reverse → s.Waits x
  complete : ∀ x, s.Waits x → (s.mem.waker x).kind ≠ .cancelling → x ∈ linked ++ pushed.reverse

variable {sem : Semaphore} {mem : Waiters ι} {life : Ptr → Life} {linked : List Ptr}
  {o : Owner ι Ptr} {pc : ReleasePc ι}

theorem ReleasePc.Ok.linkedOk (h : pc.Ok sem mem life linked o) (hb : pc.Boundary) :
    LinkedOk sem mem linked := by
  cases pc with
  | lockLoad => exact h.elim
  | lock current => exact h.elim
  | swapCancel => exact h.2
  | flipLoad nextCancel => exact h.2.2
  | flip nextCancel current => exact h.2.2
  | walk nextCancel back waiter => exact hb.elim
  | cancel nextCancel => exact h.2.2
  | accept waker nextCancel pc => cases pc <;> first | exact h.2.2 | exact h.2.2.2
  | tryPop => exact h.2
  | finish pop pc => exact h.2.1
  | wake pop data vtable => exact hb.elim
  | relink pop => exact hb.elim
  | unlockLoad => exact h.2
  | unlock current => exact h.2.2

theorem ReleasePc.Ok.head {head : Ptr} (h : pc.Ok sem mem life linked o)
    (hh : pc.head = some head) : Path null mem.nextCancel head o.taken := by
  cases pc with
  | flipLoad nextCancel => cases hh; exact h.2.1
  | flip nextCancel current => cases hh; exact h.2.1
  | walk nextCancel back waiter => cases hh; exact h.2.1
  | cancel nextCancel => cases hh; exact h.2.1
  | accept waker nextCancel pc => cases hh; cases pc <;> first | exact h.2.1 | exact h.2.2.1
  | _ => cases hh

theorem ReleasePc.Ok.cancels {head : Ptr} (h : pc.Ok sem mem life linked o)
    (hc : pc.Cancels head) : o.phase.Flipped ∧ Path null mem.nextCancel head o.taken := by
  cases pc with
  | cancel nextCancel =>
    obtain rfl : nextCancel = head := hc
    obtain ⟨hp, hpath, -⟩ := h
    exact ⟨by simp [hp, Protocol.Phase.Flipped], hpath⟩
  | accept waker nextCancel pc =>
    obtain rfl : nextCancel = head := hc
    cases pc with
    | unpark thread =>
      obtain ⟨hp, hpath, -⟩ := h
      exact ⟨by simp [hp, Protocol.Phase.Flipped], hpath⟩
    | load =>
      obtain ⟨hp, -, hpath, -⟩ := h
      exact ⟨by simp [hp, Protocol.Phase.Flipped], hpath⟩
    | exchange current =>
      obtain ⟨hp, -, hpath, -⟩ := h
      exact ⟨by simp [hp, Protocol.Phase.Flipped], hpath⟩
  | _ => exact hc.elim

end

section

variable [Usize] {ι : Type} {s : Sys ι} {a : Protocol.State ι Ptr} {x : Ptr}

theorem View.waits_iff (h : View s a) (hl : Local s) :
    s.Waits x ↔ a.life x = .queued ∨ a.life x = .cancelling := by
  rw [h.life]
  constructor
  · rintro ⟨hlive, hstep, hk⟩
    have hclaim : s.ghost.claimed x = false := by
      by_contra hc
      obtain ⟨p, hp⟩ := hl.claimed x hlive (by simpa using hc)
      simp [hp] at hk
    rw [Sys.lifeOf_waiting hlive hstep hclaim]
    rcases hk with hk | hk | hk <;> simp [hk, Kind.life]
  · intro hlife
    obtain ⟨hlive, hstep, -, hk⟩ := Sys.lifeOf_reachable (s := s) (x := x) rfl (by tauto)
    refine ⟨hlive, hstep, ?_⟩
    rw [← hk] at hlife
    rcases hlife with hq | hc
    · rcases Kind.life_eq_queued hq with hk | hk <;> simp [hk]
    · simp [Kind.life_eq_cancelling hc]

theorem View.cancelling (h : View s a) (hl : a.life x = .cancelling) :
    (s.mem.waker x).kind = .cancelling := by
  rw [h.life] at hl
  obtain ⟨-, -, -, hk⟩ := Sys.lifeOf_reachable hl (by simp)
  exact Kind.life_eq_cancelling hk

end

section

variable [Usize] {ι : Type} [DecidableEq ι] {s : Sys ι} {initial : ℕ}

/-- At every boundary of every reachable state, the waiters form a well-shaped queue. -/
theorem queue_shape (h : Reachable initial s) (hb : s.Boundary) :
    ∃ linked pushed, QueueShape s linked pushed := by
  obtain ⟨a, hs, hi, -⟩ := h.represents
  have hlink : LinkedOk s.sem s.mem a.linked := by
    cases ho : a.owner with
    | none => exact hs.pass.free ho
    | some o =>
      obtain ⟨r, ret, pc, hf, -, hpc⟩ := hs.pass.owned o ho
      exact hpc.linkedOk (hb _ _ _ _ hf)
  have hne := hs.ne_null hi
  have hqueue : a.queue = a.linked ++ a.pushed.reverse := rfl
  refine ⟨a.linked, a.pushed, ?_⟩
  constructor
  case front =>
    rw [hlink.front_eq]
    exact hlink.seg.path_next hne
  case back => exact fun p hp => hs.words.acq_pushed hp
  case nodup => exact (List.nodup_append.mp hi.queue.nodup).1
  case adjacent => exact fun x hx y hy => hlink.next_eq_iff hne hx hy
  case front_prev =>
    intro hf
    obtain ⟨x, l, hl⟩ := List.exists_cons_of_ne_nil (mt (hlink.front_eq_null_iff hne).mpr hf)
    have hseg := hlink.seg
    rw [hlink.front_eq, hl]
    rw [hl] at hseg
    exact hseg.1
  case middle_next =>
    intro hm
    have hl := mt (hlink.back_eq_null_iff hne).mpr hm
    rw [← hlink.last_eq hl]
    exact Links.Path.last_eq_null (hlink.seg.path_next hne) hl
  case front_null => rw [hlink.front_eq_null_iff hne, hlink.back_eq_null_iff hne]
  case middle_last => exact hlink.last_eq
  case oldest_prev =>
    intro hl
    cases hload : s.sem.acquire.load with
    | queued p => exact (hs.words.acq_pushed hload).last_eq_null hl
    | available p =>
      exact absurd (by simp [Protocol.State.pushed, hs.words.acq_available hload]) hl
  case available =>
    intro p hp
    have hacq := hs.words.acq_available hp
    exact ⟨hi.available.linked_nil _ hacq, by simp [Protocol.State.pushed, hacq]⟩
  case unlocked =>
    intro p q hp hq
    have hrel := hs.words.rel
    rw [hq] at hrel
    exact (Permits.intoUsize_eq_some.mp
      (hi.available.unlocked _ _ (hs.words.acq_available hp) hrel)).1
  case stack =>
    refine ⟨a.cstack, hs.words.cstack, fun x hx => ⟨hi.cstack_queue hx, hs.view.cancelling ?_⟩⟩
    exact hi.marked.life_mem x (by simp [Protocol.State.marked, hx])
  case taken =>
    intro t r ret pc head hf hh
    have hlocks : pc.locks = false := by cases pc <;> first | rfl | cases hh
    obtain ⟨o, ho, -, -, -, hpc⟩ := hs.owner_of hi hf hlocks
    refine ⟨o.taken, hpc.head hh, fun x hx => ?_⟩
    rw [← Protocol.taken_of_owner ho] at hx
    exact ⟨hi.taken_queue hx, hs.view.cancelling (hi.taken_life hx)⟩
  case taken_linked =>
    intro t r ret pc head l hf hc hpath x hx
    have hlocks : pc.locks = false := by cases pc <;> first | rfl | exact hc.elim
    obtain ⟨o, ho, -, -, -, hpc⟩ := hs.owner_of hi hf hlocks
    obtain ⟨hflip, htaken⟩ := hpc.cancels hc
    rw [hpath.unique htaken] at hx
    exact hi.marked.taken_linked o ho hflip x hx
  case nodes => exact fun x hx => (hs.view.waits_iff hs.loc).mpr (hi.queue.life_mem x hx)
  case complete =>
    intro x hx hk
    rcases (hs.view.waits_iff hs.loc).mp hx with hl | hl
    · exact hi.queue.queued_mem x hl
    · exact absurd (hs.view.cancelling hl) hk

end

attribute [local instance] usize64

def threeWaiters : Sys Bool :=
  Runs.final Sys.next
    ([.acquire (usize64.ptr 0) 1, .call false (.poll (usize64.ptr 0))] ++ Act.steps false 20 ++
      [.acquire (usize64.ptr 1) 1, .call false (.poll (usize64.ptr 1))] ++ Act.steps false 20 ++
      [.acquire (usize64.ptr 2) 1, .call false (.poll (usize64.ptr 2))] ++ Act.steps false 10)
    (Sys.init 0) (by decide +kernel)

theorem queue_shape_threeWaiters :
    (∃ linked pushed, QueueShape threeWaiters linked pushed) ∧
      Path null threeWaiters.mem.next threeWaiters.sem.front [usize64.ptr 0, usize64.ptr 1] ∧
      threeWaiters.sem.acquire.load = .queued (usize64.ptr 2) := by
  have ht : threeWaiters.frames true = .idle .unit := rfl
  have hf : threeWaiters.frames false =
      .release (Permits.new 0) (.pollEnter (usize64.ptr 2)) .lockLoad := rfl
  refine ⟨queue_shape (Runs.reaches_final _) fun t r ret pc hpc => ?_, ?_, by decide +kernel⟩
  · cases t with
    | false => cases hf.symm.trans hpc; trivial
    | true => cases ht.symm.trans hpc
  · exact ⟨by decide +kernel, by decide +kernel, by decide +kernel, by decide +kernel,
      (by decide +kernel : threeWaiters.mem.next (usize64.ptr 1) = null)⟩

end WeightedSemaphore
