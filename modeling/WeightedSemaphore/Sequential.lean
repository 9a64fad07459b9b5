import WeightedSemaphore.SoloSteps

/-!
# Sequential calls refine the queue

As long as no two calls overlap, the operations that they perform, each followed by serving, lead
the abstract queue to what the semaphore holds after each call.
-/

namespace WeightedSemaphore

open Links

section

variable [Usize] {ι : Type} [DecidableEq ι] {s : Sys ι}

theorem Sys.Refines.init (initial : ℕ) :
    (Sys.init initial : Sys ι).Refines (Fifo.init maxAvailable initial) [] := by
  refine ⟨_, _, none, ⟨⟨.init initial, .init maxAvailable initial, ?_⟩, ?_, ?_, ?_, rfl⟩⟩
  · exact fun q hq => by cases hq
  · exact fun t _ => rfl
  · intro t x v hf
    cases hf
  · exact (Fifo.serve_empty rfl).symm

def SequentialRun (initial : ℕ) (s : Sys ι) (w : List Note) : Prop :=
  Runs.Steps (Runs.logged Sys.next Sys.note) (fun p act => p.1.Sequential act)
    (Sys.init initial, []) (s, w)

variable {initial : ℕ} {w : List Note}

theorem SequentialRun.refines (h : SequentialRun initial s w) :
    s.Refines ((Fifo.init maxAvailable initial).run maxAvailable (Note.ops w)) (Note.dones w) := by
  suffices ∀ p : Sys ι × List Note, Runs.Steps (Runs.logged Sys.next Sys.note)
      (fun p act => p.1.Sequential act) (Sys.init initial, []) p →
      p.1.Refines ((Fifo.init maxAvailable initial).run maxAvailable (Note.ops p.2))
        (Note.dones p.2) from this _ h
  intro p hp
  induction hp with
  | refl => exact .init initial
  | tail act _ hseq hn ih =>
    obtain ⟨a, A, who, hsolo⟩ := ih
    obtain ⟨hn, hw⟩ := Runs.logged_eq_some.mp hn
    have hstep := hsolo.advance hseq hn
    rw [hw]
    simp only [Sys.note, Option.toList_some, List.singleton_append, Note.ops_cons, Note.dones_cons]
    rw [Fifo.run, List.foldl_append]
    exact hstep

/-- What the queue `A`, which has finished `os`, says about a state between calls. -/
structure Sys.Matches (s : Sys ι) (A : Fifo ℕ) (os : List (ℕ × Bool)) : Prop where
  finished : os = A.finished
  queue : ∃ q, Path null s.mem.next s.sem.front q ∧ (∀ x, s.Waits x ↔ x ∈ q) ∧
    q.map (fun x => (s.ghost.uid x, s.mem.amount x)) = A.queue
  permits : s.tally = A.permits

/-- Whenever no call is in progress, the waiters finished so far, the waiters in the queue and the
permits are those of the abstract queue after the operations of the calls. -/
theorem sequential_refines (h : SequentialRun initial s w) (hq : s.Quiescent) :
    s.Matches ((Fifo.init maxAvailable initial).run maxAvailable (Note.ops w))
      (Note.dones w) := by
  obtain ⟨a, A, who, hsolo⟩ := h.refines
  rw [hsolo.eq_of_quiescent hq]
  have hr := hsolo.represents
  have ho := hr.sim.owner_of_quiescent hq
  have hrole (t : ι) : a.role t = .quiet := (hr.sim.view.role t).trans (Frame.role_idle (hq t))
  obtain ⟨hpath, hqueue⟩ := hr.linked hsolo.abstracts ho hrole
  constructor
  case finished => exact hsolo.finished.symm
  case queue => exact ⟨a.linked, hpath, hr.waits_iff ho hrole, hqueue.symm⟩
  case permits => exact (hr.tally hsolo.abstracts ho hrole).symm

end

attribute [local instance] usize64

/-- Of three waiters the first is granted and claimed, the second gives up, and the third is left in
the queue. -/
def mixedCallsSchedule : List (Act Bool) :=
  [.acquire (usize64.ptr 0) 2, .call false (.poll (usize64.ptr 0))] ++ Act.steps false 20 ++
    [.acquire (usize64.ptr 1) 4, .call true (.poll (usize64.ptr 1))] ++ Act.steps true 20 ++
    [.acquire (usize64.ptr 2) 3, .call true (.poll (usize64.ptr 2))] ++ Act.steps true 20 ++
    [.call false (.release 3)] ++ Act.steps false 16 ++
    [.call true (.poll (usize64.ptr 0))] ++ Act.steps true 2 ++
    [.call true (.dropFuture (usize64.ptr 1))] ++ Act.steps true 19

def mixedCalls : Sys Bool × List Note :=
  Runs.final (Runs.logged Sys.next Sys.note) mixedCallsSchedule (Sys.init 1, [])
    (by decide +kernel)

def sequential (p : Sys Bool × List Note) : Act Bool → Bool
  | .step _ _ => true
  | _ => (p.1.frames false).isIdle && (p.1.frames true).isIdle

theorem sequential_refines_mixed :
    mixedCalls.1.Matches
      ((Fifo.init maxAvailable 1).run maxAvailable
        [.enter 0 2, .enter 1 4, .enter 2 3, .release 3, .claim 0, .drop 1]) [(0, false)] := by
  have hrun : SequentialRun 1 mixedCalls.1 mixedCalls.2 := by
    have hexec : Runs.exec (Runs.logged Sys.next Sys.note) mixedCallsSchedule (Sys.init 1, []) =
        some mixedCalls := Runs.exec_final _
    have hsteps : Runs.Steps (Runs.logged Sys.next Sys.note) (fun p act => sequential p act = true)
        (Sys.init 1, []) mixedCalls := Runs.steps_of_admits hexec (by decide +kernel)
    refine hsteps.mono fun p act hact => ?_
    have hidle (h : (p.1.frames false).isIdle && (p.1.frames true).isIdle) : p.1.Quiescent := by
      intro t
      cases t <;> simp_all
    cases act with
    | step => trivial
    | _ => exact hidle hact
  have hq : mixedCalls.1.Quiescent := by
    intro t
    cases t <;> decide +kernel
  have hops : Note.ops mixedCalls.2 =
      [.enter 0 2, .enter 1 4, .enter 2 3, .release 3, .claim 0, .drop 1] := by decide +kernel
  have hdones : Note.dones mixedCalls.2 = [(0, false)] := by decide +kernel
  have hmatches := sequential_refines hrun hq
  rwa [hops, hdones] at hmatches

end WeightedSemaphore