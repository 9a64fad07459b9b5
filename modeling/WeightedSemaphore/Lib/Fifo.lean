import WeightedSemaphore.Lib.Tally
import Mathlib.Algebra.Ring.Nat
import Mathlib.Data.List.Basic
import Mathlib.Logic.Function.Basic

/-!
# A queue served first in, first out from a capped counter

Requests for a number of permits wait in a queue. Serving pops the oldest request as long as the
permits suffice for it, or for as long as the counter has overflowed, which fails every request.
`prefixLength` counts the requests that are granted, and `serve_release` says that serving in
between makes no difference to what later permits do.
-/

/-- A counter, the requests that wait for it, oldest first, the granted amounts that are not claimed
yet, and the requests that were served, oldest first, with whether they failed. -/
structure Fifo (ω : Type*) where
  permits : Tally
  queue : List (ω × ℕ)
  granted : ω → Option ℕ
  finished : List (ω × Bool)

namespace Fifo

variable {ω : Type*}

def init (cap initial : ℕ) : Fifo ω where
  permits := Tally.ofNat cap initial
  queue := []
  granted := fun _ => none
  finished := []

def prefixLength (p : ℕ) : List ℕ → ℕ
  | [] => 0
  | n :: l => if n ≤ p then prefixLength (p - n) l + 1 else 0

theorem prefixLength_le (p : ℕ) (l : List ℕ) : prefixLength p l ≤ l.length := by
  induction l generalizing p with
  | nil => simp [prefixLength]
  | cons n l ih =>
    unfold prefixLength
    split_ifs with h
    · simpa using ih (p - n)
    · exact Nat.zero_le _

theorem sum_prefixLength_le (p : ℕ) (l : List ℕ) : (l.take (prefixLength p l)).sum ≤ p := by
  induction l generalizing p with
  | nil => simp
  | cons n l ih =>
    unfold prefixLength
    split_ifs with h
    · have := ih (p - n)
      simp only [List.take_succ_cons, List.sum_cons]
      omega
    · simp

/-- No longer prefix fits. -/
theorem le_prefixLength {p k : ℕ} {l : List ℕ} (hk : k ≤ l.length) (hsum : (l.take k).sum ≤ p) :
    k ≤ prefixLength p l := by
  induction l generalizing p k with
  | nil => simpa [prefixLength] using hk
  | cons n l ih =>
    cases k with
    | zero => exact Nat.zero_le _
    | succ k =>
      simp only [List.take_succ_cons, List.sum_cons] at hsum
      have hn : n ≤ p := by omega
      have hle := ih (p := p - n) (k := k) (by simpa using hk) (by omega)
      unfold prefixLength
      rw [if_pos hn]
      omega

variable [DecidableEq ω]

def grant (A : Fifo ω) (w : ω) (n m : ℕ) : Fifo ω :=
  { A with
    permits := some (m - n)
    granted := Function.update A.granted w (some n)
    finished := A.finished ++ [(w, false)] }

def fail (A : Fifo ω) (w : ω) : Fifo ω := { A with finished := A.finished ++ [(w, true)] }

def serveFrom (A : Fifo ω) : List (ω × ℕ) → Fifo ω
  | [] => { A with queue := [] }
  | (w, n) :: q =>
    match A.permits with
    | none => (A.fail w).serveFrom q
    | some m => if n ≤ m then (A.grant w n m).serveFrom q else { A with queue := (w, n) :: q }

def serve (A : Fifo ω) : Fifo ω := A.serveFrom A.queue

def Settled (A : Fifo ω) : Prop :=
  ∀ w n q, A.queue = (w, n) :: q → ∃ m, A.permits = some m ∧ m < n

inductive Op (ω : Type*)
  | enter (w : ω) (n : ℕ)
  | release (n : ℕ)
  | poison
  /-- The request is withdrawn, or what it was granted is given back. -/
  | drop (w : ω)
  /-- Permits are taken past the queue. -/
  | take (n : ℕ)
  /-- The request takes over what it was granted. -/
  | claim (w : ω)
  deriving DecidableEq

def apply (cap : ℕ) (A : Fifo ω) : Op ω → Fifo ω
  | .enter w n => { A with queue := A.queue ++ [(w, n)] }
  | .release n => { A with permits := Tally.add cap A.permits (Tally.ofNat cap n) }
  | .poison => { A with permits := none }
  | .drop w =>
    match A.granted w with
    | some n =>
      { A with
        permits := Tally.add cap A.permits (Tally.ofNat cap n)
        granted := Function.update A.granted w none }
    | none => { A with queue := A.queue.filter fun e => e.1 ≠ w }
  | .take n => { A with permits := A.permits.map (· - n) }
  | .claim w => { A with granted := Function.update A.granted w none }

def step (cap : ℕ) (A : Fifo ω) (op : Op ω) : Fifo ω := (A.apply cap op).serve

def run (cap : ℕ) (A : Fifo ω) (ops : List (Op ω)) : Fifo ω := ops.foldl (step cap) A

variable {A : Fifo ω} {cap m n : ℕ} {w : ω} {q l : List (ω × ℕ)}

theorem serveFrom_set_queue (A : Fifo ω) (l q : List (ω × ℕ)) :
    ({ A with queue := l } : Fifo ω).serveFrom q = A.serveFrom q := by
  induction q generalizing A with
  | nil => rfl
  | cons e q ih =>
    obtain ⟨w, n⟩ := e
    obtain ⟨p, r, g, f⟩ := A
    cases p with
    | none => exact ih (fail ⟨none, r, g, f⟩ w)
    | some m =>
      simp only [serveFrom]
      split_ifs
      · exact ih (grant ⟨some m, r, g, f⟩ w n m)
      · rfl

theorem serve_set_queue (A : Fifo ω) (q : List (ω × ℕ)) :
    ({ A with queue := q } : Fifo ω).serve = A.serveFrom q :=
  serveFrom_set_queue A q q

theorem serve_of_settled (h : A.Settled) : A.serve = A := by
  obtain ⟨p, q, g, f⟩ := A
  cases q with
  | nil => rfl
  | cons e q =>
    obtain ⟨w, n⟩ := e
    obtain ⟨m, hm, hlt⟩ := h w n q rfl
    obtain rfl : p = some m := hm
    simp only [serve, serveFrom]
    rw [if_neg (by omega)]

/-- Serving pops the oldest request first. -/
theorem serve_grant (hq : A.queue = (w, n) :: q) (hm : A.permits = some m) (hle : n ≤ m) :
    A.serve = ({ A.grant w n m with queue := q } : Fifo ω).serve := by
  rw [serve_set_queue (A.grant w n m) q]
  unfold serve
  rw [hq]
  simp only [serveFrom, hm]
  rw [if_pos hle]

theorem serve_fail (hq : A.queue = (w, n) :: q) (hm : A.permits = none) :
    A.serve = ({ A.fail w with queue := q } : Fifo ω).serve := by
  rw [serve_set_queue (A.fail w) q]
  unfold serve
  rw [hq]
  simp only [serveFrom, hm]

theorem serve_empty (hq : A.queue = []) : A.serve = A :=
  serve_of_settled fun w n q h => by rw [hq] at h; cases h

section Apply

/-- A request that finds nobody waiting and enough permits is granted at once. -/
theorem enter_claim (hq : A.queue = []) (hm : A.permits = some m) (hn : n ≤ m)
    (hg : A.granted w = none) :
    (A.step cap (.enter w n)).step cap (.claim w) =
      { A with permits := some (m - n), finished := A.finished ++ [(w, false)] } := by
  obtain ⟨p, q, g, f⟩ := A
  obtain rfl : q = [] := hq
  obtain rfl : p = some m := hm
  have hclaim : Function.update (Function.update g w (some n)) w none = g := by
    rw [Function.update_idem, ← hg, Function.update_eq_self]
  have hserve : (Fifo.mk (some m) [] g f).step cap (.enter w n) =
      ⟨some (m - n), [], Function.update g w (some n), f ++ [(w, false)]⟩ := by
    simp [step, apply, serve, serveFrom, hn, grant]
  rw [hserve, step, serve_empty rfl]
  simp only [apply, hclaim]

theorem enter_fail (hq : A.queue = []) (hm : A.permits = none) :
    A.step cap (.enter w n) = { A with finished := A.finished ++ [(w, true)] } := by
  obtain ⟨p, q, g, f⟩ := A
  obtain rfl : q = [] := hq
  obtain rfl : p = none := hm
  rfl

/-- Who neither waits nor was granted anything withdraws nothing. -/
theorem apply_drop (hg : A.granted w = none) (hq : ∀ e ∈ A.queue, e.1 ≠ w) :
    A.apply cap (.drop w) = A := by
  have hqueue : A.queue.filter (fun e => e.1 ≠ w) = A.queue :=
    List.filter_eq_self.mpr fun e he => by simpa using hq e he
  simp only [apply, hg, hqueue]

theorem apply_claim (hg : A.granted w = none) : A.apply cap (.claim w) = A := by
  have hgranted : Function.update A.granted w none = A.granted := by
    rw [← hg, Function.update_eq_self]
  simp only [apply, hgranted]

@[simp] theorem finished_apply (cap : ℕ) (A : Fifo ω) (op : Op ω) :
    (A.apply cap op).finished = A.finished := by
  cases op with
  | drop w => cases hg : A.granted w <;> simp only [apply, hg]
  | _ => rfl

theorem run_toList (op : Option (Op ω)) : A.run cap op.toList = op.elim A (A.step cap) := by
  cases op <;> rfl

end Apply

section Release

/-- As long as nothing overflows, more permits can be added before or after serving. -/
theorem serveFrom_add (hm : A.permits = some m) (k : ℕ) :
    ({ A.serveFrom q with permits := (A.serveFrom q).permits.map (· + k) } : Fifo ω).serve =
      ({ A with permits := some (m + k) } : Fifo ω).serveFrom q := by
  induction q generalizing A m with
  | nil =>
    simp only [serveFrom, hm, Option.map_some]
    exact serve_empty rfl
  | cons e q ih =>
    obtain ⟨w, n⟩ := e
    simp only [serveFrom, hm]
    by_cases hle : n ≤ m
    · rw [if_pos hle, if_pos (by omega), ih (A := A.grant w n m) rfl]
      unfold grant
      rw [Nat.sub_add_comm hle]
    · rw [if_neg hle]
      simp only [Option.map_some]
      change serveFrom _ ((w, n) :: q) = _
      rw [serveFrom_set_queue { A with permits := some (m + k) } ((w, n) :: q)]
      simp only [serveFrom]

theorem serve_permits_le (hm : A.permits = some m) :
    ∃ k, (A.serveFrom q).permits = some k ∧ k ≤ m := by
  induction q generalizing A m with
  | nil => exact ⟨m, hm, le_refl m⟩
  | cons e q ih =>
    obtain ⟨w, n⟩ := e
    simp only [serveFrom, hm]
    split_ifs with hle
    · obtain ⟨k, hk, hkm⟩ := ih (A := A.grant w n m) rfl
      exact ⟨k, hk, by omega⟩
    · exact ⟨m, rfl, le_refl m⟩

/-- Serving before a release changes nothing, unless the release makes the counter overflow. -/
theorem serve_release (hm : A.permits = some m) (hcap : m + n ≤ cap) :
    A.serve.step cap (.release n) = A.step cap (.release n) := by
  obtain ⟨k, hk, hkm⟩ := serve_permits_le (q := A.queue) hm
  have hadd := serveFrom_add (q := A.queue) hm n
  simp only [hk, Option.map_some] at hadd
  unfold step apply serve
  simp only [hk, hm, Tally.ofNat_of_le (show n ≤ cap by omega), Tally.add_some_some]
  rw [Tally.ofNat_of_le hcap, Tally.ofNat_of_le (show k + n ≤ cap by omega)]
  exact hadd

end Release

section Prefix

theorem serveFrom_prefix (hm : A.permits = some m) :
    (A.serveFrom q).permits =
        some (m - ((q.map Prod.snd).take (prefixLength m (q.map Prod.snd))).sum) ∧
      (A.serveFrom q).queue = q.drop (prefixLength m (q.map Prod.snd)) ∧
      (A.serveFrom q).finished =
        A.finished ++ (q.take (prefixLength m (q.map Prod.snd))).map fun e => (e.1, false) := by
  induction q generalizing A m with
  | nil => simp [serveFrom, prefixLength, hm]
  | cons e q ih =>
    obtain ⟨w, n⟩ := e
    simp only [serveFrom, hm, List.map_cons, prefixLength]
    by_cases hle : n ≤ m
    · obtain ⟨hp, hq, hf⟩ := ih (A := A.grant w n m) (m := m - n) rfl
      rw [if_pos hle, if_pos hle]
      refine ⟨?_, ?_, ?_⟩
      · rw [hp, List.take_succ_cons, List.sum_cons, Nat.sub_sub]
      · rw [hq, List.drop_succ_cons]
      · rw [hf, List.take_succ_cons, List.map_cons]
        simp [grant]
    · rw [if_neg hle, if_neg hle]
      simp

end Prefix

section Async

/-- A queue, and the permits that were taken or claimed from it and are still held. -/
structure Lender (ω : Type*) extends Fifo ω where
  held : ℕ

def Lender.init (cap initial : ℕ) : Lender ω := ⟨.init cap initial, 0⟩

structure Fresh (A : Fifo ω) (w : ω) : Prop where
  granted : A.granted w = none
  queue : ∀ n, (w, n) ∉ A.queue
  finished : ∀ p, (w, p) ∉ A.finished

/-- What can be seen of a queue that is served in its own time. -/
inductive Sight (ω : Type*)
  | entered (w : ω) (n : ℕ)
  | withdrew (w : ω)
  | finished (w : ω) (failed : Bool)
  | took (n : ℕ)
  | claimed (n : ℕ)
  | gaveBack (n : ℕ)
  | gaveUp (n : ℕ)
  | forgot (n : ℕ)
  | added (n : ℕ)
  | poisoned
  deriving DecidableEq

/-- A change of hands of no permits is not seen. -/
def seen (n : ℕ) (o : Sight ω) : Option (Sight ω) := if n = 0 then none else some o

/-- A move of a queue that is served in its own time, and what is seen of it. The oldest request may
be popped at any time, and permits are taken past the queue only while nobody waits. Only what is
held can be given up, forgotten or lost with poison. -/
inductive Async (cap : ℕ) (A : Lender ω) : Option (Sight ω) → Lender ω → Prop
  | enter (w : ω) (n : ℕ) (hw : A.Fresh w) :
    Async cap A (some (.entered w n)) ⟨A.apply cap (.enter w n), A.held⟩
  | withdraw (w : ω) (n : ℕ) (hq : (w, n) ∈ A.queue) (hw : A.granted w = none) :
    Async cap A (some (.withdrew w)) ⟨A.apply cap (.drop w), A.held⟩
  | grant (w : ω) (n m : ℕ) (q : List (ω × ℕ)) (hq : A.queue = (w, n) :: q)
    (hm : A.permits = some m) (hle : n ≤ m) :
    Async cap A (some (.finished w false)) ⟨{ A.grant w n m with queue := q }, A.held⟩
  | fail (w : ω) (n : ℕ) (q : List (ω × ℕ)) (hq : A.queue = (w, n) :: q) (hm : A.permits = none) :
    Async cap A (some (.finished w true)) ⟨{ A.fail w with queue := q }, A.held⟩
  | take (n m : ℕ) (hq : A.queue = []) (hm : A.permits = some m) (hn : n ≤ m) :
    Async cap A (some (.took n)) ⟨A.apply cap (.take n), A.held + n⟩
  | claim (w : ω) (n : ℕ) (hw : A.granted w = some n) :
    Async cap A (seen n (.claimed n)) ⟨A.apply cap (.claim w), A.held + n⟩
  /-- What was granted comes back without having been claimed. -/
  | giveBack (w : ω) (n : ℕ) (hw : A.granted w = some n) :
    Async cap A (seen n (.gaveBack n)) ⟨A.apply cap (.drop w), A.held⟩
  | giveUp (n : ℕ) (hn : n ≤ A.held) :
    Async cap A (seen n (.gaveUp n)) ⟨A.apply cap (.release n), A.held - n⟩
  | forget (n : ℕ) (hn : n ≤ A.held) : Async cap A (some (.forgot n)) ⟨A.toFifo, A.held - n⟩
  | release (n : ℕ) : Async cap A (some (.added n)) ⟨A.apply cap (.release n), A.held⟩
  | poison (n : ℕ) (hn : n ≤ A.held) :
    Async cap A (some .poisoned) ⟨A.apply cap .poison, A.held - n⟩

inductive AsyncRun (cap : ℕ) (A : Lender ω) : List (Sight ω) → Lender ω → Prop
  | refl : AsyncRun cap A [] A
  | tail {B C : Lender ω} {l : List (Sight ω)} {o : Option (Sight ω)} (h : AsyncRun cap A l B)
    (hmove : Async cap B o C) : AsyncRun cap A (o.toList ++ l) C

end Async

end Fifo
