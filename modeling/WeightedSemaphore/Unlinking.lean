import WeightedSemaphore.Flipping
import WeightedSemaphore.WakerSpec
import Mathlib.Data.List.Nodup

/-!
# Unlinking the cancelled waiters

`ReleaseAction::cancel` as a procedure of its own: from any state with a well-formed queue and a
chain of cancelling nodes of it, in any order, run by one thread up to its end. Every removal leaves
a well-formed queue, in which the later nodes of the chain are unlinked in turn.
-/

namespace WeightedSemaphore

open Function (update update_self update_of_ne update_eq_self)
open AtomicWaker (AcceptCancelPc)
open Links

section

variable [Usize] {ι : Type} [DecidableEq ι]

omit [DecidableEq ι] in
def Frame.unlinked : Frame ι → Bool
  | .release _ _ .tryPop => true
  | _ => false

/-- Each node of the chain leaves the queue, and then its cancellation is accepted; oldest first. -/
def batchEvents (uid : Ptr → ℕ) (chain : List Ptr) : List Event :=
  chain.flatMap fun x => [.unlinked (uid x), .cancelled (uid x)]

omit [DecidableEq ι] in
theorem batchEvents_concat (uid : Ptr → ℕ) (chain : List Ptr) (x : Ptr) :
    (batchEvents uid (chain ++ [x])).reverse =
      .cancelled (uid x) :: .unlinked (uid x) :: (batchEvents uid chain).reverse := by
  simp [batchEvents]

/-- What `u` has in common with `s`, when the nodes in `unlinked` have left the queue `l` and the
cancellations of those in `accepted` are accepted. -/
structure Sys.Batch (s : Sys ι) (l unlinked accepted : List Ptr) (u : Sys ι) : Prop where
  linked : LinkedOk u.sem u.mem (l.diff unlinked)
  nextCancel : u.mem.nextCancel = s.mem.nextCancel
  uid : u.ghost.uid = s.ghost.uid
  waker : ∀ x ∉ accepted, u.mem.waker x = s.mem.waker x
  cancelled : ∀ x ∈ accepted, (u.mem.waker x).kind = .cancelled

/-- The stages of the loop of `cancel` on the chain `c`, by the number of steps to come. -/
inductive Sys.Unlinking (s : Sys ι) (t : ι) (r : Permits) (ret : Cont) (l c : List Ptr) :
    ℕ → Sys ι → Prop
  | loop {u : Sys ι} {done rest : List Ptr} {head : Ptr} (hc : c = done ++ rest)
      (hf : u.frames t = .release r ret (.cancel head))
      (hpath : Path null s.mem.nextCancel head rest) (hb : s.Batch l done done u)
      (hh : u.ghost.hist = (batchEvents s.ghost.uid done).reverse ++ s.ghost.hist) :
      Unlinking s t r ret l c (4 * rest.length + 1) u
  | accept {u : Sys ι} {done rest : List Ptr} {x next : Ptr} {pc : AcceptCancelPc ι} {k : ℕ}
      (hc : c = done ++ x :: rest) (hf : u.frames t = .release r ret (.accept x next pc))
      (hpc : pc = .load ∧ k = 4 ∨ pc = .exchange .cancelling ∧ k = 3)
      (hnext : next = s.mem.nextCancel x) (hpath : Path null s.mem.nextCancel next rest)
      (hb : s.Batch l (done ++ [x]) done u)
      (hh : u.ghost.hist =
        .unlinked (s.ghost.uid x) :: ((batchEvents s.ghost.uid done).reverse ++ s.ghost.hist)) :
      Unlinking s t r ret l c (4 * rest.length + k) u
  | unpark {u : Sys ι} {done rest : List Ptr} {x next : Ptr} {thread : ι}
      (hc : c = done ++ x :: rest)
      (hf : u.frames t = .release r ret (.accept x next (.unpark thread)))
      (hnext : next = s.mem.nextCancel x) (hpath : Path null s.mem.nextCancel next rest)
      (hb : s.Batch l (done ++ [x]) (done ++ [x]) u)
      (hh : u.ghost.hist = (batchEvents s.ghost.uid (done ++ [x])).reverse ++ s.ghost.hist) :
      Unlinking s t r ret l c (4 * rest.length + 2) u
  | ended {u : Sys ι} (hf : u.frames t = .release r ret .tryPop) (hb : s.Batch l c c u)
      (hh : u.ghost.hist = (batchEvents s.ghost.uid c).reverse ++ s.ghost.hist) :
      Unlinking s t r ret l c 0 u

namespace Sys

variable {s u : Sys ι} {t : ι} {r : Permits} {ret : Cont} {l c done rest : List Ptr} {x next : Ptr}
  {b : Bool} {k : ℕ}

/-- One iteration of the loop takes the next node of the chain out of the queue. -/
theorem Batch.unlink (hq : s.HasQueue l) (hb : s.Batch l done done u)
    (hx : x ∈ l) (hdone : x ∉ done) : s.Batch l (done ++ [x]) done (u.cancel t r ret x) := by
  have hne : x ≠ null := hq.ne_null x hx
  have hmem : x ∈ l.diff done := hq.nodup.mem_sdiff_iff.mpr ⟨hx, hdone⟩
  have hdiff : l.diff (done ++ [x]) = (l.diff done).erase x := by
    rw [List.diff_append, List.diff_cons, List.diff_nil]
  have hlinked := hb.linked.unlink_erase (hq.nodup.diff)
    (fun y hy => hq.ne_null y (List.diff_subset l done hy)) hmem
  simp only [cancel]
  rw [if_neg hne]
  exact ⟨hdiff ▸ hlinked, hb.nextCancel, hb.uid, hb.waker, hb.cancelled⟩

omit [DecidableEq ι] in
/-- Nothing that the batch is about depends on where threads are, or on parking tokens. -/
theorem Batch.congr {v : Sys ι} {unlinked accepted : List Ptr} (hb : s.Batch l unlinked accepted u)
    (hsem : v.sem = u.sem) (hmem : v.mem = u.mem) (huid : v.ghost.uid = u.ghost.uid) :
    s.Batch l unlinked accepted v := by
  constructor
  · rw [hsem, hmem]
    exact hb.linked
  · rw [hmem]
    exact hb.nextCancel
  · rw [huid]
    exact hb.uid
  · rw [hmem]
    exact hb.waker
  · rw [hmem]
    exact hb.cancelled

omit [DecidableEq ι] in
/-- The exchange of `accept_cancel` on a node that has left the queue. -/
theorem Batch.accept {unlinked : List Ptr} {w : AtomicWaker ι}
    (hb : s.Batch l unlinked done u) (hw : w.kind = .cancelled) {v : Sys ι} (hsem : v.sem = u.sem)
    (hmem : v.mem = { u.mem with waker := update u.mem.waker x w })
    (huid : v.ghost.uid = u.ghost.uid) : s.Batch l unlinked (done ++ [x]) v := by
  have hwaker : v.mem.waker = update u.mem.waker x w := by rw [hmem]
  constructor
  · rw [hsem, hmem]
    exact hb.linked.congr rfl rfl fun _ _ => ⟨rfl, rfl⟩
  · rw [hmem]
    exact hb.nextCancel
  · rw [huid]
    exact hb.uid
  · intro y hy
    simp only [List.mem_append, List.mem_singleton, not_or] at hy
    rw [hwaker, update_of_ne hy.2]
    exact hb.waker y hy.1
  · intro y hy
    rw [hwaker]
    by_cases hyx : y = x
    · rw [hyx, update_self]
      exact hw
    · rw [update_of_ne hyx]
      exact hb.cancelled y (by simpa [hyx] using hy)

theorem accept_retry {pc : AcceptCancelPc ι} (hload : (s.mem.waker x).state.load = .cancelling)
    (hpc : pc = .load ∨ pc = .exchange .cancelling ∧ ∃ thread,
      (s.mem.waker x).thread = some thread ∧ b = true) :
    s.accept t r ret b x next pc =
      s.goto t (.release r ret (.accept x next (.exchange .cancelling))) := by
  have hstep : (s.mem.waker x).acceptCancel b pc =
      ⟨s.mem.waker x, .goto (.exchange .cancelling), none⟩ := by
    rcases hpc with rfl | ⟨rfl, thread, hthread, rfl⟩
    · simp only [AtomicWaker.acceptCancel, hload]
    · simp only [AtomicWaker.acceptCancel, hthread, Atomic.cmpxchgWeak_spurious, hload]
  simp only [accept, hstep, runWaker, update_eq_self]

theorem accept_take {w : AtomicWaker ι} {thread : ι}
    (hw : w = { s.mem.waker x with state := .new .cancelled, thread := none })
    (hload : (s.mem.waker x).state.load = .cancelling)
    (hthread : (s.mem.waker x).thread = some thread) :
    s.accept t r ret false x next (.exchange .cancelling) =
      ({ s with mem.waker := update s.mem.waker x w }.log (.cancelled (s.ghost.uid x))).goto t
        (.release r ret (.accept x next (.unpark thread))) := by
  have hstep : (s.mem.waker x).acceptCancel false (.exchange .cancelling) =
      ⟨w, .goto (.unpark thread), none⟩ := by
    simp only [AtomicWaker.acceptCancel, hthread]
    rw [Atomic.cmpxchgWeak_of_load hload, hw]
  simp only [accept, hstep, runWaker]

/-- Each step of the loop leads to the next stage, but for a compare-exchange that fails. -/
theorem Unlinking.step (hq : s.HasQueue l) (hnd : c.Nodup) (hsub : ∀ x ∈ c, x ∈ l)
    (hk : ∀ x ∈ c, (s.mem.waker x).kind = .cancelling ∧ (s.mem.waker x).thread ≠ none)
    (h : s.Unlinking t r ret l c (k + 1) u) (b : Bool) :
    (u.frames t).unlinked = false ∧ ∃ v, u.next (.step t b) = some v ∧
      (s.Unlinking t r ret l c k v ∨ b = true ∧ s.Unlinking t r ret l c (k + 1) v) := by
  generalize hj : k + 1 = j at h
  cases h with
  | @loop _ done rest head hc hf hpath hb hh =>
    refine ⟨by rw [hf]; rfl, _, next_release hf, Or.inl ?_⟩
    cases rest with
    | nil =>
      obtain rfl : head = null := hpath
      rw [List.append_nil] at hc
      subst hc
      obtain rfl : k = 0 := by simpa using hj
      simp only [release, cancel, if_true]
      exact .ended (goto_frames ..) (hb.congr rfl rfl rfl) hh
    | cons x rest =>
      obtain ⟨rfl, hne, hrest⟩ := hpath
      obtain rfl : k = 4 * rest.length + 4 := by
        rw [List.length_cons] at hj
        omega
      have hx : head ∉ done := by
        rw [hc] at hnd
        exact fun hm => (List.nodup_append.mp hnd).2.2 head hm head (by simp) rfl
      refine .accept hc ?_ (Or.inl ⟨rfl, rfl⟩) rfl hrest
        (hb.unlink hq (hsub head (by simp [hc])) hx) ?_
      · simp only [release, cancel]
        rw [if_neg hne, goto_frames, hb.nextCancel]
      · simp only [release, cancel]
        rw [if_neg hne]
        change .unlinked (u.ghost.uid head) :: u.ghost.hist = _
        rw [hb.uid, hh]
  | @accept _ done rest x next pc k' hc hf hpc hnext hpath hb hh =>
    have hx : x ∈ c := by simp [hc]
    have hxdone : x ∉ done := by
      rw [hc] at hnd
      exact fun hm => (List.nodup_append.mp hnd).2.2 x hm x (by simp) rfl
    obtain ⟨hkind, hthread⟩ := hk x hx
    obtain ⟨thread, hthread⟩ := Option.ne_none_iff_exists'.mp hthread
    rw [← hb.waker x hxdone] at hkind hthread
    have hload := Waker.State.kind_eq_cancelling hkind
    refine ⟨by rw [hf]; rfl, _, next_release hf, ?_⟩
    rcases hpc with ⟨rfl, rfl⟩ | ⟨rfl, rfl⟩
    · obtain rfl : k = 4 * rest.length + 3 := by omega
      left
      rw [release, accept_retry hload (Or.inl rfl)]
      exact .accept hc (goto_frames ..) (Or.inr ⟨rfl, rfl⟩) hnext hpath (hb.congr rfl rfl rfl) hh
    · obtain rfl : k = 4 * rest.length + 2 := by omega
      cases b with
      | true =>
        refine Or.inr ⟨rfl, ?_⟩
        rw [release, accept_retry hload (Or.inr ⟨rfl, thread, hthread, rfl⟩)]
        exact .accept hc (goto_frames ..) (Or.inr ⟨rfl, rfl⟩) hnext hpath (hb.congr rfl rfl rfl) hh
      | false =>
        left
        rw [release, accept_take rfl hload hthread]
        refine .unpark hc (goto_frames ..) hnext hpath (hb.accept (x := x) ?_ rfl rfl rfl) ?_
        · exact AtomicWaker.kind_new_state (u.mem.waker x) _
        · change .cancelled (u.ghost.uid x) :: u.ghost.hist = _
          rw [batchEvents_concat, hb.uid, hh]
          rfl
  | @unpark _ done rest x next thread hc hf hnext hpath hb hh =>
    refine ⟨by rw [hf]; rfl, _, next_release hf, Or.inl ?_⟩
    obtain rfl : k = 4 * rest.length + 1 := by omega
    have hc' : c = (done ++ [x]) ++ rest := by rw [hc, List.append_assoc, List.singleton_append]
    exact .loop hc' (goto_frames ..) hpath (hb.congr rfl rfl rfl) hh
  | ended hf hb hh => cases hj

omit [DecidableEq ι] in
theorem Batch.hasQueue {unlinked accepted : List Ptr} (hq : s.HasQueue l)
    (hb : s.Batch l unlinked accepted u) : u.HasQueue (l.filter (· ∉ unlinked)) := by
  have hlinked := hb.linked
  rw [hq.nodup.sdiff_eq_filter] at hlinked
  exact ⟨hlinked, hq.nodup.filter _, fun x hx => hq.ne_null x (List.mem_of_mem_filter hx)⟩

structure Detached (u : Sys ι) (x : Ptr) (q : List Ptr) : Prop where
  queue : u.HasQueue q
  front : u.sem.front ≠ x
  middle : u.sem.middle ≠ x
  edges : ∀ y ∈ q, u.mem.next y ≠ x ∧ u.mem.prev y ≠ x

omit [DecidableEq ι] in
theorem HasQueue.detached {q : List Ptr} (h : u.HasQueue q) (hx : x ∉ q) (hne : x ≠ null) :
    u.Detached x q := by
  obtain ⟨hfront, hmiddle, hedges⟩ := h.linked.not_linked hx hne
  exact ⟨h, hfront, hmiddle, hedges⟩

structure Cancelled (s : Sys ι) (l c : List Ptr) (u : Sys ι) : Prop where
  queue : u.HasQueue (l.filter (· ∉ c))
  empty : (∀ x ∈ l, x ∈ c) → u.sem.front = null ∧ u.sem.middle = null
  hist : u.ghost.hist = (batchEvents s.ghost.uid c).reverse ++ s.ghost.hist
  cancelled : ∀ x ∈ c, (u.mem.waker x).kind = .cancelled
  others : ∀ x ∉ c, u.mem.waker x = s.mem.waker x

omit [DecidableEq ι] in
theorem Batch.ended (hq : s.HasQueue l) (hb : s.Batch l c c u)
    (hh : u.ghost.hist = (batchEvents s.ghost.uid c).reverse ++ s.ghost.hist) :
    s.Cancelled l c u := by
  have hqueue := hb.hasQueue hq
  refine ⟨hqueue, fun hall => ?_, hh, hb.cancelled, hb.waker⟩
  have hnil : l.filter (· ∉ c) = [] := by simpa using hall
  exact ⟨(hqueue.linked.front_eq_null_iff hqueue.ne_null).mpr hnil,
    (hqueue.linked.back_eq_null_iff hqueue.ne_null).mpr hnil⟩

end Sys

variable {s : Sys ι} {t : ι} {r : Permits} {ret : Cont} {l c : List Ptr} {head : Ptr}

/-- `cancel` unlinks exactly the nodes of the chain. It accepts the cancellation of each of them
once, when it has left the queue and its link in the chain has been read. -/
theorem cancel_unlinks (hf : s.frames t = .release r ret (.cancel head)) (hq : s.HasQueue l)
    (hc : Path null s.mem.nextCancel head c) (hsub : ∀ x ∈ c, x ∈ l)
    (hk : ∀ x ∈ c, (s.mem.waker x).kind = .cancelling ∧ (s.mem.waker x).thread ≠ none) :
    (s.Ends t Frame.unlinked (4 * c.length + 1) fun u =>
      u.frames t = .release r ret .tryPop ∧ s.Cancelled l c u) ∧
    ∀ spurious u, s.alone t Frame.unlinked spurious = some u →
      ∀ x next pc, u.frames t = .release r ret (.accept x next pc) →
        next = s.mem.nextCancel x ∧
          ∃ done rest, c = done ++ x :: rest ∧ u.Detached x (l.filter (· ∉ done ++ [x])) := by
  have hstep (k : ℕ) (u : Sys ι) (b : Bool) (h : s.Unlinking t r ret l c (k + 1) u) :=
    h.step hq hc.nodup hsub hk b
  have hstart : s.Unlinking t r ret l c (4 * c.length + 1) s := by
    have hb : s.Batch l [] [] s := ⟨hq.linked, rfl, rfl, fun _ _ => rfl, by simp⟩
    exact .loop rfl hf hc hb rfl
  have hover (u : Sys ι) (h : s.Unlinking t r ret l c 0 u) :
      u.frames t = .release r ret .tryPop ∧ s.Cancelled l c u := by
    generalize hj : 0 = j at h
    cases h with
    | ended hf hb hh => exact ⟨hf, hb.ended hq hh⟩
    | accept hc hf hpc => omega
    | _ => cases hj
  have hstop (u : Sys ι) (h : s.Unlinking t r ret l c 0 u) : (u.frames t).unlinked = true := by
    rw [(hover u h).1]
    rfl
  refine ⟨Sys.ends_of_stage hstop hstep hstart hover, ?_⟩
  intro spurious u hu x next pc hpc
  have hdetached {done rest : List Ptr} {accepted : List Ptr} (hx : c = done ++ x :: rest)
      (hb : s.Batch l (done ++ [x]) accepted u) :
      u.Detached x (l.filter (· ∉ done ++ [x])) := by
    refine (hb.hasQueue hq).detached ?_ (hc.ne_null x (by simp [hx]))
    simp
  obtain ⟨k, v, hv, hstage, -⟩ := Sys.alone_stage hstop hstep hstart spurious
  obtain rfl : v = u := Option.some.inj (hv.symm.trans hu)
  cases hstage with
  | loop hc' hf' => cases hf'.symm.trans hpc
  | accept hc' hf' _ hnext _ hb _ =>
    cases hf'.symm.trans hpc
    exact ⟨hnext, _, _, hc', hdetached hc' hb⟩
  | unpark hc' hf' hnext _ hb _ =>
    cases hf'.symm.trans hpc
    exact ⟨hnext, _, _, hc', hdetached hc' hb⟩
  | ended hf' => cases hf'.symm.trans hpc

end

attribute [local instance] usize64

/-- Three waiters are in the queue. The first two give up, the later one first, and the other one
flips the queue to unlink both. -/
def twoCancelling : Sys Bool :=
  Runs.final Sys.next
    ([.acquire (usize64.ptr 0) 1, .call false (.poll (usize64.ptr 0))] ++ Act.steps false 20 ++
      [.acquire (usize64.ptr 1) 1, .call true (.poll (usize64.ptr 1))] ++ Act.steps true 20 ++
      [.acquire (usize64.ptr 2) 1, .call true (.poll (usize64.ptr 2))] ++ Act.steps true 20 ++
      [.call true (.dropFuture (usize64.ptr 1))] ++ Act.steps true 4 ++
      [.call false (.dropFuture (usize64.ptr 0))] ++ Act.steps false 9)
    (Sys.init 0) (by decide +kernel)

theorem cancel_unlinks_two :
    ∃ u, twoCancelling.alone false Frame.unlinked (List.replicate 9 false) = some u ∧
      twoCancelling.Cancelled [usize64.ptr 0, usize64.ptr 1, usize64.ptr 2]
        [usize64.ptr 0, usize64.ptr 1] u := by
  have hf : twoCancelling.frames false =
      .release (Permits.new 0) (.cancelling (usize64.ptr 0)) (.cancel (usize64.ptr 0)) := rfl
  have hq : twoCancelling.HasQueue [usize64.ptr 0, usize64.ptr 1, usize64.ptr 2] := by
    refine ⟨⟨by decide +kernel, by decide +kernel, ?_⟩, by decide +kernel, by decide +kernel⟩
    exact ⟨by decide +kernel, by decide +kernel, by decide +kernel, by decide +kernel,
      by decide +kernel, by decide +kernel, trivial⟩
  have hc : Path null twoCancelling.mem.nextCancel (usize64.ptr 0)
      [usize64.ptr 0, usize64.ptr 1] := by
    refine ⟨rfl, by decide +kernel, by decide +kernel, by decide +kernel, ?_⟩
    change twoCancelling.mem.nextCancel (usize64.ptr 1) = null
    decide +kernel
  obtain ⟨hends, -⟩ := cancel_unlinks hf hq hc (by decide +kernel) (by decide +kernel)
  obtain ⟨u, hu, -, -, hcancelled⟩ := hends (List.replicate 9 false) (by decide)
  exact ⟨u, hu, hcancelled⟩

end WeightedSemaphore
