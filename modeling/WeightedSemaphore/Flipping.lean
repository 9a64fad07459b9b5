import WeightedSemaphore.Lib.Halting
import WeightedSemaphore.QueueShape
import WeightedSemaphore.Returns

/-!
# Flipping the pushed waiters

`ReleaseAction::flip` as a procedure of its own: from any state with a well-formed queue, and not
only from the reachable ones, run by one thread up to its end. A weak compare-exchange may fail
spuriously any number of times; the steps that do not are counted.
-/

namespace WeightedSemaphore

open Function (update update_self update_of_ne update_idem)
open Links

section

variable [Usize] {ι : Type} [DecidableEq ι]

/-- Thread `t` alone takes steps until its frame passes `stop`. A step listed as `true` fails its
weak compare-exchange, if it makes one. -/
def Sys.alone (s : Sys ι) (t : ι) (stop : Frame ι → Bool) (spurious : List Bool) :
    Option (Sys ι) :=
  Runs.exec (Runs.halting (fun u b => u.next (.step t b)) fun u => stop (u.frames t)) spurious s

/-- Alone, `t` comes to a stop in a state of which `P` holds, at the latest when `n` of its steps
did not fail spuriously. -/
def Sys.Ends (s : Sys ι) (t : ι) (stop : Frame ι → Bool) (n : ℕ) (P : Sys ι → Prop) : Prop :=
  ∀ spurious : List Bool, n ≤ spurious.count false →
    ∃ u, s.alone t stop spurious = some u ∧ stop (u.frames t) = true ∧ P u

structure Sys.HasQueue (s : Sys ι) (l : List Ptr) : Prop where
  linked : LinkedOk s.sem s.mem l
  nodup : l.Nodup
  ne_null : ∀ x ∈ l, x ≠ null

omit [DecidableEq ι] in
def Frame.flipped : Frame ι → Bool
  | .release _ _ (.cancel _) => true
  | .panicked => true
  | _ => false

def Sys.relinked (s : Sys ι) (front middle : Ptr) (next prev : Ptr → Ptr) : Sys ι :=
  { s with
    sem := { s.sem with acquire := .new (.queued null), front := front, middle := middle }
    mem := { s.mem with next := next, prev := prev } }

variable {s u : Sys ι} {t : ι} {r : Permits} {ret : Cont} {nextCancel back : Ptr}
  {old pushed : List Ptr} {b : Bool}

omit [Usize] in
theorem Atomic.cmpxchgWeak_spurious {T : Type} [Packable T] (a : Atomic T) (current val : T) :
    a.cmpxchgWeak current val true = none := by
  simp [Atomic.cmpxchgWeak]

@[simp] theorem Sys.goto_frames (s : Sys ι) (t : ι) (f : Frame ι) : (s.goto t f).frames t = f :=
  update_self ..

@[simp] theorem Sys.goto_goto (s : Sys ι) (t : ι) (f g : Frame ι) :
    (s.goto t f).goto t g = s.goto t g := by
  simp [Sys.goto, update_idem]

/-- The stages of a flip that takes the waiters in `pushed`, by the number of steps to come. -/
inductive Sys.Flipping (s : Sys ι) (t : ι) (r : Permits) (ret : Cont) (nextCancel back : Ptr)
    (old pushed : List Ptr) : ℕ → Sys ι → Prop
  | load : Flipping s t r ret nextCancel back old pushed (pushed.length + 2) s
  | flip : Flipping s t r ret nextCancel back old pushed (pushed.length + 1)
      (s.goto t (.release r ret (.flip nextCancel (.queued back))))
  | walk {next : Ptr → Ptr} {waiter : Ptr} {rest done : List Ptr}
      (hwalk : Walk null next s.mem.prev s.sem.front s.sem.middle old waiter rest done)
      (hpushed : pushed.reverse = rest.reverse ++ waiter :: done) (hback : back = last waiter done)
      (hnext : ∀ x ∉ pushed, next x = s.mem.next x) :
      Flipping s t r ret nextCancel back old pushed (rest.length + 1)
        ((s.relinked s.sem.front s.sem.middle next s.mem.prev).goto t
          (.release r ret (.walk nextCancel back waiter)))
  | cancel {front : Ptr} {next prev : Ptr → Ptr}
      (hqueue : Queue null next prev front back (old ++ pushed.reverse))
      (hother : ∀ x ∉ old ++ pushed.reverse, next x = s.mem.next x ∧ prev x = s.mem.prev x) :
      Flipping s t r ret nextCancel back old pushed 0
        ((s.relinked front back next prev).goto t (.release r ret (.cancel nextCancel)))

namespace Sys

variable {waiter : Ptr} {front middle : Ptr} {next prev : Ptr → Ptr} {f : Frame ι}

/-- The oldest waiter becomes the front of an empty queue. -/
theorem walk_whole (hwaiter : waiter ≠ null) (hprev : prev waiter = null)
    (hmiddle : middle = null) :
    ((s.relinked front middle next prev).goto t f).walk t r ret nextCancel back waiter =
      (s.relinked waiter back next prev).goto t (.release r ret (.cancel nextCancel)) := by
  change (if waiter = null then _ else if prev waiter = null then if middle = null then _ else _
    else _) = _
  rw [if_neg hwaiter, if_pos hprev, if_pos hmiddle]
  exact goto_goto (s.relinked waiter back next prev) t f _

/-- The oldest waiter goes behind the last one of the queue. -/
theorem walk_splice (hwaiter : waiter ≠ null) (hprev : prev waiter = null)
    (hmiddle : middle ≠ null) :
    ((s.relinked front middle next prev).goto t f).walk t r ret nextCancel back waiter =
      (s.relinked front back (update next middle waiter) (update prev waiter middle)).goto t
        (.release r ret (.cancel nextCancel)) := by
  change (if waiter = null then _ else if prev waiter = null then if middle = null then _ else _
    else _) = _
  rw [if_neg hwaiter, if_pos hprev, if_neg hmiddle]
  exact goto_goto
    (s.relinked front back (update next middle waiter) (update prev waiter middle)) t f _

/-- An older waiter gets its next edge. -/
theorem walk_link (hwaiter : waiter ≠ null) (hprev : prev waiter ≠ null) :
    ((s.relinked front middle next prev).goto t f).walk t r ret nextCancel back waiter =
      (s.relinked front middle (update next (prev waiter) waiter) prev).goto t
        (.release r ret (.walk nextCancel back (prev waiter))) := by
  change (if waiter = null then _ else if prev waiter = null then _ else _) = _
  rw [if_neg hwaiter, if_neg hprev]
  exact goto_goto (s.relinked front middle (update next (prev waiter) waiter) prev) t f _

/-- The inner loop goes on to the next older waiter, or splices the oldest one. -/
theorem Flipping.walk_step {rest done : List Ptr}
    (hwalk : Walk null next s.mem.prev s.sem.front s.sem.middle old waiter rest done)
    (hpushed : pushed.reverse = rest.reverse ++ waiter :: done) (hback : back = last waiter done)
    (hnext : ∀ x ∉ pushed, next x = s.mem.next x) :
    s.Flipping t r ret nextCancel back old pushed rest.length
      (((s.relinked s.sem.front s.sem.middle next s.mem.prev).goto t
        (.release r ret (.walk nextCancel back waiter))).walk t r ret nextCancel back waiter) := by
  have hout {x : Ptr} (hx : x ∉ old ++ pushed.reverse) : next x = s.mem.next x :=
    hnext x fun hm => hx (by simp [hm])
  cases rest with
  | nil =>
    have hprev : s.mem.prev waiter = null := hwalk.prev_eq_null_iff.mpr rfl
    rw [List.reverse_nil, List.nil_append] at hpushed
    by_cases hold : old = []
    · subst hold
      rw [walk_whole hwalk.ne_null hprev (hwalk.back_eq_null_iff.mpr rfl)]
      refine .cancel ?_ fun x hx => ⟨hout hx, rfl⟩
      rw [hpushed, hback]
      exact hwalk.whole
    · rw [walk_splice hwalk.ne_null hprev (mt hwalk.back_eq_null_iff.mp hold)]
      refine .cancel ?_ fun x hx => ?_
      · rw [hpushed, hback]
        exact hwalk.splice hold
      · have hmiddle : x ≠ s.sem.middle := by
          rintro rfl
          exact hx (by simp [hwalk.back_mem hold])
        have hwaiter : x ≠ waiter := by
          rintro rfl
          exact hx (by simp [hpushed])
        rw [update_of_ne hmiddle, update_of_ne hwaiter]
        exact ⟨hout hx, rfl⟩
  | cons older rest =>
    obtain ⟨holder, hnull⟩ := hwalk.prev_eq
    rw [walk_link hwalk.ne_null (holder ▸ hnull), holder]
    refine .walk hwalk.link ?_ hback fun x hx => ?_
    · rw [hpushed, List.reverse_cons, List.append_assoc, List.singleton_append]
    · have hne : x ≠ older := by
        rintro rfl
        exact hx (List.mem_reverse.mp (by simp [hpushed]))
      rw [update_of_ne hne]
      exact hnext x hx

/-- A compare-exchange of `flip` that fails spuriously leads to a fresh read of the acquire word. -/
theorem flip_spurious {current : AcquireState} (h : current ≠ .queued null ∨ s.sem.front = null) :
    s.release t r ret true (.flip nextCancel current) =
      s.goto t (.release r ret (.flip nextCancel s.sem.acquire.load)) := by
  cases current with
  | available p => simp only [release, flip, Atomic.cmpxchgWeak_spurious]
  | queued back =>
    simp only [release, flip, Atomic.cmpxchgWeak_spurious]
    by_cases hback : back = null
    · have hfront : s.sem.front = null := h.resolve_left fun h => h (by rw [hback])
      rw [if_pos ⟨hback, hfront⟩]
    · rw [if_neg fun h => hback h.1, if_neg hback]

theorem flip_take (hload : s.sem.acquire.load = .queued back) (hback : back ≠ null) :
    s.release t r ret false (.flip nextCancel (.queued back)) =
      (s.relinked s.sem.front s.sem.middle s.mem.next s.mem.prev).goto t
        (.release r ret (.walk nextCancel back back)) := by
  simp only [release, flip]
  rw [if_neg fun h => hback h.1, if_neg hback, Atomic.cmpxchgWeak_of_load hload]
  rfl

theorem flip_skip (hfront : s.sem.front ≠ null) :
    s.release t r ret b (.flip nextCancel (.queued null)) =
      s.goto t (.release r ret (.cancel nextCancel)) := by
  simp only [release, flip]
  rw [if_neg fun h => hfront h.2, if_pos trivial]

theorem flip_publish (hload : s.sem.acquire.load = .queued null) (hfront : s.sem.front = null) :
    s.release t r ret false (.flip nextCancel (.queued null)) =
      { s with sem.acquire := .new (.available r) }.goto t
        (.release (Permits.new 0) ret (.cancel nextCancel)) := by
  simp only [release, flip]
  rw [if_pos ⟨trivial, hfront⟩, Atomic.cmpxchgWeak_of_load hload]

theorem flip_add {p : Permits} (hload : s.sem.acquire.load = .available p) :
    s.release t r ret false (.flip nextCancel (.available p)) =
      { s with sem.acquire := .new (.available (p + r)) }.goto t
        (if s.sem.front = null then .release (Permits.new 0) ret (.cancel nextCancel)
          else .panicked) := by
  simp only [release, flip]
  rw [Atomic.cmpxchgWeak_of_load hload]
  dsimp only
  split_ifs <;> rfl

/-- Each step of the flip leads to the next stage, but for a compare-exchange that fails. -/
theorem Flipping.step {k : ℕ} (hload : s.sem.acquire.load = .queued back)
    (hf : s.frames t = .release r ret (.flipLoad nextCancel))
    (hq : Queue null s.mem.next s.mem.prev s.sem.front s.sem.middle old)
    (hold : ∀ x ∈ old, x ≠ null) (hpath : Path null s.mem.prev back pushed) (hne : pushed ≠ [])
    (hnext : ∀ x ∈ pushed, s.mem.next x = null) (hnd : (old ++ pushed.reverse).Nodup)
    (h : s.Flipping t r ret nextCancel back old pushed (k + 1) u) (b : Bool) :
    (u.frames t).flipped = false ∧ ∃ v, u.next (.step t b) = some v ∧
      (s.Flipping t r ret nextCancel back old pushed k v ∨
        b = true ∧ s.Flipping t r ret nextCancel back old pushed (k + 1) v) := by
  have hback : back ≠ null := fun he => hne (hpath.eq_nil_iff.mpr he)
  generalize hk : k + 1 = j at h
  cases h with
  | load =>
    obtain rfl : k = pushed.length + 1 := by omega
    refine ⟨by rw [hf]; rfl, _, next_release hf, Or.inl ?_⟩
    simp only [release, hload]
    exact .flip
  | flip =>
    obtain rfl : k = pushed.length := by omega
    set v := s.goto t (.release r ret (.flip nextCancel (.queued back))) with hv
    have hvload : v.sem.acquire.load = .queued back := hload
    refine ⟨by rw [hv, goto_frames]; rfl, _, next_release (goto_frames ..), ?_⟩
    cases b with
    | true =>
      refine Or.inr ⟨rfl, ?_⟩
      rw [flip_spurious (Or.inl (by simp [hback])), hvload, hv, goto_goto]
      exact .flip
    | false =>
      left
      rw [flip_take hvload hback]
      obtain ⟨waiter, rest, rfl⟩ := List.exists_cons_of_ne_nil hne
      obtain rfl : back = waiter := hpath.1
      have hwalk := Walk.start hq hold hpath (hnext back (by simp)) hnd
      exact (goto_goto (s.relinked _ _ _ _) t _ _) ▸
        .walk hwalk (List.reverse_cons ..) rfl fun _ _ => rfl
  | walk hwalk hpushed hback hnext =>
    obtain rfl : k = _ := Nat.succ.inj hk
    refine ⟨by rw [goto_frames]; rfl, _, next_release (goto_frames ..), Or.inl ?_⟩
    exact walk_step hwalk hpushed hback hnext
  | cancel hqueue hother => cases hk

theorem alone_stage {stop : Frame ι → Bool} {I : ℕ → Sys ι → Prop}
    (hstop : ∀ u, I 0 u → stop (u.frames t) = true)
    (hstep : ∀ k u b, I (k + 1) u → stop (u.frames t) = false ∧
      ∃ v, u.next (.step t b) = some v ∧ (I k v ∨ b = true ∧ I (k + 1) v))
    {n : ℕ} (hs : I n s) (spurious : List Bool) :
    ∃ k u, s.alone t stop spurious = some u ∧ I k u ∧ (k = 0 ∨ k + spurious.count false ≤ n) := by
  have hidle (k : ℕ) (u : Sys ι) (b : Bool) (h : I (k + 1) u) : stop (u.frames t) = false ∧
      ∃ v, u.next (.step t b) = some v ∧ (I k v ∨ id b = true ∧ I (k + 1) v) := hstep k u b h
  obtain ⟨k, u, hu, hk, hle⟩ := Runs.exec_halting hstop hidle hs spurious
  refine ⟨k, u, hu, hk, hle.imp_right fun hle => ?_⟩
  have hcount : spurious.count false = spurious.countP fun b => !id b := by
    rw [List.count]
    refine List.countP_congr fun b _ => ?_
    cases b <;> simp
  rwa [hcount]

theorem ends_of_stage {stop : Frame ι → Bool} {I : ℕ → Sys ι → Prop} {P : Sys ι → Prop}
    (hstop : ∀ u, I 0 u → stop (u.frames t) = true)
    (hstep : ∀ k u b, I (k + 1) u → stop (u.frames t) = false ∧
      ∃ v, u.next (.step t b) = some v ∧ (I k v ∨ b = true ∧ I (k + 1) v))
    {n : ℕ} (hs : I n s) (hP : ∀ u, I 0 u → P u) : s.Ends t stop n P := by
  intro spurious hcount
  obtain ⟨k, u, hu, hk, hle⟩ := alone_stage hstop hstep hs spurious
  obtain rfl : k = 0 := by omega
  exact ⟨u, hu, hstop u hk, hP u hk⟩

/-- A flip that is over with its second step. -/
theorem ends_at_once (hf : s.frames t = .release r ret (.flipLoad nextCancel)) {v : Sys ι}
    {current : AcquireState} (hload : s.sem.acquire.load = current)
    (hv : s.goto t (.release r ret (.flip nextCancel current)) = v)
    (hu : (u.frames t).flipped = true)
    (hfalse : v.release t r ret false (.flip nextCancel current) = u)
    (htrue : v.release t r ret true (.flip nextCancel current) = u ∨
      v.release t r ret true (.flip nextCancel current) = v) :
    s.Ends t Frame.flipped 2 (· = u) := by
  subst hload
  have hfv : v.frames t = .release r ret (.flip nextCancel s.sem.acquire.load) := by
    rw [← hv, goto_frames]
  refine ends_of_stage (I := fun k w => k = 0 ∧ w = u ∨ k = 1 ∧ w = v ∨ k = 2 ∧ w = s) ?_ ?_
    (Or.inr (Or.inr ⟨rfl, rfl⟩)) (by simp)
  · rintro w (⟨-, rfl⟩ | ⟨h, -⟩ | ⟨h, -⟩)
    · exact hu
    · cases h
    · cases h
  · rintro k w b (⟨h, -⟩ | ⟨h, rfl⟩ | ⟨h, rfl⟩)
    · cases h
    · obtain rfl : k = 0 := by omega
      refine ⟨by rw [hfv]; rfl, _, next_release hfv, ?_⟩
      cases b with
      | false => exact Or.inl (Or.inl ⟨rfl, hfalse⟩)
      | true =>
        rcases htrue with h | h
        · exact Or.inl (Or.inl ⟨rfl, h⟩)
        · exact Or.inr ⟨rfl, Or.inr (Or.inl ⟨rfl, h⟩)⟩
    · obtain rfl : k = 1 := by omega
      exact ⟨by rw [hf]; rfl, _, next_release hf, Or.inl (Or.inr (Or.inl ⟨rfl, hv⟩))⟩

structure Flips (s : Sys ι) (t : ι) (r : Permits) (ret : Cont) (nextCancel : Ptr)
    (old : List Ptr) : Prop where
  /-- Pushed waiters go behind the queue, the oldest one first. -/
  take : ∀ back pushed, s.sem.acquire.load = .queued back → pushed ≠ [] →
    Path null s.mem.prev back pushed → (∀ x ∈ pushed, s.mem.next x = null) →
    old.Disjoint pushed → s.Ends t Frame.flipped (pushed.length + 2) fun u =>
      u.frames t = .release r ret (.cancel nextCancel) ∧ u.sem.acquire.load = .queued null ∧
        u.HasQueue (old ++ pushed.reverse) ∧
        ∃ front next prev, u = (s.relinked front back next prev).goto t (u.frames t) ∧
          ∀ x ∉ old ++ pushed.reverse, next x = s.mem.next x ∧ prev x = s.mem.prev x
  /-- Nothing is pushed, and the queue is not empty. -/
  skip : s.sem.acquire.load = .queued null → old ≠ [] →
    s.Ends t Frame.flipped 2 (· = s.goto t (.release r ret (.cancel nextCancel)))
  /-- Nobody waits. -/
  publish : s.sem.acquire.load = .queued null → old = [] →
    s.Ends t Frame.flipped 2 (· = { s with sem.acquire := .new (.available r) }.goto t
      (.release (Permits.new 0) ret (.cancel nextCancel)))
  /-- The permits are added to those of the word. Then an assertion demands that the queue be empty,
  as it is in every reachable state. -/
  add : ∀ p, s.sem.acquire.load = .available p →
    s.Ends t Frame.flipped 2 (· = { s with sem.acquire := .new (.available (p + r)) }.goto t
      (if old = [] then .release (Permits.new 0) ret (.cancel nextCancel) else .panicked))
  empty : ∀ p initial, s.sem.acquire.load = .available p → Reachable initial s → old = []

end Sys

/-- `flip` appends the pushed stack in the order of arrival, and does nothing else to the queue. -/
theorem flip_appends_pushed (hf : s.frames t = .release r ret (.flipLoad nextCancel))
    (hq : s.HasQueue old) : s.Flips t r ret nextCancel old := by
  have hfront := hq.linked.front_eq_null_iff hq.ne_null
  constructor
  case take =>
    intro back pushed hload hne hpath hnext hdisj
    have hnd : (old ++ pushed.reverse).Nodup := by
      refine List.nodup_append.mpr ⟨hq.nodup, List.nodup_reverse.mpr hpath.nodup, ?_⟩
      rintro x hx y hy rfl
      exact hdisj hx (List.mem_reverse.mp hy)
    refine Sys.ends_of_stage (I := s.Flipping t r ret nextCancel back old pushed) ?_ ?_ .load ?_
    · intro u hu
      generalize hk : 0 = k at hu
      cases hu with
      | cancel hqueue hother => rw [Sys.goto_frames]; rfl
      | _ => cases hk
    · exact fun k u b h => h.step hload hf hq.linked hq.ne_null hpath hne hnext hnd b
    · intro u hu
      generalize hk : 0 = k at hu
      cases hu with
      | @cancel front next prev hqueue hother =>
        rw [Sys.goto_frames]
        refine ⟨rfl, Atomic.load_new _, ⟨hqueue, hnd, fun x hx => ?_⟩,
          front, next, prev, rfl, hother⟩
        rcases List.mem_append.mp hx with hx | hx
        · exact hq.ne_null x hx
        · exact hpath.ne_null x (List.mem_reverse.mp hx)
      | _ => cases hk
  case skip =>
    intro hload hold
    have hne : s.sem.front ≠ null := mt hfront.mp hold
    set v := s.goto t (.release r ret (.flip nextCancel (.queued null))) with hv
    have hleave (b : Bool) : v.release t r ret b (.flip nextCancel (.queued null)) =
        s.goto t (.release r ret (.cancel nextCancel)) := by
      have hvne : v.sem.front ≠ null := hne
      rw [Sys.flip_skip hvne, hv, Sys.goto_goto]
    refine Sys.ends_at_once hf hload hv.symm ?_ (hleave false) (Or.inl (hleave true))
    rw [Sys.goto_frames]
    rfl
  case publish =>
    intro hload hold
    have hnull : s.sem.front = null := hfront.mpr hold
    set v := s.goto t (.release r ret (.flip nextCancel (.queued null))) with hv
    have hvload : v.sem.acquire.load = .queued null := hload
    have hvnull : v.sem.front = null := hnull
    refine Sys.ends_at_once hf hload hv.symm ?_ ?_ (Or.inr ?_)
    · rw [Sys.goto_frames]
      rfl
    · rw [Sys.flip_publish hvload hvnull]
      exact Sys.goto_goto { s with sem.acquire := .new (.available r) } t _ _
    · rw [Sys.flip_spurious (Or.inr hvnull), hvload, hv, Sys.goto_goto]
  case add =>
    intro p hload
    set v := s.goto t (.release r ret (.flip nextCancel (.available p))) with hv
    have hvload : v.sem.acquire.load = .available p := hload
    have hvfront : v.sem.front = null ↔ old = [] := hfront
    refine Sys.ends_at_once hf hload hv.symm ?_ ?_ (Or.inr ?_)
    · rw [Sys.goto_frames]
      split <;> rfl
    · rw [Sys.flip_add hvload]
      simp only [hvfront]
      exact Sys.goto_goto { s with sem.acquire := .new (.available (p + r)) } t _ _
    · rw [Sys.flip_spurious (Or.inl (by simp)), hvload, hv, Sys.goto_goto]
  case empty =>
    intro p initial hload h
    obtain ⟨a, hr⟩ := h.represents
    obtain ⟨o, -, -, -, -, -, -, hlink⟩ := hr.sim.owner_of hr.inv hf rfl
    have hnil := hr.inv.available.linked_nil _ (hr.sim.words.acq_available hload)
    rw [hnil] at hlink
    exact hfront.mp hlink.front_eq

end

attribute [local instance] usize64

/-- One waiter is in the queue, two more are pushed, and the last of them is about to flip. -/
def pushedTwice : Sys Bool :=
  Runs.final Sys.next
    ([.acquire (usize64.ptr 0) 1, .call false (.poll (usize64.ptr 0))] ++ Act.steps false 20 ++
      [.acquire (usize64.ptr 1) 1, .call true (.poll (usize64.ptr 1))] ++ Act.steps true 10 ++
      [.acquire (usize64.ptr 2) 1, .call false (.poll (usize64.ptr 2))] ++ Act.steps false 13)
    (Sys.init 0) (by decide +kernel)

theorem flip_appends_pushed_twice :
    ∃ u, pushedTwice.alone false Frame.flipped [false, true, false, false, false] = some u ∧
      u.HasQueue [usize64.ptr 0, usize64.ptr 1, usize64.ptr 2] := by
  have hf : pushedTwice.frames false =
      .release (Permits.new 0) (.pollEnter (usize64.ptr 2)) (.flipLoad null) := rfl
  have hq : pushedTwice.HasQueue [usize64.ptr 0] := by
    refine ⟨⟨by decide +kernel, by decide +kernel, ?_⟩, by decide +kernel, by decide +kernel⟩
    exact ⟨by decide +kernel, by decide +kernel, trivial⟩
  have hpushed : Path null pushedTwice.mem.prev (usize64.ptr 2) [usize64.ptr 2, usize64.ptr 1] := by
    refine ⟨rfl, by decide +kernel, by decide +kernel, by decide +kernel, ?_⟩
    change pushedTwice.mem.prev (usize64.ptr 1) = null
    decide +kernel
  have hdisj : [usize64.ptr 0].Disjoint [usize64.ptr 2, usize64.ptr 1] :=
    List.singleton_disjoint.mpr (by decide +kernel)
  obtain ⟨u, hu, -, -, -, hqueue, -⟩ := (flip_appends_pushed hf hq).take _ _ (by decide +kernel)
    (by simp) hpushed (by decide +kernel) hdisj [false, true, false, false, false] (by decide)
  exact ⟨u, hu, hqueue⟩

end WeightedSemaphore
