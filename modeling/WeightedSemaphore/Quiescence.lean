import WeightedSemaphore.Availability
import WeightedSemaphore.QueueShape
import WeightedSemaphore.WakeupSteps

/-!
# No wake-up is lost at quiescence

When no call is in progress, the lock is free, nothing is left to take over, and the oldest waiter
asks for more than there is. Finished waiters have been woken, unless the sequence number of a waker
went all the way round while `finish` was about to exchange it.
-/

namespace WeightedSemaphore

open Function (update update_self update_of_ne)
open Protocol (Inv)
open AtomicWaker (PollPc FinishPc)

namespace Protocol

variable {ι ω : Type} {a : State ι ω}

/-- Without a thread that owes something, no push and no cancellation is left to be seen. -/
theorem Inv.at_rest (hi : Inv a) (ho : a.owner = none) (hr : ∀ t, a.role t = .quiet) :
    a.pushed = [] ∧ a.cstack = [] ∧ (∀ x ∈ a.linked, a.life x = .queued) ∧
      ∃ r, a.rel = .unlocked r ∧
        ∀ x l, a.linked = x :: l → ∃ n, r = some n ∧ n < a.amount x := by
  obtain ⟨r, hrel⟩ := hi.lock.owner_none.mp ho
  have hlive (x : ω) : a.life x ≠ .cancelling := by
    intro hx
    obtain ⟨t, ht⟩ := hi.holds.held x hx
    simp [hr t, Role.holds] at ht
  have hqueued : ∀ x ∈ a.linked, a.life x = .queued := fun x hx =>
    (hi.linked_queue hx).resolve_right (hlive x)
  refine ⟨?_, ?_, hqueued, r, hrel, fun x l hl => ?_⟩
  · by_contra hpush
    rcases hi.duty.pushed hpush with ⟨t, p, k, ht⟩ | ⟨o, ho', -⟩ | ⟨p, hp⟩
    · cases (hr t).symm.trans ht
    · cases ho.symm.trans ho'
    · cases hrel.symm.trans hp
  · refine List.eq_nil_iff_forall_not_mem.mpr fun x hx => hlive x ?_
    exact hi.marked.life_mem x (by simp [State.marked, hx])
  · have hb := hi.blocked.unlocked r hrel
    simp only [State.Blocked, hl] at hb
    exact hb.resolve_left (hlive x)

end Protocol

section

variable [Usize] {ι : Type}

/-- The lock is free, and the permits do not suffice for the oldest waiter. Waiters are as old as
their position among the arrivals. -/
structure Sys.AtRest (s : Sys ι) : Prop where
  unlocked : ∃ r, s.sem.release.load = .unlocked r
  no_cancel : s.sem.nextCancel.load = null
  acquire : (∃ p, s.sem.acquire.load = .available p) ∨ s.sem.acquire.load = .queued null
  oldest : ∀ x, s.Waits x → s.sem.acquire.load = .queued null ∧ ∃ y r n, s.Waits y ∧
    (∀ z, s.Waits z → z ≠ y →
      [s.ghost.uid y, s.ghost.uid z].Sublist (History.arrivals s.ghost.hist)) ∧
    s.sem.release.load = .unlocked r ∧ r.intoUsize = some n ∧ n < s.mem.amount y

variable {s : Sys ι} {a : Protocol.State ι Ptr} {initial : ℕ}

theorem Represents.at_rest (hr : Represents s a) (hq : s.Quiescent) : s.AtRest := by
  obtain ⟨hs, hi, hhist⟩ := hr
  have hrole (t : ι) : a.role t = .quiet := (hs.view.role t).trans (Frame.role_idle (hq t))
  obtain ⟨hpush, hcstack, hqueued, r, hrel, hblocked⟩ := hi.at_rest (hs.owner_of_quiescent hq) hrole
  have hqueue : a.queue = a.linked := by simp [Protocol.State.queue, hpush]
  have hword : ∃ q, s.sem.release.load = .unlocked q ∧ q.intoUsize = r := by
    rw [hs.words.rel] at hrel
    cases hload : s.sem.release.load with
    | unlocked q =>
      rw [hload] at hrel
      exact ⟨q, rfl, Protocol.Rel.unlocked.inj hrel⟩
    | _ => simp [hload, ReleaseState.rel] at hrel
  have hback {p : Ptr} (hp : s.sem.acquire.load = .queued p) : p = null := by
    have hpath := hs.words.acq_pushed hp
    rw [hpush] at hpath
    exact hpath
  constructor
  case unlocked => exact hword.imp fun q hq => hq.1
  case no_cancel =>
    have hpath := hs.words.cstack
    rw [hcstack] at hpath
    exact hpath
  case acquire =>
    cases hload : s.sem.acquire.load with
    | available p => exact Or.inl ⟨p, rfl⟩
    | queued p => exact Or.inr (congrArg AcquireState.queued (hback hload))
  case oldest =>
    intro x hx
    have hmem {z : Ptr} (hz : s.Waits z) : z ∈ a.linked := by
      rw [← hqueue]
      rcases (hs.view.waits_iff hs.loc).mp hz with hz | hz
      · exact hi.queue.queued_mem z hz
      · obtain ⟨t, ht⟩ := hi.holds.held z hz
        simp [hrole t, Protocol.Role.holds] at ht
    obtain ⟨y, l, hl⟩ := List.exists_cons_of_ne_nil (List.ne_nil_of_mem (hmem hx))
    obtain ⟨n, hn, hlt⟩ := hblocked y l hl
    obtain ⟨q, hload, hq'⟩ := hword
    refine ⟨?_, y, q, n, ?_, fun z hz hzy => ?_, hload, hq'.trans hn, ?_⟩
    · cases hload : s.sem.acquire.load with
      | available p =>
        have hnil := hi.available.linked_nil _ (hs.words.acq_available hload)
        cases hl.symm.trans hnil
      | queued p => exact congrArg AcquireState.queued (hback hload)
    · refine (hs.view.waits_iff hs.loc).mpr (Or.inl (hqueued y ?_))
      simp [hl]
    · -- the pending waiters of the history are the queue, whose head is `y`
      have hzl : z ∈ l := (List.mem_cons.mp (hl ▸ hmem hz)).resolve_left hzy
      have hsub : [y, z].Sublist a.queue := by
        rw [hqueue, hl]
        exact (List.singleton_sublist.mpr hzl).cons_cons y
      have hpend := (hsub.map a.uid).trans (hhist.pending ▸ History.pending_sublist a.hist)
      rw [hs.view.uid, hs.view.hist] at hpend
      exact hpend
    · rwa [hs.view.amount] at hlt

variable [DecidableEq ι]

theorem Tracks.run (hrun : Runs.Steps Sys.next (fun s _ => s.Unwrapped)
    (Sys.init initial : Sys ι) s) : Tracks s := by
  refine hrun.invariant_reached (I := Tracks) (fun s act s' hs ht hwrap hn => ?_) (.init initial)
  obtain ⟨a, hr⟩ := Reachable.represents hs.reaches
  exact ht.next hr hwrap hn

omit [DecidableEq ι] in
/-- At rest, whoever was promised a wake-up has got it. -/
theorem Notified.woken {tokens : List TokenEvent} {x : Ptr} {u : ℕ} (hq : s.Quiescent)
    (h : Notified s.frames tokens x u) : Tokens.Woken u tokens := by
  rcases h with ⟨t, tok, pc, hf, -⟩ | ⟨t, r, ret, pop, tok, hf, -⟩ | hw
  · have := hq t
    simp [hf, Frame.isIdle] at this
  · have := hq t
    simp [hf, Frame.isIdle] at this
  · exact hw

/-- In every quiescent state the lock is free and the oldest waiter asks for more than there is.
Every finished waiter has been polled to completion, or its waker has been woken since its last
poll, in runs in which no sequence number goes all the way round during one attempt of `finish`. -/
theorem no_lost_wake_up (h : Reachable initial s) (hq : s.Quiescent) :
    s.AtRest ∧
      (Runs.Steps Sys.next (fun s _ => s.Unwrapped) (Sys.init initial) s →
        ∀ x ∈ s.live, ∀ p, (s.mem.waker x).kind = .finished p →
          s.mem.step x = .done ∨ Tokens.Woken (s.ghost.uid x) s.ghost.tokens) := by
  obtain ⟨a, hr⟩ := h.represents
  refine ⟨hr.at_rest hq, fun hrun x hx p hk => ?_⟩
  have ht := Tracks.run hrun
  have huser : s.user x = none := by
    cases hu : s.user x with
    | none => rfl
    | some t =>
      have huses := (hr.sim.loc.users t x).mpr hu
      cases hf : s.frames t with
      | idle ret => simp [hf, Frame.uses] at huses
      | _ =>
        have := hq t
        simp [hf, Frame.isIdle] at this
  have hrest := hr.sim.loc.resting x hx huser
  cases hst : s.mem.step x with
  | entering => cases (hrest.entering hst).symm.trans hk
  | waiting => exact Or.inr ((ht.finished x hx hst (hrest.waiting hst) p hk).woken hq)
  | done => exact Or.inl rfl

end

section Circle

variable [Usize] {ι : Type} [DecidableEq ι] {s s' : Sys ι} {t : ι} {x : Ptr} {n : ℕ}

/-- One more poll of a pending waiter. -/
theorem Sys.poll_again (hidle : (s.frames t).isIdle = true) (hx : x ∈ s.live)
    (hu : s.user x = none) (hst : s.mem.step x = .waiting)
    (hw : (s.mem.waker x).state.load = .pending (n % payload)) (hv : (s.mem.waker x).vtable ≠ 0) :
    Runs.exec Sys.next (.call t (.poll x) :: Act.steps t 7) s = some { s with
      frames := update s.frames t (.idle .pending)
      mem.waker := update s.mem.waker x
        ⟨s.ghost.nextTok, s.ghost.nextTok, .new (.pending (n + 1)), (s.mem.waker x).thread⟩
      ghost.nextTok := s.ghost.nextTok + 1
      ghost.tokens := .registered (s.ghost.uid x) s.ghost.nextTok ::
        .dropped (s.mem.waker x).data (s.mem.waker x).vtable :: s.ghost.tokens } := by
  have hc := Atomic.cmpxchgWeak_of_load hw (.storing (n % payload))
  have hn : Atomic.new (Waker.State.pending (n % payload + 1)) = .new (.pending (n + 1)) := by
    refine Atomic.ext_word ?_
    change shl (n % payload + 1) 3 ||| 0 = shl (n + 1) 3 ||| 0
    rw [shl_three, shl_three, Nat.mod_add_mod]
  simp [Act.steps, List.replicate, Runs.exec, Sys.next, hidle, Sys.call, hx, hu, hst, Sys.step,
    Sys.goto, Sys.setUser, Sys.pollWaiting, AtomicWaker.poll, hw, hc, Sys.runWaker, hv, hn,
    Sys.logToken, Atomic.cmpxchgWeak_new]

/-- Nothing but the waker of `x` has changed since `s`, which was registered again and again. -/
structure Sys.Circled (s : Sys ι) (t : ι) (x : Ptr) (n : ℕ) (s' : Sys ι) : Prop where
  frames : ∀ u, u ≠ t → s'.frames u = s.frames u
  idle : (s'.frames t).isIdle = true
  sem : s'.sem = s.sem
  live : s'.live = s.live
  user : s'.user = s.user
  step : s'.mem.step = s.mem.step
  next : s'.mem.next = s.mem.next
  uid : s'.ghost.uid = s.ghost.uid
  state : (s'.mem.waker x).state.load = .pending (n % payload)
  vtable : (s'.mem.waker x).vtable ≠ 0
  nextTok : s.ghost.nextTok ≤ s'.ghost.nextTok
  pos : 0 < s'.ghost.nextTok
  unwoken : ∀ tok, .woken tok tok ∉ s'.ghost.tokens

theorem Sys.Circled.again (h : s.Circled t x n s') (hx : x ∈ s.live) (hu : s.user x = none)
    (hst : s.mem.step x = .waiting) :
    ∃ u, Runs.Reaches Sys.next s' u ∧ s.Circled t x (n + 1) u ∧
      ∃ tok, s.ghost.nextTok ≤ tok ∧ Tokens.last (s.ghost.uid x) u.ghost.tokens = some tok := by
  have hexec := poll_again h.idle (by rwa [h.live]) (by rwa [h.user]) (by rwa [h.step]) h.state
    h.vtable
  refine ⟨_, Runs.reaches_of_exec hexec, ?_, s'.ghost.nextTok, h.nextTok, ?_⟩
  · have hpos := h.pos
    have hle := h.nextTok
    constructor
    case frames => exact fun u hut => (update_of_ne hut _ _).trans (h.frames u hut)
    case idle => simp [Frame.isIdle]
    case state => simp [Packable.canon, Waker.State.canon]
    case vtable =>
      simp only [update_self]
      omega
    case nextTok =>
      change _ ≤ s'.ghost.nextTok + 1
      omega
    case pos => exact Nat.succ_pos _
    case unwoken => simpa using h.unwoken
    all_goals first
      | exact h.sem
      | exact h.live
      | exact h.user
      | exact h.step
      | exact h.next
      | exact h.uid
  · simp [h.uid]

theorem Sys.Circled.run (h : s.Circled t x n s') (hx : x ∈ s.live) (hu : s.user x = none)
    (hst : s.mem.step x = .waiting) (k : ℕ) :
    ∃ u, Runs.Reaches Sys.next s' u ∧ s.Circled t x (n + (k + 1)) u ∧
      ∃ tok, s.ghost.nextTok ≤ tok ∧ Tokens.last (s.ghost.uid x) u.ghost.tokens = some tok := by
  induction k with
  | zero => exact h.again hx hu hst
  | succ k ih =>
    obtain ⟨u, hrun, hcircled, -⟩ := ih
    obtain ⟨v, hrun', hv⟩ := hcircled.again hx hu hst
    exact ⟨v, hrun.trans hrun', hv⟩

end Circle

namespace Tokens

/-- Only the waker registered last counts. -/
theorem Woken.last_mem {u tok : ℕ} {l : List TokenEvent} (h : Woken u l)
    (hl : last u l = some tok) : .woken tok tok ∈ l := by
  obtain ⟨tok', l₁, l₂, rfl, hn, hw⟩ := h
  have hlast : last u (l₁ ++ .registered u tok' :: l₂) = some tok' := by
    clear hl hw
    induction l₁ with
    | nil => exact last_registered
    | cons e l₁ ih =>
      have ih := ih fun tok ht => hn tok (List.mem_cons_of_mem _ ht)
      cases e with
      | registered v tok'' =>
        have hv : v ≠ u := by
          rintro rfl
          exact hn tok'' (by simp)
        exact (last_registered_of_ne hv).trans ih
      | _ => exact ih
  obtain rfl := Option.some.inj (hl.symm.trans hlast)
  exact List.mem_append_left _ hw

end Tokens

attribute [local instance] usize64

def relievedSchedule : List (Act Bool) :=
  [.acquire (usize64.ptr 0) 1, .call false (.poll (usize64.ptr 0))] ++ Act.steps false 20 ++
    [.acquire (usize64.ptr 1) 5, .call false (.poll (usize64.ptr 1))] ++ Act.steps false 20 ++
    [.call true (.release 2)] ++ Act.steps true 16

def relieved : Sys Bool := Runs.final Sys.next relievedSchedule (Sys.init 0) (by decide +kernel)

theorem Tokens.since_le (u : ℕ) (l : List TokenEvent) : Tokens.since u l ≤ l.length := by
  induction l with
  | nil => exact Nat.le_refl _
  | cons e l ih =>
    rw [List.length_cons]
    cases e with
    | observed v =>
      rw [since]
      split <;> omega
    | registered v tok =>
      rw [since]
      split <;> omega
    | _ => exact Nat.le_succ_of_le ih

theorem no_lost_wake_up_relieved :
    relieved.AtRest ∧ Tokens.Woken (relieved.ghost.uid (usize64.ptr 0)) relieved.ghost.tokens := by
  have hreach : Reachable 0 relieved := Runs.reaches_final _
  have hq : relieved.Quiescent := fun t => by cases t <;> rfl
  have hrun : Runs.Steps Sys.next (fun s _ => s.Unwrapped) (Sys.init 0) relieved := by
    have hsteps : Runs.Steps Sys.next (fun s act => ∀ t, s.next act = some t →
        decide (t.ghost.tokens.length < 32) = true) (Sys.init 0) relieved :=
      Runs.steps_of_checks (Runs.exec_final _) (by decide +kernel)
    have hbefore : Runs.Steps Sys.next (fun s _ => s.ghost.tokens.length < 32) (Sys.init 0)
        relieved :=
      Runs.Steps.before (by decide) (hsteps.mono fun s act h t ht => of_decide_eq_true (h t ht))
    refine hbefore.mono fun s act hlen t r ret pop current data vtable hf => ?_
    have := Tokens.since_le (s.ghost.uid pop.front) s.ghost.tokens
    have := payload_ge
    omega
  obtain ⟨hrest, hwoken⟩ := no_lost_wake_up hreach hq
  exact ⟨hrest, (hwoken hrun (usize64.ptr 0) (by decide +kernel) false
    (by decide +kernel)).resolve_left (by decide +kernel)⟩

def stalled : Sys Bool :=
  Runs.final Sys.next
    ([.acquire (usize64.ptr 0) 1, .call false (.poll (usize64.ptr 0))] ++ Act.steps false 20 ++
      [.call true (.release 1)] ++ Act.steps true 10)
    (Sys.init 0) (by decide +kernel)

/-- While the release is stalled, the waiter is polled until its sequence number has gone all the
way round. Then the waker that is woken is not the one registered last. -/
theorem stalled_wake_up_lost :
    ∃ s : Sys Bool, Reachable 0 s ∧ s.Quiescent ∧ usize64.ptr 0 ∈ s.live ∧
      (s.mem.waker (usize64.ptr 0)).kind = .finished false ∧
      s.mem.step (usize64.ptr 0) = .waiting ∧
      ¬ Tokens.Woken (s.ghost.uid (usize64.ptr 0)) s.ghost.tokens := by
  have hf : stalled.frames true = .release (Permits.new 1) .caller
      (.finish ⟨usize64.ptr 0, 1, null, some 1⟩ (.exchange (.pending 1) 1 1)) := rfl
  have hstep : stalled.mem.step (usize64.ptr 0) = .waiting := by decide +kernel
  have hlive : usize64.ptr 0 ∈ stalled.live := by decide +kernel
  have hstart : stalled.Circled false (usize64.ptr 0) 1 stalled := by
    constructor <;> first | exact fun _ _ => rfl | rfl | decide +kernel | skip
    have htok : stalled.ghost.tokens = [.observed 0, .registered 0 1] := by decide +kernel
    simp [htok]
  obtain ⟨s, hrun, hs, tok, htok, hlast⟩ := hstart.run hlive (by decide +kernel) hstep (payload - 1)
  have htwo : stalled.ghost.nextTok = 2 := by decide +kernel
  have hpay := payload_ge
  have hload : (s.mem.waker (usize64.ptr 0)).state.load = .pending 1 := by
    rw [hs.state, show 1 + (payload - 1 + 1) = 1 + payload by omega, Nat.add_mod_right,
      Nat.mod_eq_of_lt (by omega)]
  have hfs := (hs.frames true (by simp)).trans hf
  have hc := Atomic.cmpxchgWeak_of_load hload (.finished false)
  have hlocked : s.sem.release.load = .locked := by
    rw [hs.sem]
    decide +kernel
  have hunlock := Atomic.cmpxchgWeak_of_load hlocked (.unlocked (Permits.new 0))
  obtain ⟨u, hexec, hu⟩ : ∃ u, Runs.exec Sys.next (Act.steps true 6) s = some u ∧
      (u.frames = update s.frames true (.idle .unit) ∧ u.live = s.live ∧ u.mem.step = s.mem.step ∧
        (u.mem.waker (usize64.ptr 0)).state = .new (.finished false) ∧
        u.ghost.uid = s.ghost.uid ∧ u.ghost.tokens = .woken 1 1 :: s.ghost.tokens) := by
    simp [Act.steps, List.replicate, Runs.exec, Sys.next, Sys.step, hfs, Sys.release, Sys.finish,
      AtomicWaker.finish, hc, Sys.runWaker, Sys.goto, Sys.log, Sys.logToken, Sys.relink, Sys.tryPop,
      Sys.tryUnlock, hlocked, hunlock, Sys.afterRelease]
  obtain ⟨hframes, hulive, hustep, hustate, huid, htokens⟩ := hu
  refine ⟨u, (Runs.reaches_final _).trans (hrun.trans (Runs.reaches_of_exec hexec)),
    ?_, ?_, ?_, ?_, ?_⟩
  · intro t
    cases t with
    | true => rw [hframes, update_self]; rfl
    | false => rw [hframes, update_of_ne (by simp)]; exact hs.idle
  · rw [hulive, hs.live]
    exact hlive
  · rw [AtomicWaker.kind, hustate, Atomic.load_new]
    rfl
  · rw [hustep, hs.step]
    exact hstep
  · intro hw
    have hl : Tokens.last (u.ghost.uid (usize64.ptr 0)) u.ghost.tokens = some tok := by
      rw [huid, hs.uid, htokens]
      exact hlast
    have hmem := hw.last_mem hl
    rw [htokens] at hmem
    rcases List.mem_cons.mp hmem with he | hmem
    · obtain ⟨rfl, -⟩ := TokenEvent.woken.inj he
      omega
    · exact hs.unwoken tok hmem

end WeightedSemaphore
