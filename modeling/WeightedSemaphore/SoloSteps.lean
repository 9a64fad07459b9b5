import WeightedSemaphore.Solo

/-!
# The steps of sequential calls

While a thread is alone in a call, each of its steps performs the operation, and finishes the
waiter, that is noted of it.
-/

namespace WeightedSemaphore

open Function (update update_self update_of_ne)
open Protocol (Change)

variable [Usize] {ι : Type} [DecidableEq ι] {F A : Fifo ℕ} {os : List (ℕ × Bool)} {s s' : Sys ι}
  {a : Protocol.State ι Ptr} {who : Option ι} {t : ι} {act : Act ι} {spurious : Bool}

namespace Solo

theorem tryAcquire {n : ℕ} {pc : TryAcquirePc} (h : Solo F os s a A who)
    (hf : s.frames t = .tryAcquire n pc) (hn : s.next (.step t spurious) = some s') :
    s.Advances (.step t spurious) s' F os := by
  have hbusy : (s.frames t).isIdle = false := by rw [hf]; rfl
  have hroles := h.quiet hbusy (by rw [hf]; rfl)
  have hF : F = A.serve := by
    rw [h.serve_eq (h.others hbusy), hf]
    rfl
  have hn' := (Sys.next_tryAcquire hf).symm.trans hn
  obtain rfl := Option.some.inj hn'
  have go {f : Frame ι} (hs' : s.tryAcquire t n spurious pc = s.goto t f)
      (hcurrent : ∀ x v, f ≠ .pollEnter x (.loop v))
      (hret : ∀ r, f = .idle r → r ≠ .acquired ∧ r ≠ .ready ∧ r ≠ .readyErr)
      (hrole : f.role = .quiet) (hdue : f.due s.ghost.uid s.mem.amount = none) :
      s.Advances (.step t spurious) (s.tryAcquire t n spurious pc) F os := by
    rw [hs'] at hn ⊢
    refine h.inside hbusy (by simp [hf]) hn rfl rfl rfl rfl (fun _ => hrole)
      (fun x v he => absurd he (hcurrent x v)) hret ?_
    change F = ((f.due s.ghost.uid s.mem.amount).elim A _).serve
    rw [hdue, hF]
    rfl
  cases pc with
  | load => exact go rfl (by simp) (by simp) rfl rfl
  | loop current =>
    cases current with
    | queued back => exact go rfl (by simp) (by simp) rfl rfl
    | available q =>
      cases hq : q.intoUsize with
      | none =>
        exact go (f := .idle .poisoned) (by simp only [Sys.tryAcquire, hq]) (by simp) (by simp)
          rfl rfl
      | some m =>
        by_cases hlt : m < n
        · exact go (f := .idle .wouldBlock) (by simp only [Sys.tryAcquire, hq, if_pos hlt])
            (by simp)
            (by simp) rfl rfl
        cases hx : s.sem.acquire.cmpxchgWeak (.available q) (.available (Permits.new (m - n)))
          spurious with
        | none =>
          exact go (f := .tryAcquire n (.loop s.sem.acquire.load))
            (by simp only [Sys.tryAcquire, hq, if_neg hlt, hx]) (by simp) (by simp) rfl rfl
        | some acquire =>
          obtain ⟨hrep, rfl⟩ := h.represents.sim.words.acq_of_cmpxchgWeak hx
          simp only [Sys.tryAcquire, hq, if_neg hlt, hx] at hn ⊢
          obtain ⟨b, B, hb, hchange⟩ := h.next h.alone hn
          have hhist : b.hist = .fastPath n :: a.hist := by
            rw [hb.represents.sim.view.hist, h.represents.sim.view.hist]
            rfl
          obtain ⟨p, rfl, hp⟩ := hchange.logged hhist
          have hacq : a.acq = .available q.intoUsize := hrep
          obtain ⟨hpermits, -⟩ := h.toStands.available hroles hacq
          obtain ⟨rfl, hle⟩ := hp m (hpermits.trans hq)
          refine hb.solo (f := .idle .acquired) rfl (h.others hbusy) (by simp) ?_ ?_
          · simp only [Sys.op, hf, Sys.goto, update_self, Option.toList_some]
            change F.step maxAvailable (.take n) = Fifo.serve _
            rw [hF, Fifo.serve_of_settled (h.toStands.settled hroles).2.1, Fifo.step, Fifo.apply,
              hpermits, hq]
            rfl
          · simp only [Sys.done, hf, Sys.goto, update_self, Option.toList_none, List.append_nil]
            exact h.finished

section PollEnter

variable {x : Ptr} {pc : EnterPc}

theorem enter_due (h : Solo F os s a A who) (hf : s.frames t = .pollEnter x pc) :
    F = A.step maxAvailable (.enter (s.ghost.uid x) (s.mem.amount x)) := by
  rw [h.serve_eq (h.others (t := t) (by rw [hf]; rfl)), hf]
  rfl

theorem entering (h : Solo F os s a A who) (hf : s.frames t = .pollEnter x pc) :
    x ∈ s.live ∧ s.mem.step x = .entering ∧ a.life x = .entering := by
  have hsim := h.represents.sim
  obtain ⟨hlive, -⟩ := hsim.borrowed hf rfl
  obtain ⟨hstep, -⟩ := hsim.frame_ok hf
  exact ⟨hlive, hstep, (hsim.view.life x).trans (Sys.lifeOf_entering hlive hstep)⟩

theorem enter_later {pc' : EnterPc} (h : Solo F os s a A who) (hf : s.frames t = .pollEnter x pc)
    (hn : s.next (.step t spurious) = some s')
    (hframes : s'.frames = update s.frames t (.pollEnter x pc'))
    (hhist : s'.ghost.hist = s.ghost.hist) (hmem : s'.mem.step = s.mem.step)
    (hamount : s'.mem.amount = s.mem.amount) (huid : s'.ghost.uid = s.ghost.uid)
    (hclaim : s'.ghost.claimed = s.ghost.claimed)
    (hcurrent : ∀ v, pc' = .loop v → v = s'.sem.acquire.load) :
    s.Advances (.step t spurious) s' F os := by
  refine h.inside (by rw [hf]; rfl) (by simp [hf]) hn hframes hhist hmem hclaim (fun _ => rfl) ?_
    (by simp) ?_
  · intro y v he
    obtain ⟨-, rfl⟩ := Frame.pollEnter.inj he
    exact hcurrent v rfl
  · rw [huid, hamount]
    exact h.enter_due hf

/-- The semaphore is poisoned, and nobody waits. -/
theorem enter_poisoned (h : Solo F os s a A who) (hf : s.frames t = .pollEnter x pc)
    (hn : s.next (.step t spurious) = some s')
    (hframes : s'.frames = update s.frames t (.idle .readyErr))
    (hhist : s'.ghost.hist = s.ghost.hist) (hlive : s'.live = s.live)
    (hmem : s'.mem = { s.mem with step := update s.mem.step x .done })
    (hclaim : s'.ghost.claimed = s.ghost.claimed) (hpermits : A.permits = none)
    (hqueue : A.queue = []) : s.Advances (.step t spurious) s' F os := by
  have hbusy : (s.frames t).isIdle = false := by rw [hf]; rfl
  obtain ⟨hx, hstep, -⟩ := h.entering hf
  have hdone : ∀ y p, s.lifeOf y = .finished p → s'.lifeOf y ≠ .done := by
    intro y p hy
    have hyx : y ≠ x := by
      rintro rfl
      rw [Sys.lifeOf_entering hx hstep] at hy
      cases hy
    have hsame : s'.lifeOf y = s.lifeOf y := by
      refine Sys.lifeOf_congr (by rw [hlive]) ?_ (by rw [hclaim]) (by rw [hmem])
      rw [hmem]
      exact update_of_ne hyx _ _
    rw [hsame, hy]
    simp
  obtain ⟨b, hb⟩ := h.still h.alone hn (Or.inl hhist) hdone (role_update hframes fun _ => rfl)
  refine (hb.finish [(s.ghost.uid x, true)]).solo hframes (h.others hbusy) (by simp) ?_ ?_
  · have hop : s.op (.step t spurious) s' = none := by
      simp only [Sys.op, hf, hframes, update_self]
    rw [hop, Fifo.run_toList]
    change F = Fifo.serve _
    rw [h.enter_due hf, Fifo.enter_fail hqueue hpermits]
    refine (Fifo.serve_empty ?_).symm
    exact hqueue
  · simp only [Sys.done, hf, hframes, update_self, Option.toList_some]
    exact congrArg (· ++ _) h.finished

/-- Nobody waits, and the permits suffice. -/
theorem enter_fast {m : ℕ} (h : Solo F os s a A who) (hf : s.frames t = .pollEnter x pc)
    (hn : s.next (.step t spurious) = some s')
    (hframes : s'.frames = update s.frames t (.idle .ready))
    (hhist : s'.ghost.hist = .fastPath (s.mem.amount x) :: s.ghost.hist)
    (hpermits : A.permits = some m) (hle : s.mem.amount x ≤ m) (hqueue : A.queue = []) :
    s.Advances (.step t spurious) s' F os := by
  have hbusy : (s.frames t).isIdle = false := by rw [hf]; rfl
  have hv := h.represents.sim.view
  obtain ⟨-, -, hlife⟩ := h.entering hf
  have hgranted : A.granted (s.ghost.uid x) = none := by
    rw [← hv.uid, h.abstracts.granted.1 x (by simp [hlife]), if_neg (by simp [hlife])]
  obtain ⟨b, B, hb, hchange⟩ := h.next h.alone hn
  have hhist' : b.hist = .fastPath (s.mem.amount x) :: a.hist := by
    rw [hb.represents.sim.view.hist, hv.hist, hhist]
  obtain ⟨p, rfl, hp⟩ := hchange.logged hhist'
  obtain ⟨rfl, -⟩ := hp m hpermits
  refine (hb.finish [(s.ghost.uid x, false)]).solo hframes (h.others hbusy) (by simp) ?_ ?_
  · have hop : s.op (.step t spurious) s' = some (.claim (s.ghost.uid x)) := by
      simp only [Sys.op, hf, hframes, update_self]
    rw [hop, Fifo.run_toList]
    change F.step maxAvailable (.claim _) = Fifo.serve _
    rw [h.enter_due hf, Fifo.enter_claim hqueue hpermits hle hgranted]
    refine (Fifo.serve_empty ?_).symm
    exact hqueue
  · simp only [Sys.done, hf, hframes, update_self, Option.toList_some]
    exact congrArg (· ++ _) h.finished

/-- The waiter is pushed; what the acquire word offered is going to be released. -/
theorem enter_pushed {r : Permits} (h : Solo F os s a A who) (hf : s.frames t = .pollEnter x pc)
    (hn : s.next (.step t spurious) = some s')
    (hframes : s'.frames = update s.frames t (.release r (.pollEnter x) .lockLoad))
    (hhist : s'.ghost.hist = .installed (s.ghost.uid x) :: s.ghost.hist) :
    s.Advances (.step t spurious) s' F os := by
  have hbusy : (s.frames t).isIdle = false := by rw [hf]; rfl
  have hv := h.represents.sim.view
  obtain ⟨-, -, hlife⟩ := h.entering hf
  obtain ⟨b, B, hb, hchange⟩ := h.next h.alone hn
  have hhist' : b.hist = .installed (s.ghost.uid x) :: a.hist := by
    rw [hb.represents.sim.view.hist, hv.hist, hhist]
  obtain ⟨y, hy, hentering, rfl⟩ := hchange.logged hhist'
  obtain rfl : y = x := by
    refine h.represents.hist.uid_inj y x (by simp [hentering]) (by simp [hlife]) ?_
    rw [hy, hv.uid]
  refine hb.solo hframes (h.others hbusy) (by simp) ?_ ?_
  · have hop : s.op (.step t spurious) s' = none := by
      simp only [Sys.op, hf, hframes, update_self]
    rw [hop, Fifo.run_toList]
    change F = Fifo.serve (A.apply maxAvailable (.enter (s.ghost.uid y) (a.amount y)))
    rw [h.enter_due hf, hv.amount]
    rfl
  · simp only [Sys.done, hf, hframes, update_self, Option.toList_none, List.append_nil]
    exact h.finished

theorem pollEnter (h : Solo F os s a A who) (hf : s.frames t = .pollEnter x pc)
    (hn : s.next (.step t spurious) = some s') : s.Advances (.step t spurious) s' F os := by
  have hn' := (Sys.next_pollEnter hf).symm.trans hn
  obtain rfl := Option.some.inj hn'
  have again (hn : s.next (.step t spurious) =
      some (s.goto t (.pollEnter x (.loop s.sem.acquire.load)))) :=
    h.enter_later hf hn rfl rfl rfl rfl rfl rfl fun v hv => (EnterPc.loop.inj hv).symm
  cases pc with
  | load => exact again hn
  | loop current =>
    cases current with
    | queued back => exact h.enter_later hf hn rfl rfl rfl rfl rfl rfl (by simp)
    | available q =>
      -- the word was read after the call began, and nobody else has changed it
      have hq := h.current t x _ hf
      have hroles := h.quiet (t := t) (by rw [hf]; rfl) (by rw [hf]; rfl)
      obtain ⟨hpermits, hqueue⟩ :=
        h.toStands.available hroles (h.represents.sim.words.acq_available hq.symm)
      cases hav : q.intoUsize with
      | none =>
        simp only [Sys.pollEnter, hav] at hn ⊢
        exact h.enter_poisoned hf hn rfl rfl rfl rfl rfl (hpermits.trans hav) hqueue
      | some m =>
        by_cases hle : s.mem.amount x ≤ m
        · cases hx : s.sem.acquire.cmpxchgWeak (.available q)
            (.available (Permits.new (m - s.mem.amount x))) spurious with
          | none =>
            simp only [Sys.pollEnter, hav, if_pos hle, hx] at hn ⊢
            exact again hn
          | some acquire =>
            simp only [Sys.pollEnter, hav, if_pos hle, hx] at hn ⊢
            exact h.enter_fast hf hn rfl rfl (hpermits.trans hav) hle hqueue
        · simp only [Sys.pollEnter, hav, if_neg hle] at hn ⊢
          exact h.enter_later hf hn rfl rfl rfl rfl rfl rfl (by simp)
  | poll current available back tok pc =>
    cases hflow : ((s.mem.waker x).poll tok spurious pc).flow with
    | goto pc' =>
      simp only [Sys.pollEnter, hflow] at hn ⊢
      exact h.enter_later hf hn rfl rfl rfl rfl rfl rfl (by simp)
    | ret res =>
      cases res with
      | pending =>
        simp only [Sys.pollEnter, hflow] at hn ⊢
        exact h.enter_later hf hn rfl rfl rfl rfl rfl rfl (by simp)
      | ready p =>
        simp only [Sys.pollEnter, hflow] at hn
        exact absurd hn (h.not_panicked h.alone)
    | panic =>
      simp only [Sys.pollEnter, hflow] at hn
      exact absurd hn (h.not_panicked h.alone)
  | push current available back =>
    cases hx : s.sem.acquire.cmpxchgWeak current (.queued x) spurious with
    | none =>
      simp only [Sys.pollEnter, hx] at hn ⊢
      exact h.enter_later hf hn rfl rfl rfl rfl rfl rfl fun v hv => (EnterPc.loop.inj hv).symm
    | some acquire =>
      simp only [Sys.pollEnter, hx] at hn ⊢
      exact h.enter_pushed hf hn rfl rfl

end PollEnter

theorem pollWaiting {x : Ptr} {tok : ℕ} {pc : AtomicWaker.PollPc} (h : Solo F os s a A who)
    (hf : s.frames t = .pollWaiting x tok pc) (hn : s.next (.step t spurious) = some s') :
    s.Advances (.step t spurious) s' F os := by
  have hbusy : (s.frames t).isIdle = false := by rw [hf]; rfl
  have hroles := h.quiet hbusy (by rw [hf]; rfl)
  have hF : F = A.serve := by
    rw [h.serve_eq (h.others hbusy), hf]
    rfl
  have hsim := h.represents.sim
  have hv := hsim.view
  obtain ⟨hlive, -⟩ := hsim.borrowed hf rfl
  obtain ⟨hstep, hclaimed, hpc⟩ := hsim.frame_ok hf
  obtain ⟨-, hspec⟩ := AtomicWaker.poll_spec tok spurious hpc
  have hn' : some (s.pollWaiting t x tok spurious pc) = some s' := by
    rw [← hn]
    simp only [Sys.next, Sys.step, hf]
  obtain rfl := Option.some.inj hn'
  -- a finished waiter is claimed
  have claim {s' : Sys ι} {p : Bool} (hn : s.next (.step t spurious) = some s')
      (hkind : (s.mem.waker x).kind = .finished p) (hframes : s'.frames =
        update s.frames t (.idle (if p then .readyErr else .ready)))
      (hhist : s'.ghost.hist = s.ghost.hist) (hmem : s'.mem.step x = .done)
      (hlive' : s'.live = s.live) : s.Advances (.step t spurious) s' F os := by
    obtain ⟨b, B, hb, hchange⟩ := h.next h.alone hn
    have hv' := hb.represents.sim.view
    have hx : a.life x = .finished p :=
      (hv.life x).trans (Sys.lifeOf_kind hlive hstep hclaimed hkind)
    have hx' : b.life x = .done :=
      (hv'.life x).trans (Sys.lifeOf_done (by rw [hlive']; exact hlive) hmem)
    have hhist' : b.hist = a.hist := by rw [hv'.hist, hv.hist, hhist]
    have hB := hchange.claimed hhist' hx hx' fun u _ => by
      rw [hv'.role]
      exact role_update hframes (fun _ => rfl) u (hroles u)
    have hnone : s.done (.step t spurious) s' = none := by
      simp only [Sys.done, hf, hframes, update_self]
    refine hb.solo hframes (h.others hbusy) (by simp) ?_ ?_
    · change _ = B.serve
      rw [hB, hv.uid]
      cases p with
      | true =>
        have hgranted : A.granted (s.ghost.uid x) = none := by
          rw [← hv.uid, h.abstracts.granted.1 x (by simp [hx]), if_neg (by simp [hx])]
        have hop : s.op (.step t spurious) s' = none := by
          simp only [Sys.op, hf, hframes, update_self, if_true]
        rw [hop, Fifo.apply_claim hgranted]
        exact hF
      | false =>
        have hop : s.op (.step t spurious) s' = some (.claim (s.ghost.uid x)) := by
          simp only [Sys.op, hf, hframes, update_self, Bool.false_eq_true, if_false]
        rw [hop, hF, Fifo.serve_of_settled (h.toStands.settled hroles).2.1]
        rfl
    · rw [hB, hnone, Option.toList_none, List.append_nil]
      exact h.finished
  cases hflow : ((s.mem.waker x).poll tok spurious pc).flow with
  | goto pc' =>
    simp only [Sys.pollWaiting, hflow] at hn ⊢
    exact h.inside hbusy (by simp [hf]) hn rfl rfl rfl rfl (fun _ => rfl) (by simp) (by simp) hF
  | ret res =>
    rw [hflow] at hspec
    cases res with
    | pending =>
      simp only [Sys.pollWaiting, hflow] at hn ⊢
      exact h.inside hbusy (by simp [hf]) hn rfl rfl rfl rfl (fun _ => rfl) (by simp) (by simp) hF
    | ready p =>
      cases p with
      | true =>
        simp only [Sys.pollWaiting, hflow] at hn ⊢
        exact claim hn hspec.1 rfl rfl (update_self ..) rfl
      | false =>
        simp only [Sys.pollWaiting, hflow] at hn ⊢
        exact claim hn hspec.1 rfl rfl (update_self ..) rfl
  | panic =>
    simp only [Sys.pollWaiting, hflow] at hn
    exact absurd hn (h.not_panicked h.alone)

theorem release {r : Permits} {ret : Cont} {pc : ReleasePc ι} (h : Solo F os s a A who)
    (hf : s.frames t = .release r ret pc) (hn : s.next (.step t spurious) = some s') :
    s.Advances (.step t spurious) s' F os := by
  have hbusy : (s.frames t).isIdle = false := by rw [hf]; rfl
  have hF : F = A.serve := by
    rw [h.serve_eq (h.others hbusy), hf]
    rfl
  have hn' := (Sys.next_release hf).symm.trans hn
  obtain rfl := Option.some.inj hn'
  obtain ⟨f, hframes, hafter⟩ := Sys.release_next s t r ret spurious pc
  obtain ⟨b, B, hb, hchange⟩ := h.next h.alone hn
  have hv := h.represents.sim.view
  have hv' := hb.represents.sim.view
  have hrole : (s.frames t).role = .quiet → f.role = .quiet := by
    intro hq
    rw [hf] at hq
    simp only [Frame.role] at hq
    split_ifs at hq
  obtain ⟨hserve, ⟨os', hfin, hout⟩, -⟩ := hchange.during hv hv'
    (release_inside s t r ret spurious pc).toDuring (role_update hframes hrole)
  have hdone := release_done spurious hf
  rw [hv'.hist, hv.hist, hdone] at hout
  have hop : s.op (.step t spurious) (s.release t r ret spurious pc) = none := by
    simp only [Sys.op, hf]
  refine hb.solo hframes (h.others hbusy) ?_ ?_ ?_
  · rintro x v rfl
    exact hafter.elim
  · rw [hop, hafter.due]
    change F = B.serve
    rw [hserve, hF]
  · rw [hfin, h.finished, List.append_cancel_left hout]

theorem startCancel {x : Ptr} {pc : AtomicWaker.StartCancelPc} (h : Solo F os s a A who)
    (hf : s.frames t = .dropFuture x (.startCancel pc))
    (hn : s.next (.step t spurious) = some s') : s.Advances (.step t spurious) s' F os := by
  have hbusy : (s.frames t).isIdle = false := by rw [hf]; rfl
  have hroles := h.quiet hbusy (by rw [hf]; rfl)
  have hF : F = A.step maxAvailable (.drop (s.ghost.uid x)) := by
    rw [h.serve_eq (h.others hbusy), hf]
    rfl
  have hsim := h.represents.sim
  have hv := hsim.view
  obtain ⟨hlive, -⟩ := hsim.borrowed hf rfl
  obtain ⟨hstep, hclaimed, hpc⟩ := hsim.frame_ok hf
  have hspec := AtomicWaker.startCancel_spec spurious hpc
  have hlife {p : Bool} (hk : (s.mem.waker x).kind = .finished p) : a.life x = .finished p :=
    (hv.life x).trans (Sys.lifeOf_kind hlive hstep hclaimed hk)
  have hn' : s.dropFuture t x spurious (.startCancel pc) = some s' := by
    rw [← hn]
    simp only [Sys.next, Sys.step, hf]
  simp only [Sys.dropFuture] at hn'
  cases hflow : ((s.mem.waker x).startCancel t spurious pc).flow with
  | goto pc' =>
    rw [hflow] at hn'
    obtain rfl := Option.some.inj hn'
    exact h.inside hbusy (by simp [hf]) hn rfl rfl rfl rfl (fun _ => rfl) (by simp) (by simp) hF
  | ret res =>
    rw [hflow] at hspec hn'
    cases res with
    | cancelling =>
      obtain rfl := Option.some.inj hn'
      obtain ⟨b, B, hb, hchange⟩ := h.next h.alone hn
      have hhist : b.hist = .cancelling (s.ghost.uid x) :: a.hist := by
        rw [hb.represents.sim.view.hist, hv.hist]
        rfl
      obtain rfl := hchange.logged hhist
      refine hb.solo (f := .dropFuture x .loadCancel) rfl (h.others hbusy) (by simp) ?_ ?_
      · simp only [Sys.op, hf, Option.toList_none]
        exact hF
      · rw [Sys.done_step (by simp [Sys.goto]) (by simp [Sys.goto]) (by simp [hf]),
          Fifo.finished_apply, Option.toList_none, List.append_nil]
        exact h.finished
    | finished p =>
      cases p with
      | true =>
        obtain rfl := Option.some.inj hn'
        have hx := hlife hspec.1
        refine h.inside hbusy (by simp [hf]) hn rfl rfl rfl rfl (fun _ => rfl)
          (by simp) (by simp) ?_
        change F = A.serve
        rw [hF, Fifo.step, h.apply_drop (by simp [hx]) (by simp [hx]) (by simp [hx])]
      | false =>
        obtain rfl := Option.some.inj hn'
        obtain ⟨b, B, hb, hchange⟩ := h.next h.alone hn
        have hv' := hb.represents.sim.view
        have hx' : b.life x = .done :=
          (hv'.life x).trans (Sys.lifeOf_claimed hlive hstep (update_self ..))
        have hr' : b.role t ≠ .quiet := by
          rw [hv'.role]
          simp [Sys.goto, Frame.role, ReleasePc.locks]
        obtain rfl := hchange.gaveBack (by rw [hv'.hist, hv.hist]; rfl) (hlife hspec.1) hx'
          ((hv.role t).trans (hroles t)) hr'
        refine hb.solo (f := .release (Permits.new (s.mem.amount x)) (.gaveBack x) .lockLoad) rfl
          (h.others hbusy) (by simp) ?_ ?_
        · simp only [Sys.op, hf, Option.toList_none]
          rw [hv.uid]
          exact hF
        · rw [Sys.done_step (by simp [Sys.goto]) (by simp [Sys.goto]) (by simp [hf]),
            Fifo.finished_apply, Option.toList_none, List.append_nil]
          exact h.finished
  | panic =>
    rw [hflow] at hspec
    exact hspec.elim

theorem dropFuture {x : Ptr} {pc : DropPc} (h : Solo F os s a A who)
    (hf : s.frames t = .dropFuture x pc) (hn : s.next (.step t spurious) = some s') :
    s.Advances (.step t spurious) s' F os := by
  have hbusy : (s.frames t).isIdle = false := by rw [hf]; rfl
  have hn' : s.dropFuture t x spurious pc = some s' := by
    rw [← hn]
    simp only [Sys.next, Sys.step, hf]
  have go {f : Frame ι} (hdue : (s.frames t).due s.ghost.uid s.mem.amount = none)
      (hframes : s'.frames = update s.frames t f) (hhist : s'.ghost.hist = s.ghost.hist)
      (hmem : s'.mem.step = s.mem.step) (hclaim : s'.ghost.claimed = s.ghost.claimed)
      (hrole : (s.frames t).role = .quiet → f.role = .quiet) (hdrops : f.Drops x)
      (hdue' : f.due s'.ghost.uid s'.mem.amount = none) :
      s.Advances (.step t spurious) s' F os := by
    have hF := h.serve_eq (h.others hbusy)
    rw [hdue] at hF
    refine h.inside hbusy (by simp [hf]) hn hframes hhist hmem hclaim hrole ?_ ?_ ?_
    · rintro y v rfl
      exact hdrops.elim
    · rintro r rfl
      cases r with
      | unit => simp
      | _ => exact hdrops.elim
    · rw [hdue']
      exact hF
  have hdue (hpc : ∀ pc', pc ≠ .startCancel pc') :
      (s.frames t).due s.ghost.uid s.mem.amount = none := by
    rw [hf]
    cases pc with
    | startCancel pc => exact absurd rfl (hpc pc)
    | _ => rfl
  cases pc with
  | startCancel pc => exact h.startCancel hf hn
  | loadCancel =>
    obtain rfl := Option.some.inj hn'
    exact go (hdue (by simp)) rfl rfl rfl rfl (by simp [hf, Frame.role]) rfl rfl
  | pushCancel current =>
    simp only [Sys.dropFuture] at hn'
    split at hn' <;> obtain rfl := Option.some.inj hn'
    · exact go (hdue (by simp)) rfl rfl rfl rfl (by simp [hf, Frame.role]) (Or.inl rfl) rfl
    · exact go (hdue (by simp)) rfl rfl rfl rfl (by simp [hf, Frame.role]) rfl rfl
  | waitCancel pc =>
    cases pc with
    | load =>
      simp only [Sys.dropFuture] at hn'
      split at hn' <;> obtain rfl := Option.some.inj hn'
      · exact go (hdue (by simp)) rfl rfl rfl rfl (by simp [hf, Frame.role]) rfl rfl
      · exact go (hdue (by simp)) rfl rfl rfl rfl (by simp [hf, Frame.role]) rfl rfl
      · exact absurd hn (h.not_panicked h.alone)
    | park =>
      simp only [Sys.dropFuture] at hn'
      split_ifs at hn'
      obtain rfl := Option.some.inj hn'
      exact go (hdue (by simp)) rfl rfl rfl rfl (by simp [hf, Frame.role]) rfl rfl
  | waker =>
    simp only [Sys.dropFuture] at hn'
    split at hn' <;> obtain rfl := Option.some.inj hn'
    · exact absurd hn (h.not_panicked h.alone)
    · exact go (hdue (by simp)) rfl rfl rfl rfl (fun _ => rfl) trivial rfl

/-- Between calls, nothing is due and nobody can be served. -/
theorem eq_of_quiescent (h : Solo F os s a A who) (hq : s.Quiescent) : F = A := by
  have hdue : s.due who = none := by
    cases who with
    | none => rfl
    | some t => exact Frame.due_idle (hq t)
  rw [h.serve, hdue]
  exact Fifo.serve_of_settled (h.toStands.settled fun t => Frame.role_idle (hq t)).2.1

theorem startRelease {c : Call} {r : Permits} {op : Fifo.Op ℕ} (h : Solo F os s a A who)
    (hq : s.Quiescent) (hn : s.next (.call t c) = some s')
    (hframes : s'.frames = update s.frames t (.release r .caller .lockLoad))
    (hop : s.op (.call t c) s' = some op)
    (hB : ∀ b B, Stands s' b B → Change maxAvailable a b A B → B = A.apply maxAvailable op) :
    s.Advances (.call t c) s' F os := by
  obtain ⟨b, B, hb, hchange⟩ := h.next h.alone hn
  obtain rfl := hB b B hb hchange
  refine hb.solo hframes (fun u _ => hq u) (by simp) ?_ ?_
  · rw [hop, h.eq_of_quiescent hq]
    rfl
  · rw [Fifo.finished_apply]
    exact h.finished.trans (List.append_nil os).symm

theorem call {c : Call} (h : Solo F os s a A who) (hq : s.Quiescent)
    (hn : s.next (.call t c) = some s') : s.Advances (.call t c) s' F os := by
  have hF := h.eq_of_quiescent hq
  have hsettled := (h.toStands.settled fun t => Frame.role_idle (hq t)).2.1
  have hv := h.represents.sim.view
  have hquiet (u : ι) : a.role u = .quiet := (hv.role u).trans (Frame.role_idle (hq u))
  have hn' : s.call t c = some s' := by
    rw [← hn]
    simp only [Sys.next, hq t, if_true]
  have go {s' : Sys ι} {f : Frame ι} (hn : s.next (.call t c) = some s')
      (hframes : s'.frames = update s.frames t f) (hhist : s'.ghost.hist = s.ghost.hist)
      (hmem : s'.mem.step = s.mem.step) (hclaim : s'.ghost.claimed = s.ghost.claimed)
      (hrole : f.role = .quiet) (hcurrent : ∀ x v, f ≠ .pollEnter x (.loop v))
      (hserve : F.run maxAvailable (s.op (.call t c) s').toList =
        ((f.due s'.ghost.uid s'.mem.amount).elim A (A.apply maxAvailable)).serve) :
      s.Advances (.call t c) s' F os :=
    h.go (fun u _ => hq u) hn hframes (Or.inl hhist) (Sys.not_done hmem hclaim) (fun _ => hrole)
      (fun x v he => absurd he (hcurrent x v)) hserve rfl
  have hnone : F = A.serve := by rw [hF, Fifo.serve_of_settled hsettled]
  cases c with
  | poll x =>
    simp only [Sys.call] at hn'
    split_ifs at hn'
    cases hst : s.mem.step x <;> rw [hst] at hn' <;> obtain rfl := Option.some.inj hn'
    · refine go hn rfl rfl rfl rfl rfl (by simp) ?_
      simp only [Sys.op, hst, Option.toList_some]
      rw [hF]
      rfl
    · refine go hn rfl rfl rfl rfl rfl (by simp) ?_
      simp only [Sys.op, hst, Option.toList_none]
      exact hnone
    · refine go hn rfl rfl rfl rfl rfl (by simp) ?_
      simp only [Sys.op, hst, Option.toList_none]
      exact hnone
  | dropFuture x =>
    simp only [Sys.call] at hn'
    split_ifs at hn' with hlive
    have hnothing {l : Protocol.Life} (hx : s.lifeOf x = l) (hl : l = .entering ∨ l = .done) :
        F.step maxAvailable (.drop (s.ghost.uid x)) = A.serve := by
      have hlife : a.life x = l := (hv.life x).trans hx
      rw [hF, Fifo.step]
      rcases hl with rfl | rfl
      all_goals rw [h.apply_drop (by simp [hlife]) (by simp [hlife]) (by simp [hlife])]
    cases hst : s.mem.step x <;> rw [hst] at hn' <;> obtain rfl := Option.some.inj hn'
    · exact go hn rfl rfl rfl rfl rfl (by simp)
        (hnothing (Sys.lifeOf_entering hlive.1 hst) (Or.inl rfl))
    · refine go hn rfl rfl rfl rfl rfl (by simp) ?_
      rw [hF]
      rfl
    · exact go hn rfl rfl rfl rfl rfl (by simp)
        (hnothing (Sys.lifeOf_done hlive.1 hst) (Or.inr rfl))
  | tryAcquire n =>
    obtain rfl := Option.some.inj hn'
    exact go hn rfl rfl rfl rfl rfl (by simp) hnone
  | release n =>
    obtain rfl := Option.some.inj hn'
    refine h.startRelease hq hn rfl rfl fun b B hb hchange => ?_
    exact hchange.logged (e := .released n) (by rw [hb.represents.sim.view.hist, hv.hist]; rfl)
  | poison =>
    obtain rfl := Option.some.inj hn'
    refine h.startRelease hq hn rfl rfl fun b B hb hchange => ?_
    exact hchange.logged (e := .poison) (by rw [hb.represents.sim.view.hist, hv.hist]; rfl)
  | dropGuard i =>
    simp only [Sys.call] at hn'
    cases hg : s.guards[i]? with
    | none => simp [hg] at hn'
    | some guard =>
      simp only [hg] at hn'
      split_ifs at hn' with hpanic <;> obtain rfl := Option.some.inj hn'
      · refine h.startRelease hq hn rfl (by simp only [Sys.op, hg, if_pos hpanic]; rfl)
          fun b B hb hchange => ?_
        exact hchange.logged (e := .poison) (by rw [hb.represents.sim.view.hist, hv.hist]; rfl)
      · refine h.startRelease hq hn rfl (by simp only [Sys.op, hg, if_neg hpanic]; rfl)
          fun b B hb hchange => ?_
        have hv' := hb.represents.sim.view
        have hrole (u : ι) : b.role u =
            update a.role t (.releasing (Tally.ofNat maxAvailable guard.amount) none) u := by
          rw [hv'.role]
          by_cases hut : u = t
          · subst hut
            simp [Sys.startRelease, Sys.goto, Frame.role, ReleasePc.locks, Cont.after,
              Permits.intoUsize_new]
          · simp only [Sys.startRelease, Sys.goto, update_of_ne hut]
            exact (hv.role u).symm
        refine hchange.released (t := t) (by rw [hv'.hist, hv.hist]; rfl) (fun x p hx => ?_)
          (hquiet t) (by rw [hrole, update_self]) fun u hut hu => by rwa [hrole, update_of_ne hut]
        rw [hv.life] at hx
        rw [hv'.life]
        exact Sys.not_done rfl rfl x p hx

theorem between (h : Solo F os s a A who) (hq : s.Quiescent) (hn : s.next act = some s')
    (hframes : s'.frames = s.frames)
    (hhist : s'.ghost.hist = s.ghost.hist ∨
      ∃ e, s'.ghost.hist = e :: s.ghost.hist ∧ e.Silent)
    (hdone : ∀ x p, s.lifeOf x = .finished p → s'.lifeOf x ≠ .done)
    (hop : s.op act s' = none) (hnone : s.done act s' = none) : s.Advances act s' F os := by
  obtain ⟨b, hb⟩ := h.still h.alone hn hhist hdone fun u hu => by rwa [hframes]
  refine ⟨b, A, none, hb, fun u _ => ?_, fun u x v hu => ?_, ?_, ?_⟩
  · rw [hframes]
    exact hq u
  · have hidle := hq u
    rw [← hframes, hu] at hidle
    cases hidle
  · rw [hop, h.eq_of_quiescent hq]
    exact (Fifo.serve_of_settled (h.toStands.settled fun t => Frame.role_idle (hq t)).2.1).symm
  · rw [hnone, h.finished, Option.toList_none, List.append_nil]

/-- One action of sequential calls is what is noted of it. -/
theorem advance (h : Solo F os s a A who) (hseq : s.Sequential act) (hn : s.next act = some s') :
    s.Advances act s' F os := by
  cases act with
  | call t c => exact h.call hseq hn
  | step t spurious =>
    cases hf : s.frames t with
    | idle ret => simp [Sys.next, Sys.step, hf] at hn
    | panicked => simp [Sys.next, Sys.step, hf] at hn
    | tryAcquire n pc => exact h.tryAcquire hf hn
    | pollEnter x pc => exact h.pollEnter hf hn
    | pollWaiting x tok pc => exact h.pollWaiting hf hn
    | release r ret pc => exact h.release hf hn
    | dropFuture x pc => exact h.dropFuture hf hn
  | acquire x n =>
    have hn' := hn
    simp only [Sys.next, Sys.acquire] at hn'
    split_ifs at hn' with hx
    obtain rfl := Option.some.inj hn'
    refine h.between hseq hn rfl (Or.inl rfl) (fun y p hy => ?_) rfl rfl
    have hyx : y ≠ x := by
      rintro rfl
      rw [Sys.lifeOf_absent hx.1] at hy
      cases hy
    intro hd
    have hsame : s.lifeOf y = .done := by
      refine (Sys.lifeOf_congr ?_ ?_ ?_ ?_).symm.trans hd
      · exact Finset.mem_insert.trans (or_iff_right hyx)
      · exact update_of_ne hyx _ _
      · exact update_of_ne hyx _ _
      · exact congrArg (fun w : AtomicWaker ι => w.kind.life) (update_of_ne hyx _ _)
    rw [hsame] at hy
    cases hy
  | forget i =>
    have hn' := hn
    simp only [Sys.next, Sys.forget] at hn'
    split at hn'
    · cases hn'
    · obtain rfl := Option.some.inj hn'
      exact h.between hseq hn rfl (Or.inr ⟨_, rfl, trivial⟩) (Sys.not_done rfl rfl) rfl rfl
  | setPanicking t panicking =>
    have hn' := hn
    simp only [Sys.next] at hn'
    split_ifs at hn'
    obtain rfl := Option.some.inj hn'
    exact h.between hseq hn rfl (Or.inl rfl) (Sys.not_done rfl rfl) rfl rfl

end Solo

end WeightedSemaphore
