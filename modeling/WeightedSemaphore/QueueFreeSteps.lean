import WeightedSemaphore.QueueFreeState

/-!
# Steps of queue-free calls

`try_acquire` reads the acquire word and may take permits from it. A release takes the lock or
defers; the lock owner adds its permits and unlocks, or takes over what was deferred meanwhile.
-/

namespace WeightedSemaphore

open Function (update update_self update_of_ne)
open Linear (answer state)

variable [Usize] {ι : Type} {s₀ : Tally} {g : Calls ι} {order batch dirty : List ℕ} {s s' : Sys ι}
  {a : Protocol.State ι Ptr} {t : ι} {f : Frame ι} {r : Permits} {ret : Cont} [DecidableEq ι]

section TryAcquire

variable (spurious : Bool) {n : ℕ} {pc : TryAcquirePc}

omit [DecidableEq ι] in
/-- Reading too few permits is the effect of a call that will fail. -/
theorem CounterOp.apply_fails {q : Permits}
    (hfits : ¬ (AcquireState.available q).Fits n) :
    (CounterOp.tryAcquire n).apply maxAvailable q.intoUsize =
      (q.intoUsize, if q.intoUsize = none then .poisoned else .wouldBlock) := by
  cases hq : q.intoUsize with
  | none => rfl
  | some m =>
    have hlt : ¬ n ≤ m := fun hle => hfits ⟨m, hq, hle⟩
    simp [apply, hlt]

theorem QueueFree.read (h : QueueFree s₀ s g order batch dirty)
    (hf : s.frames t = .tryAcquire n pc) (hnot : g.current t ∉ order) :
    ∃ order', QueueFree s₀ (s.goto t (.tryAcquire n (.loop s.sem.acquire.load))) g order' batch
      dirty := by
  have hbusy : (s.frames t).isIdle = false := by rw [hf]; rfl
  have htrace := h.frames t
  rw [hf] at htrace
  obtain ⟨hop, hrest, -⟩ := htrace
  obtain ⟨q, hq, hcount⟩ := h.counter
  by_cases hfits : s.sem.acquire.load.Fits n
  · exact ⟨order, h.still (f := .tryAcquire n (.loop s.sem.acquire.load)) hbusy rfl rfl rfl h.front
      h.cancels ⟨hop, hrest, fun _ => hnot, fun hn => absurd hfits hn⟩⟩
  have happly := CounterOp.apply_fails (n := n) (q := q) (by rwa [← hq])
  have hself :
      answer (CounterOp.apply maxAvailable) g.op s₀ (order ++ [g.current t]) (g.current t) =
      _ := Linear.answer_append_self hnot
  rw [← hcount, hop, happly] at hself
  have hstate : state (CounterOp.apply maxAvailable) g.op s₀ (order ++ [g.current t]) =
      q.intoUsize := by
    rw [Linear.state_append, ← hcount]
    simp only [state, List.foldl_cons, List.foldl_nil, hop, happly]
  refine ⟨order ++ [g.current t], h.step (f := .tryAcquire n (.loop s.sem.acquire.load)) hbusy rfl
    rfl rfl rfl (fun _ _ => rfl) ?_ ?_ ⟨q, hq, hstate.symm⟩ h.front h.cancels h.word ?_
    (fun _ => (h.active t hbusy).2) (by simp) (fun _ => Or.inr) fun _ _ _ => ⟨rfl, rfl⟩⟩
  · refine h.ordered.append (fun hm => ?_) (h.active t hbusy).1
    exact (List.mem_append.mp hm).elim hnot hrest
  · intro k hk ha
    rcases List.mem_append.mp hk with hk | hk
    · rw [Linear.answer_append hk] at ha
      exact h.taken k hk ha
    · rw [List.mem_singleton.mp hk, hself] at ha
      split_ifs at ha
  · refine ⟨hop, hrest, fun hv => absurd hv hfits, fun _ => ⟨?_, fun hp => ?_, fun hp => ?_⟩⟩
    · simp
    · rw [hq] at hp
      rw [hself]
      exact if_pos hp
    · rw [hq] at hp
      rw [hself]
      exact if_neg hp

theorem QueueFree.tryAcquire (h : QueueFree s₀ s g order batch dirty)
    (hf : s.frames t = .tryAcquire n pc) :
    ∃ order', QueueFree s₀ (s.tryAcquire t n spurious pc)
      (g.step t (s.frames t) ((s.tryAcquire t n spurious pc).frames t)) order' batch dirty := by
  have hbusy : (s.frames t).isIdle = false := by rw [hf]; rfl
  have htrace := h.frames t
  rw [hf] at htrace
  obtain ⟨hop, hrest, hpc⟩ := htrace
  have hread (hnot : g.current t ∉ order)
      (hs : s.tryAcquire t n spurious pc = s.goto t (.tryAcquire n (.loop s.sem.acquire.load))) :
      ∃ order', QueueFree s₀ (s.tryAcquire t n spurious pc)
        (g.step t (s.frames t) ((s.tryAcquire t n spurious pc).frames t)) order' batch dirty := by
    rw [hs, hf]
    simp only [Calls.step, Sys.goto, update_self]
    exact h.read hf hnot
  have hfinish {ret : Ret} (hk : g.current t ∈ order)
      (hret : answer (CounterOp.apply maxAvailable) g.op s₀ order (g.current t) = ret)
      (hs : s.tryAcquire t n spurious pc = s.goto t (.idle ret)) :
      ∃ order', QueueFree s₀ (s.tryAcquire t n spurious pc)
        (g.step t (s.frames t) ((s.tryAcquire t n spurious pc).frames t)) order' batch dirty := by
    rw [hs, hf]
    simp only [Calls.step, Sys.goto, update_self]
    exact ⟨order, h.finish hbusy rfl rfl h.front h.cancels h.word hk hret⟩
  cases pc with
  | load => exact hread hpc rfl
  | loop v =>
    obtain ⟨hfits, hfail⟩ := hpc
    cases v with
    | queued back =>
      obtain ⟨hk, -, hblock⟩ := hfail id
      exact hfinish hk (hblock id) rfl
    | available q =>
      cases hq : q.intoUsize with
      | none =>
        obtain ⟨hk, hpois, -⟩ := hfail (by rintro ⟨m, hm, -⟩; rw [hq] at hm; cases hm)
        exact hfinish hk (hpois hq) (by simp only [Sys.tryAcquire, hq])
      | some m =>
        by_cases hlt : m < n
        · have hnofit : ¬ (AcquireState.available q).Fits n := by
            rintro ⟨m', hm, hle⟩
            obtain rfl := Option.some.inj (hq.symm.trans hm)
            omega
          obtain ⟨hk, -, hblock⟩ := hfail hnofit
          refine hfinish hk (hblock fun hp => ?_) (by simp only [Sys.tryAcquire, hq, if_pos hlt])
          rw [AcquireState.Poisoned, hq] at hp
          cases hp
        have hnot := hfits ⟨m, hq, by omega⟩
        cases hx : s.sem.acquire.cmpxchgWeak (.available q) (.available (Permits.new (m - n)))
          spurious with
        | none => exact hread hnot (by simp only [Sys.tryAcquire, hq, if_neg hlt, hx])
        | some acquire =>
          obtain ⟨ha, rfl, -⟩ := Atomic.cmpxchgWeak_eq_some hx
          obtain ⟨q', hq', hcount⟩ := h.counter
          rw [ha, Atomic.load_new] at hq'
          obtain rfl : q.canon = q' := AcquireState.available.inj hq'
          rw [Permits.intoUsize_canon, hq] at hcount
          have happly : (CounterOp.tryAcquire n).apply maxAvailable (some m) =
              (some (m - n), .acquired) := if_pos (by omega)
          have hself : answer (CounterOp.apply maxAvailable) g.op s₀ (order ++ [g.current t])
              (g.current t) = _ := Linear.answer_append_self hnot
          rw [← hcount, hop, happly] at hself
          have hmem : g.current t ∈ order ++ [g.current t] := by simp
          have hnew : (Permits.new (m - n)).intoUsize = some (m - n) :=
            Permits.intoUsize_eq_some.mpr
              ⟨rfl, (Nat.sub_le m n).trans (Permits.intoUsize_eq_some.mp hq).2⟩
          have hord := (h.ordered.append (k := g.current t)
            (fun hm => (List.mem_append.mp hm).elim hnot hrest) (h.active t hbusy).1).finish hmem
            hself
          refine ⟨order ++ [g.current t], ?_⟩
          simp only [Sys.tryAcquire, hq, if_neg hlt, hx, hf, Calls.step, Sys.goto, update_self]
          refine h.step (f := .idle .acquired) hbusy rfl rfl rfl rfl
            (fun k hk => update_of_ne hk _ _)
            hord (Calls.taken_finish (fun k hk hkc hka => ?_) hself) ⟨(Permits.new (m - n)).canon,
              Atomic.load_new _, ?_⟩ h.front h.cancels h.word trivial (by simp [Frame.isIdle])
            (by simp) (fun _ => Or.inr) fun _ _ _ => ⟨rfl, rfl⟩
          · have hk := (List.mem_append.mp hk).resolve_right (by simpa using hkc)
            rw [Linear.answer_append hk] at hka
            exact h.taken k hk hka
          · rw [Permits.intoUsize_canon, hnew, Linear.state_append, ← hcount]
            simp only [state, List.foldl_cons, List.foldl_nil, hop, happly]

end TryAcquire

section Release

variable (spurious : Bool) {pc : ReleasePc ι}

omit [DecidableEq ι] in
theorem ReleasePc.Traces.holder (h : pc.Traces g order batch dirty t r) (hl : pc.locks = false) :
    g.holder = g.current t := by
  cases pc with
  | lockLoad => cases hl
  | lock current => cases hl
  | swapCancel => exact h.1
  | flipLoad nextCancel => exact h.2.1
  | flip nextCancel current => exact h.2.2.1
  | cancel nextCancel => exact h.2.1
  | tryPop => exact h.1
  | unlockLoad => exact h.1
  | unlock current => exact h.1
  | _ => exact h.elim

omit [DecidableEq ι] in
/-- The call that holds the lock is in progress. -/
theorem QueueFree.holder_active (h : QueueFree s₀ s g order batch dirty) (hr : Represents s a)
    (hword : ∀ p, s.sem.release.load ≠ .unlocked p) : g.ended g.holder = none := by
  obtain ⟨u, hu⟩ : ∃ u, (s.frames u).pastLock = true := by
    by_contra hno
    obtain ⟨p, hp⟩ := hr.unlocked_iff.mpr fun u => by
      by_contra hu
      exact hno ⟨u, by simpa using hu⟩
    exact hword p hp
  obtain ⟨r, ret, pc, hf, hl⟩ := Frame.pastLock_eq_true hu
  have htrace := h.frames u
  rw [hf] at htrace
  rw [htrace.2.2.holder hl]
  exact (h.active u (by rw [hf]; rfl)).2

omit [DecidableEq ι] in
/-- Nobody waits for a call that is over. -/
theorem QueueFree.hold (h : QueueFree s₀ s g order batch dirty) (hr : Represents s a)
    (hrest : batch ++ dirty ≠ []) : g.ended g.holder = none := by
  refine h.holder_active hr fun p hp => hrest ?_
  have hword := h.word
  rw [hp] at hword
  rw [hword.1, hword.2]
  rfl

theorem QueueFree.takeLock {avail : Permits} (h : QueueFree s₀ s g order batch dirty)
    (hr : Represents s a) (hf : s.frames t = .release r .caller pc) (hl : pc.locks = true)
    (hw : s.sem.release.load = .unlocked avail.canon)
    (hframes : s'.frames = update s.frames t (.release (r + avail) .caller .swapCancel))
    (hsem : s'.sem = { s.sem with release := .new .locked }) :
    QueueFree s₀ s' (g.lock t) order [g.current t] [] := by
  have hbusy : (s.frames t).isIdle = false := by rw [hf]; rfl
  have hword := h.word
  rw [hw] at hword
  obtain ⟨rfl, rfl⟩ := hword
  have htrace := h.frames t
  rw [hf] at htrace
  obtain ⟨-, hadds, hpc⟩ := htrace
  obtain ⟨hpermits, hnot⟩ : r.intoUsize = (g.op (g.current t)).permits maxAvailable ∧
      g.current t ∉ order := by
    cases pc with
    | lockLoad => exact ⟨hpc.1, fun hm => hpc.2 (List.mem_append_left _ hm)⟩
    | lock current => exact ⟨hpc.1, fun hm => hpc.2 (List.mem_append_left _ hm)⟩
    | _ => cases hl
  obtain ⟨q, hq, -⟩ := h.counter
  have hzero : avail.intoUsize = some 0 := by
    rw [← Permits.intoUsize_canon]
    exact hr.unlocked_zero hq hw
  have happend : order ++ [] = order := List.append_nil order
  have hord := h.ordered.lock hnot (h.active t hbusy).1 hadds
  rw [← happend]
  refine h.step (f := .release (r + avail) .caller .swapCancel) hbusy hframes rfl rfl rfl
    (fun _ _ => rfl) ?_ ?_ ?_ (by rw [hsem]; exact h.front) (by rw [hsem]; exact h.cancels) ?_ ?_
    (fun _ => (h.active t hbusy).2) (by simp) (by simp) fun u _ hu => ?_
  · rw [happend]
    exact hord
  · rw [happend]
    exact h.taken
  · rw [happend, hsem]
    exact h.counter
  · rw [hsem, Atomic.load_new, ReleaseState.traces_canon]
    rfl
  · refine ⟨rfl, hadds, rfl, ?_, by simp [Calls.lock]⟩
    rw [Permits.intoUsize_add, hzero, hpermits]
    rfl
  · rw [hr.unlocked_iff.mp ⟨_, hw⟩ u] at hu
    cases hu

theorem QueueFree.deferTo (h : QueueFree s₀ s g order batch dirty) (hr : Represents s a)
    (hf : s.frames t = .release r .caller pc) (hl : pc.locks = true)
    (hw : ∀ p, s.sem.release.load ≠ .unlocked p)
    (hframes : s'.frames = update s.frames t (.idle .unit)) {w : ReleaseState}
    (hsem : s'.sem = { s.sem with release := .new w })
    (hword : w.Traces g batch (dirty ++ [g.current t])) :
    QueueFree s₀ s' ((g.defer t).finish t .unit) order batch (dirty ++ [g.current t]) := by
  have hbusy : (s.frames t).isIdle = false := by rw [hf]; rfl
  have htrace := h.frames t
  rw [hf] at htrace
  obtain ⟨-, hadds, hpc⟩ := htrace
  have hnot : g.current t ∉ order ++ (batch ++ dirty) := by
    cases pc with
    | lockLoad => exact hpc.2
    | lock current => exact hpc.2
    | _ => cases hl
  have happend : order ++ [] = order := List.append_nil order
  rw [← happend]
  refine h.step (f := .idle .unit) hbusy hframes rfl rfl rfl (fun k hk => update_of_ne hk _ _) ?_ ?_
    ?_ (by rw [hsem]; exact h.front) (by rw [hsem]; exact h.cancels) ?_ trivial
    (by simp [Frame.isIdle]) (by simp) (fun k hk => ?_) fun _ _ _ => ⟨rfl, rfl⟩
  · rw [happend, ← List.append_assoc]
    exact h.ordered.defer hnot (h.active t hbusy).1 hadds (h.active t hbusy).2
      (h.holder_active hr hw)
  · rw [happend]
    intro k hk ha
    have hne : k ≠ (g.defer t).current t := by
      rintro rfl
      exact hnot (List.mem_append_left _ hk)
    rw [Calls.result_finish_of_ne hne]
    exact h.taken k hk ha
  · rw [happend, hsem]
    exact h.counter
  · rw [hsem, Atomic.load_new, ReleaseState.traces_canon]
    exact hword
  · rw [← List.append_assoc, List.mem_append, List.mem_singleton] at hk
    exact hk.symm

theorem QueueFree.lock {current : ReleaseState} (h : QueueFree s₀ s g order batch dirty)
    (hr : Represents s a) (hf : s.frames t = .release r .caller (.lock current)) :
    ∃ batch' dirty', QueueFree s₀ (s.lockOrElseDefer t r .caller spurious current)
      (g.step t (s.frames t) ((s.lockOrElseDefer t r .caller spurious current).frames t)) order
        batch' dirty' := by
  have hbusy : (s.frames t).isIdle = false := by rw [hf]; rfl
  have htrace := h.frames t
  rw [hf] at htrace
  obtain ⟨-, -, hpermits, -⟩ := htrace
  have again : QueueFree s₀ (s.goto t (.release r .caller (.lock s.sem.release.load))) g order batch
      dirty := by
    refine h.still (f := .release r .caller (.lock s.sem.release.load)) hbusy rfl rfl rfl h.front
      h.cancels ?_
    have htrace := h.frames t
    rw [hf] at htrace
    exact htrace
  have hword := h.word
  cases current with
  | unlocked avail =>
    cases hx : s.sem.release.cmpxchgWeak (.unlocked avail) .locked spurious with
    | none =>
      simp only [Sys.lockOrElseDefer, hx, hf, Calls.step, Sys.goto, update_self]
      exact ⟨batch, dirty, again⟩
    | some release =>
      obtain ⟨ha, rfl, -⟩ := Atomic.cmpxchgWeak_eq_some hx
      have hw : s.sem.release.load = .unlocked avail.canon := by
        rw [ha, Atomic.load_new]
        rfl
      simp only [Sys.lockOrElseDefer, hx, hf, Calls.step, Sys.goto, update_self]
      exact ⟨_, _, h.takeLock hr hf rfl hw rfl rfl⟩
  | locked =>
    cases hx : s.sem.release.cmpxchgWeak .locked (.lockedDirty r) spurious with
    | none =>
      simp only [Sys.lockOrElseDefer, hx, hf, Calls.step, Sys.goto, update_self]
      exact ⟨batch, dirty, again⟩
    | some release =>
      obtain ⟨ha, rfl, -⟩ := Atomic.cmpxchgWeak_eq_some hx
      have hw : s.sem.release.load = .locked := by
        rw [ha, Atomic.load_new]
        rfl
      rw [hw] at hword
      obtain rfl : dirty = [] := hword
      simp only [Sys.lockOrElseDefer, hx, hf, Calls.step, Sys.afterRelease, Sys.goto, update_self]
      refine ⟨_, _, h.deferTo hr hf rfl (by simp [hw]) rfl rfl ?_⟩
      exact hpermits.trans (CounterOp.pending_singleton _).symm
  | lockedDirty avail =>
    cases hx :
        s.sem.release.cmpxchgWeak (.lockedDirty avail) (.lockedDirty (avail + r)) spurious with
    | none =>
      simp only [Sys.lockOrElseDefer, hx, hf, Calls.step, Sys.goto, update_self]
      exact ⟨batch, dirty, again⟩
    | some release =>
      obtain ⟨ha, rfl, -⟩ := Atomic.cmpxchgWeak_eq_some hx
      have hw : s.sem.release.load = .lockedDirty avail.canon := by
        rw [ha, Atomic.load_new]
        rfl
      rw [hw] at hword
      simp only [ReleaseState.Traces, Permits.intoUsize_canon] at hword
      simp only [Sys.lockOrElseDefer, hx, hf, Calls.step, Sys.afterRelease, Sys.goto, update_self]
      refine ⟨_, _, h.deferTo hr hf rfl (by simp [hw]) rfl rfl ?_⟩
      simp only [ReleaseState.Traces]
      rw [Permits.intoUsize_add, hword, hpermits, CounterOp.pending_append,
        CounterOp.pending_singleton]

theorem QueueFree.flip {current : AcquireState} {nextCancel : Ptr}
    (h : QueueFree s₀ s g order batch dirty) (hr : Represents s a)
    (hf : s.frames t = .release r .caller (.flip nextCancel current)) :
    ∃ order' batch', QueueFree s₀ (s.flip t r .caller spurious nextCancel current)
      (g.step t (s.frames t) ((s.flip t r .caller spurious nextCancel current).frames t)) order'
        batch' dirty := by
  have hbusy : (s.frames t).isIdle = false := by rw [hf]; rfl
  have hlast : (s.frames t).pastLock = true := by rw [hf]; rfl
  have htrace := h.frames t
  rw [hf] at htrace
  obtain ⟨-, hadds, rfl, ⟨q, rfl⟩, hholder, hpermits, hmem⟩ := htrace
  obtain ⟨q', hq', hcount⟩ := h.counter
  cases hx : s.sem.acquire.cmpxchgWeak (.available q) (.available (q + r)) spurious with
  | none =>
    simp only [Sys.flip, hx, hf, Calls.step, Sys.goto, update_self]
    refine ⟨order, batch,
      h.still (f := .release r .caller (.flip null s.sem.acquire.load)) hbusy rfl
      rfl rfl h.front h.cancels ⟨rfl, hadds, rfl, ⟨q', hq'⟩, hholder, hpermits, hmem⟩⟩
  | some acquire =>
    obtain ⟨ha, rfl, -⟩ := Atomic.cmpxchgWeak_eq_some hx
    rw [ha, Atomic.load_new] at hq'
    obtain rfl : q.canon = q' := AcquireState.available.inj hq'
    rw [Permits.intoUsize_canon] at hcount
    have hbatch : ∀ k ∈ batch, (g.op k).Adds := fun k hk =>
      h.ordered.adds k (List.mem_append_left _ hk)
    refine ⟨order ++ batch, [], ?_⟩
    simp only [Sys.flip, hx, hf, h.front, if_true, Calls.step, Sys.goto, update_self]
    refine h.step (f := .release (Permits.new 0) .caller (.cancel null)) hbusy rfl rfl rfl rfl
      (fun _ _ => rfl) h.ordered.flip (fun k hk ha => ?_)
      ⟨(q + r).canon, Atomic.load_new _, ?_⟩ rfl h.cancels ?_ ?_
      (fun _ => (h.active t hbusy).2) (fun _ => Or.inr) (fun k hk => ?_) fun u hut hu => ?_
    · rcases List.mem_append.mp hk with hk | hk
      · rw [Linear.answer_append hk] at ha
        exact h.taken k hk ha
      · rw [Linear.answer, (hbatch k hk).apply] at ha
        cases ha
    · rw [Permits.intoUsize_canon, Permits.intoUsize_add, hcount, hpermits, Linear.state_append,
        CounterOp.state_of_adds hbatch]
      intro n hn
      rw [← hcount] at hn
      exact (Permits.intoUsize_eq_some.mp hn).2
    · have hword := h.word
      cases hw : s.sem.release.load with
      | unlocked p =>
        rw [hr.unlocked_iff.mp ⟨p, hw⟩ t] at hlast
        cases hlast
      | locked => rwa [hw] at hword
      | lockedDirty p => rwa [hw] at hword
    · exact ⟨rfl, hadds, rfl, hholder, rfl, rfl, hmem⟩
    · exact Or.inr (List.mem_append_right _ hk)
    · exact absurd (hr.pastLock_unique hu hlast) hut

/-- The lock owner unlocks, or takes over what was deferred to it. -/
theorem QueueFree.unlock {current : ReleaseState} (h : QueueFree s₀ s g order batch dirty)
    (hr : Represents s a) (hf : s.frames t = .release r .caller (.unlock current)) :
    ∃ batch' dirty', QueueFree s₀ (s.tryUnlock t r .caller spurious current)
      (g.step t (s.frames t) ((s.tryUnlock t r .caller spurious current).frames t)) order
        batch' dirty' := by
  have hbusy : (s.frames t).isIdle = false := by rw [hf]; rfl
  have hlast : (s.frames t).pastLock = true := by rw [hf]; rfl
  have htrace := h.frames t
  rw [hf] at htrace
  obtain ⟨-, hadds, hholder, hzero, rfl, hmem⟩ := htrace
  have again : QueueFree s₀ (s.goto t (.release r .caller (.unlock s.sem.release.load))) g order []
      dirty :=
    h.still (f := .release r .caller (.unlock s.sem.release.load)) hbusy rfl rfl rfl h.front
      h.cancels ⟨rfl, hadds, hholder, hzero, rfl, hmem⟩
  have hword := h.word
  cases current with
  | unlocked avail =>
    obtain ⟨o, -, -, -, -, -, hnot, -⟩ := hr.sim.owner_of hr.inv hf rfl
    exact absurd rfl (hnot avail)
  | locked =>
    cases hx : s.sem.release.cmpxchgWeak .locked (.unlocked r) spurious with
    | none =>
      simp only [Sys.tryUnlock, hx, hf, Calls.step, Sys.goto, update_self]
      exact ⟨[], dirty, again⟩
    | some release =>
      obtain ⟨ha, rfl, -⟩ := Atomic.cmpxchgWeak_eq_some hx
      have hw : s.sem.release.load = .locked := by
        rw [ha, Atomic.load_new]
        rfl
      rw [hw] at hword
      obtain rfl : dirty = [] := hword
      simp only [Sys.tryUnlock, hx, hf, Calls.step, Sys.afterRelease, Sys.goto, update_self]
      refine ⟨[], [], h.finish hbusy rfl rfl h.front h.cancels ?_ hmem ?_⟩
      · rw [Atomic.load_new, ReleaseState.traces_canon]
        exact ⟨rfl, rfl⟩
      · rw [Linear.answer, hadds.apply]
  | lockedDirty avail =>
    cases hx : s.sem.release.cmpxchgWeak (.lockedDirty avail) .locked spurious with
    | none =>
      simp only [Sys.tryUnlock, hx, hf, Calls.step, Sys.goto, update_self]
      exact ⟨[], dirty, again⟩
    | some release =>
      obtain ⟨ha, rfl, -⟩ := Atomic.cmpxchgWeak_eq_some hx
      have hw : s.sem.release.load = .lockedDirty avail.canon := by
        rw [ha, Atomic.load_new]
        rfl
      rw [hw] at hword
      simp only [ReleaseState.Traces, Permits.intoUsize_canon] at hword
      have happend : order ++ [] = order := List.append_nil order
      refine ⟨dirty, [], ?_⟩
      simp only [Sys.tryUnlock, hx, hf, Calls.step, Sys.goto, update_self]
      rw [← happend]
      refine h.step (f := .release (r + avail) .caller .swapCancel) hbusy rfl rfl rfl rfl
        (fun _ _ => rfl) ?_ ?_ ?_ h.front h.cancels ?_ ?_ (fun _ => (h.active t hbusy).2) (by simp)
        (fun k hk => Or.inr (by simpa using hk))
        fun u hut hu => absurd (hr.pastLock_unique hu hlast) hut
      · rw [happend, List.append_nil]
        exact h.ordered
      · rw [happend]
        exact h.taken
      · rw [happend]
        exact h.counter
      · rw [Atomic.load_new, ReleaseState.traces_canon]
        rfl
      · refine ⟨rfl, hadds, hholder, ?_, ?_⟩
        · rw [Permits.intoUsize_add, hzero, hword, CounterOp.zero_pending]
        · rw [happend]
          exact List.mem_append_left _ hmem

theorem QueueFree.release (h : QueueFree s₀ s g order batch dirty) (hr : Represents s a)
    (hf : s.frames t = .release r ret pc) :
    ∃ order' batch' dirty', QueueFree s₀ (s.release t r ret spurious pc)
      (g.step t (s.frames t) ((s.release t r ret spurious pc).frames t)) order' batch' dirty' := by
  have hbusy : (s.frames t).isIdle = false := by rw [hf]; rfl
  have htrace := h.frames t
  rw [hf] at htrace
  obtain ⟨rfl, hadds, hpc⟩ := htrace
  have go {f : Frame ι} (hs : s.release t r .caller spurious pc = s.goto t f)
      (hstep : g.step t (s.frames t) f = g) (hf' : f.Traces s₀ g order batch dirty t) :
      ∃ order' batch' dirty', QueueFree s₀ (s.release t r .caller spurious pc)
        (g.step t (s.frames t) ((s.release t r .caller spurious pc).frames t)) order' batch'
          dirty' := by
    rw [hs]
    simp only [Sys.goto, update_self, hstep]
    exact ⟨order, batch, dirty, h.still hbusy rfl rfl rfl h.front h.cancels hf'⟩
  cases pc with
  | lockLoad => exact go rfl (by rw [hf]; rfl) ⟨rfl, hadds, hpc⟩
  | lock current =>
    obtain ⟨batch', dirty', hq⟩ := h.lock spurious hr hf
    exact ⟨order, batch', dirty', hq⟩
  | swapCancel =>
    simp only [Sys.release, hf, Calls.step, Sys.goto, update_self]
    refine ⟨order, batch, dirty, h.still (f := .release r .caller (.flipLoad _)) hbusy rfl rfl rfl
      h.front (Atomic.load_new null) ⟨rfl, hadds, h.cancels, hpc⟩⟩
  | flipLoad nextCancel =>
    obtain ⟨q, hq, -⟩ := h.counter
    exact go rfl (by rw [hf]; rfl) ⟨rfl, hadds, hpc.1, ⟨q, hq⟩, hpc.2⟩
  | flip nextCancel current =>
    obtain ⟨order', batch', hq⟩ := h.flip spurious hr hf
    exact ⟨order', batch', dirty, hq⟩
  | cancel nextCancel =>
    refine go (f := .release r .caller .tryPop) ?_ (by rw [hf]; rfl) ⟨rfl, hadds, hpc.2⟩
    simp only [Sys.release, Sys.cancel, hpc.1, if_true]
  | tryPop =>
    refine go (f := .release r .caller .unlockLoad) ?_ (by rw [hf]; rfl) ⟨rfl, hadds, hpc⟩
    simp only [Sys.release, Sys.tryPop, h.front, if_true]
  | unlockLoad => exact go rfl (by rw [hf]; rfl) ⟨rfl, hadds, hpc⟩
  | unlock current =>
    obtain ⟨batch', dirty', hq⟩ := h.unlock spurious hr hf
    exact ⟨order, batch', dirty', hq⟩
  | _ => exact hpc.elim

end Release

section Run

theorem QueueFree.start {o : CounterOp} (h : QueueFree s₀ s g order batch dirty)
    (hr : Represents s a) (hframes : s'.frames = update s.frames t f)
    (hsem : s'.sem = s.sem) (hf : f.Traces s₀ (g.start t o) order batch dirty t) :
    QueueFree s₀ s' (g.start t o) order batch dirty := by
  have hlt := h.ordered.begun
  have hop : ∀ k < g.count, (g.start t o).op k = g.op k := fun k hk =>
    update_of_ne (Nat.ne_of_lt hk) _ _
  have hother {u : ι} (hu : u ≠ t) : (g.start t o).current u = g.current u := update_of_ne hu _ _
  have hself : (g.start t o).current t = g.count := update_self ..
  have horder : ∀ k ∈ order, (g.start t o).op k = g.op k := fun k hk =>
    hop k (hlt k (List.mem_append_left _ hk))
  have happend : order ++ [] = order := List.append_nil order
  constructor
  case ordered => exact h.ordered.start (h.hold hr) o
  case taken =>
    intro k hk ha
    rw [Linear.answer_congr horder (horder k hk)] at ha
    exact h.taken k hk ha
  case capped => exact h.capped
  case counter =>
    obtain ⟨q, hq, hcount⟩ := h.counter
    exact ⟨q, by rw [hsem]; exact hq, by rw [Linear.state_congr horder]; exact hcount⟩
  case front => rw [hsem]; exact h.front
  case cancels => rw [hsem]; exact h.cancels
  case word =>
    have hword := h.word
    rw [hsem]
    cases hw : s.sem.release.load with
    | unlocked p => rwa [hw] at hword
    | locked => rwa [hw] at hword
    | lockedDirty p =>
      rw [hw] at hword
      simp only [ReleaseState.Traces] at hword ⊢
      rw [hword]
      refine (CounterOp.pending_congr fun k hk => hop k (hlt k ?_)).symm
      exact List.mem_append_right _ (List.mem_append_right _ hk)
  case frames =>
    intro u
    by_cases hut : u = t
    · subst hut
      rw [hframes, update_self]
      exact hf
    · rw [hframes, update_of_ne hut, ← happend]
      have hu := h.frames u
      exact hu.other hlt (fun hb => (h.active u hb).1) (hother hut) hop (by simp)
        (fun hb hfree => hu.not_mem hb hfree) fun _ => ⟨rfl, rfl⟩
  case active =>
    intro u hu
    by_cases hut : u = t
    · rw [hut, hself]
      exact ⟨Nat.lt_succ_self _, (h.ordered.fresh g.count (le_refl _)).1⟩
    · rw [hframes, update_of_ne hut] at hu
      rw [hother hut]
      obtain ⟨hlt, hend⟩ := h.active u hu
      exact ⟨Nat.lt_succ_of_lt hlt, hend⟩
  case distinct =>
    intro u v hu hv he
    by_cases hut : u = t <;> by_cases hvt : v = t
    · rw [hut, hvt]
    · rw [hframes, update_of_ne hvt] at hv
      rw [hut, hself, hother hvt] at he
      have := (h.active v hv).1
      omega
    · rw [hframes, update_of_ne hut] at hu
      rw [hvt, hself, hother hut] at he
      have := (h.active u hu).1
      omega
    · rw [hframes, update_of_ne hut] at hu
      rw [hframes, update_of_ne hvt] at hv
      rw [hother hut, hother hvt] at he
      exact h.distinct u v hu hv he

omit [DecidableEq ι] in
theorem QueueFree.tick (h : QueueFree s₀ s g order batch dirty) :
    QueueFree s₀ s g.tick order batch dirty where
  ordered := h.ordered.tick
  taken := h.taken
  capped := h.capped
  counter := h.counter
  front := h.front
  cancels := h.cancels
  word := by
    have hword := h.word
    cases hw : s.sem.release.load <;> rw [hw] at hword <;> exact hword
  frames := fun t => (List.append_nil order) ▸ (h.frames t).other h.ordered.begun
    (fun hb => (h.active t hb).1) rfl (fun _ _ => rfl) (by simp) (h.frames t).not_mem
    fun _ => ⟨rfl, rfl⟩
  active := h.active
  distinct := h.distinct

omit [DecidableEq ι] in
theorem QueueFree.congr (h : QueueFree s₀ s g order batch dirty) (hframes : s'.frames = s.frames)
    (hsem : s'.sem = s.sem) : QueueFree s₀ s' g order batch dirty where
  ordered := h.ordered
  taken := h.taken
  capped := h.capped
  counter := hsem ▸ h.counter
  front := hsem ▸ h.front
  cancels := hsem ▸ h.cancels
  word := hsem ▸ h.word
  frames := hframes ▸ h.frames
  active := hframes ▸ h.active
  distinct := hframes ▸ h.distinct

theorem QueueFree.call {c : Call} (h : QueueFree s₀ s g order batch dirty) (hr : Represents s a)
    {o : CounterOp} (hc : c.counterOp = some o) (hn : s.call t c = some s') :
    QueueFree s₀ s' (g.start t o) order batch dirty := by
  have hself : (g.start t o).current t = g.count := update_self ..
  have hop : (g.start t o).op g.count = o := update_self ..
  have hnot : g.count ∉ order ++ (batch ++ dirty) := fun hm =>
    absurd (h.ordered.begun _ hm) (lt_irrefl _)
  cases c with
  | tryAcquire n =>
    obtain rfl := Option.some.inj hn
    refine h.start (f := .tryAcquire n .load) hr rfl rfl ⟨?_, ?_, ?_⟩
    · rw [hself, hop]
      exact (Option.some.inj hc).symm
    · rw [hself]
      exact fun hm => hnot (List.mem_append_right _ hm)
    · change (g.start t o).current t ∉ order
      rw [hself]
      exact fun hm => hnot (List.mem_append_left _ hm)
  | release n =>
    obtain rfl := Option.some.inj hn
    obtain rfl := Option.some.inj hc
    refine h.start (f := .release (Permits.new n) .caller .lockLoad) hr rfl rfl ⟨rfl, ?_, ?_, ?_⟩
    · rw [hself, hop]
      trivial
    · rw [hself, hop]
      exact Permits.intoUsize_new n
    · rwa [hself]
  | poison =>
    obtain rfl := Option.some.inj hn
    obtain rfl := Option.some.inj hc
    refine h.start (f := .release Permits.poison .caller .lockLoad) hr rfl rfl ⟨rfl, ?_, ?_, ?_⟩
    · rw [hself, hop]
      trivial
    · rw [hself, hop]
      exact Permits.intoUsize_poison
    · rwa [hself]
  | _ => cases hc

theorem QueueFree.next {act : Act ι} (h : QueueFree s₀ s g order batch dirty)
    (hr : Represents s a) (hfree : act.QueueFree = true) (hn : s.next act = some s') :
    ∃ order' batch' dirty', QueueFree s₀ s' (g.note s act s') order' batch' dirty' := by
  cases act with
  | call t c =>
    obtain ⟨o, ho⟩ := Option.isSome_iff_exists.mp hfree
    simp only [Sys.next] at hn
    split_ifs at hn
    simp only [Calls.note, ho]
    exact ⟨order, batch, dirty, (h.call hr ho hn).tick⟩
  | step t spurious =>
    have htrace := h.frames t
    simp only [Calls.note]
    cases hf : s.frames t with
    | idle ret => simp [Sys.next, Sys.step, hf] at hn
    | tryAcquire n pc =>
      rw [Sys.next_tryAcquire hf] at hn
      obtain rfl := Option.some.inj hn
      obtain ⟨order', hq⟩ := h.tryAcquire spurious hf
      rw [hf] at hq
      exact ⟨order', batch, dirty, hq.tick⟩
    | release r ret pc =>
      rw [Sys.next_release hf] at hn
      obtain rfl := Option.some.inj hn
      obtain ⟨order', batch', dirty', hq⟩ := h.release spurious hr hf
      rw [hf] at hq
      exact ⟨order', batch', dirty', hq.tick⟩
    | _ =>
      rw [hf] at htrace
      exact htrace.elim
  | acquire x n => cases hfree
  | forget i =>
    simp only [Sys.next, Sys.forget] at hn
    split at hn
    · cases hn
    · obtain rfl := Option.some.inj hn
      exact ⟨order, batch, dirty, h.tick.congr rfl rfl⟩
  | setPanicking t panicking =>
    simp only [Sys.next] at hn
    split_ifs at hn
    obtain rfl := Option.some.inj hn
    exact ⟨order, batch, dirty, h.tick.congr rfl rfl⟩

omit [DecidableEq ι] in
theorem QueueFree.init (initial : ℕ) :
    QueueFree (Tally.ofNat maxAvailable initial) (Sys.init initial : Sys ι) Calls.init
      [] [] [] where
  ordered := .init maxAvailable _
  taken := by simp
  capped := fun n hn => by
    obtain ⟨rfl, hle⟩ := Tally.ofNat_eq_some.mp hn
    exact hle
  counter := by
    refine ⟨(Permits.new initial).canon, Atomic.load_new _, ?_⟩
    rw [Permits.intoUsize_canon]
    rfl
  front := rfl
  cancels := Atomic.load_new null
  word := by
    change ReleaseState.Traces _ _ _ (Atomic.load (.new (.unlocked (Permits.new 0))))
    rw [Atomic.load_new, ReleaseState.traces_canon]
    exact ⟨rfl, rfl⟩
  frames := fun _ => trivial
  active := by simp [Sys.init, Frame.isIdle]
  distinct := by simp [Sys.init, Frame.isIdle]

end Run

end WeightedSemaphore
