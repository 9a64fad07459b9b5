import WeightedSemaphore.SimulationLocal

/-!
# Steps that change little

Most steps change one frame, or one frame and one word. `View`, `Words` and `Pass` survive changes
of what they do not read, and `Sim.goto` is the case where nothing but a frame changes.
-/

namespace WeightedSemaphore

open Function (update)
open Protocol (Life Acq Rel Phase Owner Role Inv)
open Waker (Kind)
open Links

variable [Usize] {ι : Type} {s s' : Sys ι} {a b : Protocol.State ι Ptr} {t u : ι} {f : Frame ι}
  {x y : Ptr}

section Life

theorem Sys.lifeOf_congr (hlive : x ∈ s'.live ↔ x ∈ s.live) (hstep : s'.mem.step x = s.mem.step x)
    (hclaim : s'.ghost.claimed x = s.ghost.claimed x)
    (hk : (s'.mem.waker x).kind.life = (s.mem.waker x).kind.life) : s'.lifeOf x = s.lifeOf x := by
  simp only [lifeOf, hlive, hstep, hclaim, hk]

theorem Sys.lifeOf_entering (hl : x ∈ s.live) (hs : s.mem.step x = .entering) :
    s.lifeOf x = .entering := by
  simp [lifeOf, hl, hs]

theorem Sys.lifeOf_done (hl : x ∈ s.live) (hs : s.mem.step x = .done) : s.lifeOf x = .done := by
  simp [lifeOf, hl, hs]

theorem Sys.lifeOf_waiting (hl : x ∈ s.live) (hs : s.mem.step x = .waiting)
    (hc : s.ghost.claimed x = false) : s.lifeOf x = (s.mem.waker x).kind.life := by
  simp [lifeOf, hl, hs, hc]

theorem Sys.lifeOf_kind (hl : x ∈ s.live) (hs : s.mem.step x = .waiting)
    (hc : s.ghost.claimed x = false) {k : Kind} (hk : (s.mem.waker x).kind = k) :
    s.lifeOf x = k.life :=
  hk ▸ lifeOf_waiting hl hs hc

theorem Sys.lifeOf_claimed (hl : x ∈ s.live) (hs : s.mem.step x = .waiting)
    (hc : s.ghost.claimed x = true) : s.lifeOf x = .done := by
  simp [lifeOf, hl, hs, hc]

theorem Sys.lifeOf_absent (hl : x ∉ s.live) : s.lifeOf x = .absent := if_neg hl

/-- A waiter that waits in the queue, or cancels, is live, waiting and unclaimed. -/
theorem Sys.lifeOf_reachable {l : Life} (h : s.lifeOf x = l)
    (hl : l = .queued ∨ l = .cancelling ∨ l = .cancelled ∨ ∃ p, l = .finished p) :
    x ∈ s.live ∧ s.mem.step x = .waiting ∧ s.ghost.claimed x = false ∧
      (s.mem.waker x).kind.life = l := by
  subst h
  unfold lifeOf at hl ⊢
  split at hl
  · next hx =>
    cases hst : s.mem.step x <;> cases hc : s.ghost.claimed x <;> simp_all
  · simp at hl

omit [Usize] in
theorem Waker.Kind.life_eq_queued {k : Kind} (h : k.life = .queued) :
    k = .pending ∨ k = .storing := by
  cases k <;> simp [life] at h ⊢

omit [Usize] in
theorem Waker.Kind.life_eq_cancelling {k : Kind} (h : k.life = .cancelling) : k = .cancelling := by
  cases k <;> simp [life] at h ⊢

theorem View.life_update (h : View s a) {l : Life}
    (hother : ∀ y ≠ x, s'.lifeOf y = s.lifeOf y) (hx : s'.lifeOf x = l) (y : Ptr) :
    update a.life x l y = s'.lifeOf y := by
  by_cases hy : y = x
  · subst hy; simp [hx]
  · rw [Function.update_of_ne hy, hother y hy, h.life]

end Life

section Roles

variable [DecidableEq ι]

theorem View.role_same (h : View s a) (hrole : f.role = (s.frames t).role) (u : ι) :
    a.role u = (update s.frames t f u).role := by
  by_cases hu : u = t
  · subst hu; rw [Function.update_self, hrole, h.role]
  · rw [Function.update_of_ne hu, h.role]

theorem View.role_update (h : View s a) (u : ι) :
    update a.role t f.role u = (update s.frames t f u).role := by
  by_cases hu : u = t
  · subst hu; simp
  · rw [Function.update_of_ne hu, Function.update_of_ne hu, h.role]

structure SameView (s s' : Sys ι) : Prop where
  step : s'.mem.step = s.mem.step
  waker : s'.mem.waker = s.mem.waker
  amount : s'.mem.amount = s.mem.amount
  live : s'.live = s.live
  claimed : s'.ghost.claimed = s.ghost.claimed
  uid : s'.ghost.uid = s.ghost.uid
  nextUid : s'.ghost.nextUid = s.ghost.nextUid
  guards : s'.guards = s.guards
  hist : s'.ghost.hist = s.ghost.hist

omit [DecidableEq ι] in
theorem SameView.lifeOf (h : SameView s s') (x : Ptr) : s'.lifeOf x = s.lifeOf x :=
  Sys.lifeOf_congr (by rw [h.live]) (by rw [h.step]) (by rw [h.claimed]) (by rw [h.waker])

theorem View.goto (h : View s a) (hs : SameView s s') (hframes : s'.frames = update s.frames t f)
    (hrole : f.role = (s.frames t).role) : View s' a where
  life x := (h.life x).trans (hs.lifeOf x).symm
  role u := by rw [hframes]; exact h.role_same hrole u
  amount := h.amount.trans hs.amount.symm
  live := h.live.trans hs.live.symm
  uid := h.uid.trans hs.uid.symm
  nextUid := h.nextUid.trans hs.nextUid.symm
  held := by rw [hs.guards]; exact h.held
  hist := h.hist.trans hs.hist.symm

end Roles

section Structure

variable {sem sem' : Semaphore} {mem mem' : Waiters ι} {life life' : Ptr → Life}
  {linked : List Ptr} {o : Owner ι Ptr}

theorem LinkedOk.congr (h : LinkedOk sem mem linked) (hf : sem'.front = sem.front)
    (hm : sem'.middle = sem.middle)
    (hl : ∀ x ∈ linked, mem'.next x = mem.next x ∧ mem'.prev x = mem.prev x) :
    LinkedOk sem' mem' linked := by
  unfold LinkedOk
  rw [hf, hm]
  exact Queue.congr h hl

theorem WalkOk.congr {back waiter : Ptr} (h : WalkOk sem mem back waiter linked)
    (hf : sem'.front = sem.front) (hm : sem'.middle = sem.middle)
    (hl : ∀ x ∈ linked, mem'.next x = mem.next x ∧ mem'.prev x = mem.prev x) :
    WalkOk sem' mem' back waiter linked := by
  obtain ⟨old, rest, done, rfl, hq, hne, hp, hn, hs, hb⟩ := h
  refine ⟨old, rest, done, rfl, ?_, hne, ?_, ?_, hs.congr fun x hx => hl x (by simp [hx]), hb⟩
  · rw [hf, hm]
    exact hq.congr fun x hx => hl x (by simp [hx])
  · rw [(hl waiter (by simp)).2]
    exact hp.congr fun x hx => (hl x (by simp [hx])).2
  · rw [(hl waiter (by simp)).1]
    exact hn

theorem PoppedOk.congr {pop : Pop} (h : PoppedOk sem mem pop linked)
    (hm : sem'.middle = sem.middle)
    (hl : ∀ x ∈ linked, mem'.next x = mem.next x ∧ mem'.prev x = mem.prev x) :
    PoppedOk sem' mem' pop linked :=
  ⟨h.1, h.2.1.congr hl, by rw [hm]; exact h.2.2⟩

theorem Pop.Ok.congr {pop : Pop} {r : Tally} (h : pop.Ok mem linked r)
    (hl : ∀ x ∈ linked, mem'.next x = mem.next x ∧ mem'.prev x = mem.prev x)
    (ha : ∀ x ∈ linked, mem'.amount x = mem.amount x) : pop.Ok mem' linked r := by
  obtain ⟨⟨rest, rfl⟩, h₁, h₂, h₃, h₄⟩ := h
  have hn := (hl pop.front (by simp)).1
  have ham := ha pop.front (by simp)
  exact ⟨⟨rest, rfl⟩, by rw [ham]; exact h₁, by rw [hn]; exact h₂, h₃, by rw [ham]; exact h₄⟩

theorem ReleasePc.Ok.congr {pc : ReleasePc ι} (h : pc.Ok sem mem life linked o)
    (hf : sem'.front = sem.front) (hm : sem'.middle = sem.middle)
    (hl : ∀ x ∈ linked, mem'.next x = mem.next x ∧ mem'.prev x = mem.prev x)
    (ha : ∀ x ∈ linked, mem'.amount x = mem.amount x)
    (ht : ∀ x ∈ o.taken, mem'.nextCancel x = mem.nextCancel x)
    (hlife : ∀ x ∈ linked, life x = .cancelling → life' x = .cancelling) :
    pc.Ok sem' mem' life' linked o := by
  cases pc with
  | lockLoad => exact h
  | lock current => exact h
  | swapCancel => exact ⟨h.1, h.2.congr hf hm hl⟩
  | flipLoad nextCancel => exact ⟨h.1, h.2.1.congr ht, h.2.2.congr hf hm hl⟩
  | flip nextCancel current =>
    refine ⟨?_, h.2.1.congr ht, h.2.2.congr hf hm hl⟩
    rw [hf]
    exact h.1
  | walk nextCancel back waiter => exact ⟨h.1, h.2.1.congr ht, h.2.2.congr hf hm hl⟩
  | cancel nextCancel => exact ⟨h.1, h.2.1.congr ht, h.2.2.congr hf hm hl⟩
  | accept waker nextCancel pc =>
    cases pc with
    | load => exact ⟨h.1, h.2.1, h.2.2.1.congr ht, h.2.2.2.congr hf hm hl⟩
    | exchange current => exact ⟨h.1, h.2.1, h.2.2.1.congr ht, h.2.2.2.congr hf hm hl⟩
    | unpark thread => exact ⟨h.1, h.2.1.congr ht, h.2.2.congr hf hm hl⟩
  | tryPop => exact ⟨h.1, h.2.congr hf hm hl⟩
  | finish pop pc =>
    obtain ⟨h₁, h₂, h₃, h₄, h₅⟩ := h
    obtain ⟨rest, hrest⟩ := h₃.1
    exact ⟨h₁, h₂.congr hf hm hl, h₃.congr hl ha, h₄, fun hpc =>
      hlife _ (by rw [hrest]; simp) (h₅ hpc)⟩
  | wake pop data vtable => exact ⟨h.1, h.2.congr hm hl⟩
  | relink pop => exact ⟨h.1, h.2.congr hm hl⟩
  | unlockLoad => exact ⟨h.1, h.2.congr hf hm hl⟩
  | unlock current => exact ⟨h.1, h.2.1, h.2.2.congr hf hm hl⟩

/-- Steps of threads that are not the lock owner. -/
theorem Pass.other (h : Pass s a) (ho : b.owner = a.owner) (hlinked : b.linked = a.linked)
    (hframe : ∀ o, a.owner = some o → s'.frames o.thread = s.frames o.thread)
    (hf : s'.sem.front = s.sem.front) (hm : s'.sem.middle = s.sem.middle)
    (hl : ∀ x ∈ a.linked, s'.mem.next x = s.mem.next x ∧ s'.mem.prev x = s.mem.prev x)
    (ha : ∀ x ∈ a.linked, s'.mem.amount x = s.mem.amount x)
    (ht : ∀ o, a.owner = some o → ∀ x ∈ o.taken, s'.mem.nextCancel x = s.mem.nextCancel x)
    (hlife : ∀ x ∈ a.linked, a.life x = .cancelling → b.life x = .cancelling) : Pass s' b where
  free hn := by
    rw [hlinked]
    exact (h.free (ho ▸ hn)).congr hf hm hl
  owned o ho' := by
    rw [ho] at ho'
    obtain ⟨r, ret, pc, hfr, hr, hpc⟩ := h.owned o ho'
    rw [hframe o ho', hlinked]
    exact ⟨r, ret, pc, hfr, hr, hpc.congr hf hm hl ha (ht o ho') hlife⟩

theorem Words.congr (h : Words sem mem a) (hacq : sem'.acquire = sem.acquire)
    (hrel : sem'.release = sem.release) (hcs : sem'.nextCancel = sem.nextCancel)
    (hbacq : b.acq = a.acq) (hbrel : b.rel = a.rel) (hbcs : b.cstack = a.cstack)
    (hp : ∀ x ∈ a.pushed, mem'.next x = mem.next x ∧ mem'.prev x = mem.prev x)
    (hc : ∀ x ∈ a.cstack, mem'.nextCancel x = mem.nextCancel x) : Words sem' mem' b where
  acq := by
    have ha := h.acq
    rw [hacq, hbacq]
    cases hl : sem.acquire.load with
    | available q => rw [hl] at ha; exact ha
    | queued back =>
      rw [hl] at ha
      obtain ⟨pushed, hq, hpath, hnull⟩ := ha
      have hpushed : a.pushed = pushed := by simp [Protocol.State.pushed, hq]
      rw [hpushed] at hp
      exact ⟨pushed, hq, hpath.congr fun x hx => (hp x hx).2, fun x hx =>
        (hp x hx).1.trans (hnull x hx)⟩
  rel := by rw [hrel, hbrel]; exact h.rel
  cstack := by rw [hcs, hbcs]; exact h.cstack.congr hc

end Structure

namespace Sim

/-- The lock owner is in `release`, past its lock. -/
theorem owner_role (hs : Sim s a) {o : Owner ι Ptr} (ho : a.owner = some o) :
    ∃ r ret pc, s.frames o.thread = .release r ret pc ∧ pc.locks = false ∧
      o.releasable = r.intoUsize ∧ pc.Ok s.sem s.mem a.life a.linked o := by
  obtain ⟨r, ret, pc, hf, hr, hpc⟩ := hs.pass.owned o ho
  refine ⟨r, ret, pc, hf, ?_, hr, hpc⟩
  cases pc <;> first | rfl | exact absurd hpc (by simp [ReleasePc.Ok])

theorem not_owner (hs : Sim s a) (hf : s.frames t = f) (hr : ∀ k, f.role ≠ .owning k)
    {o : Owner ι Ptr} (ho : a.owner = some o) : o.thread ≠ t := by
  rintro rfl
  obtain ⟨r, ret, pc, hf', hl, -⟩ := hs.owner_role ho
  rw [hf] at hf'
  subst hf'
  exact hr ret.after (by simp [Frame.role, hl])

theorem owner_of (hs : Sim s a) (hi : Inv a) {r : Permits} {ret : Cont} {pc : ReleasePc ι}
    (hf : s.frames t = .release r ret pc) (hl : pc.locks = false) :
    ∃ o, a.owner = some o ∧ o.thread = t ∧ a.role t = .owning ret.after ∧
      o.releasable = r.intoUsize ∧ pc.Ok s.sem s.mem a.life a.linked o := by
  have hrole : a.role t = .owning ret.after := by
    rw [hs.view.role, hf]
    simp [Frame.role, hl]
  obtain ⟨o, ho, rfl⟩ := hi.lock.role_owner t _ hrole
  obtain ⟨r', ret', pc', hf', -, hr, hpc⟩ := hs.owner_role ho
  rw [hf] at hf'
  cases hf'
  exact ⟨o, ho, rfl, hrole, hr, hpc⟩

theorem borrowed (hs : Sim s a) (hf : s.frames t = f) (hu : f.uses = some x) :
    x ∈ s.live ∧ s.user x = some t := by
  have := (hs.loc.users t x).mp (by rw [hf, hu])
  exact ⟨hs.loc.user_live t x this, this⟩

theorem frame_ok (hs : Sim s a) (hf : s.frames t = f) : f.Ok s.mem s.ghost.claimed t :=
  hf ▸ hs.loc.ok t

/-- Waiters outside of the queue are none of the lock owner's business. -/
theorem not_mem_queue (hi : Inv a) (h₁ : a.life x ≠ .queued) (h₂ : a.life x ≠ .cancelling) :
    x ∉ a.linked ∧ x ∉ a.pushed := by
  have hq := hi.queue.not_mem h₁ h₂
  simp only [Protocol.State.queue, List.mem_append, List.mem_reverse, not_or] at hq
  exact hq

variable [DecidableEq ι]

/-- Nothing but one frame, and what the protocol does not see, changes. -/
theorem goto (hs : Sim s a) (hframes : s'.frames = update s.frames t f) (hsem : s'.sem = s.sem)
    (hmem : s'.mem = s.mem) (huser : s'.user = s.user) (hsv : SameView s s')
    (huses : f.uses = (s.frames t).uses) (hrole : f.role = (s.frames t).role)
    (hok : f.Ok s.mem s.ghost.claimed t)
    (hpass : ∀ o, a.owner = some o → o.thread = t →
      OwnerFrame s.sem s.mem a.life a.linked o f) : Sim s' a where
  view := hs.view.goto hsv hframes hrole
  words := by rw [hsem, hmem]; exact hs.words
  pass := by
    refine ⟨by rw [hsem, hmem]; exact hs.pass.free, fun o ho => ?_⟩
    rw [hsem, hmem, hframes]
    by_cases hot : o.thread = t
    · rw [hot, Function.update_self]
      exact hpass o ho hot
    · rw [Function.update_of_ne hot]
      exact hs.pass.owned o ho
  loc := hs.loc.goto hframes huser hsv.live huses hsv.step hsv.amount hsv.waker hsv.claimed
    (fun _ _ _ => by rw [hmem]) hok

/-- A thread works on the waker of the future it borrows, to no one else's notice. -/
theorem own_waker (hs : Sim s a) (hx : (s.frames t).uses = some x)
    (hframes : s'.frames = update s.frames t f) (hsem : s'.sem = s.sem) {w : AtomicWaker ι}
    (hmem : s'.mem = { s.mem with waker := update s.mem.waker x w })
    (huser : s'.user = s.user) (hlive : s'.live = s.live)
    (hclaim : s'.ghost.claimed = s.ghost.claimed) (huid : s'.ghost.uid = s.ghost.uid)
    (hnext : s'.ghost.nextUid = s.ghost.nextUid) (hguards : s'.guards = s.guards)
    (hhist : s'.ghost.hist = s.ghost.hist) (huses : f.uses = some x)
    (hrole : f.role = (s.frames t).role) (hr : ∀ k, f.role ≠ .owning k)
    (hlife : s.mem.step x = .waiting → w.kind.life = (s.mem.waker x).kind.life)
    (hok : f.Ok s'.mem s.ghost.claimed t)
    (hfin : s.ghost.claimed x = true → ∃ p, w.kind = .finished p)
    (hthread : w.kind = .cancelling → w.thread = some t) : Sim s' a := by
  have hxt : s.user x = some t := (hs.loc.users t x).mp hx
  have hat {y : Ptr} (hy : s.user y = some t) : y = x := by
    have := (hs.loc.users t y).mpr hy
    exact Option.some.inj (this.symm.trans hx)
  have hwx : s'.mem.waker x = w := by rw [hmem]; exact Function.update_self ..
  have hwy {y : Ptr} (hy : y ≠ x) : s'.mem.waker y = s.mem.waker y := by
    rw [hmem]; exact Function.update_of_ne hy ..
  have hlifeOf (y : Ptr) : s'.lifeOf y = s.lifeOf y := by
    by_cases hy : y = x
    · subst hy
      unfold Sys.lifeOf
      rw [hlive, hclaim, hwx, hmem]
      dsimp only
      split
      · cases hst : s.mem.step y with
        | waiting => simp only [hlife hst]
        | _ => rfl
      · rfl
    · exact Sys.lifeOf_congr (by rw [hlive]) (by rw [hmem]) (by rw [hclaim]) (by rw [hwy hy])
  refine ⟨?_, ?_, ?_, ?_⟩
  · exact ⟨fun y => (hs.view.life y).trans (hlifeOf y).symm,
      fun u => by rw [hframes]; exact hs.view.role_same hrole u,
      by rw [hmem]; exact hs.view.amount, by rw [hlive]; exact hs.view.live,
      by rw [huid]; exact hs.view.uid, by rw [hnext]; exact hs.view.nextUid,
      by rw [hguards]; exact hs.view.held, by rw [hhist]; exact hs.view.hist⟩
  · rw [hsem, hmem]
    exact hs.words.congr rfl rfl rfl rfl rfl rfl (fun _ _ => ⟨rfl, rfl⟩) fun _ _ => rfl
  · refine hs.pass.other rfl rfl (fun o ho => ?_) (by rw [hsem]) (by rw [hsem])
      (fun _ _ => by rw [hmem]; exact ⟨rfl, rfl⟩) (fun _ _ => by rw [hmem])
      (fun _ _ _ _ => by rw [hmem]) fun _ _ h => h
    rw [hframes]
    exact Function.update_of_ne (hs.not_owner rfl (fun k => hrole ▸ hr k) ho) _ _
  · refine hs.loc.keep hframes huser hlive (huses.trans hx.symm) (fun y hy => ?_)
      (by rw [hclaim]; exact hok) (fun y hy hst => ?_) (fun y hy hc => ?_) fun y hy hk => ?_
    · have hyx : y ≠ x := by rintro rfl; exact hy hxt
      exact ⟨by rw [hmem], by rw [hmem], hwy hyx, by rw [hclaim]⟩
    · rw [hmem] at hst ⊢
      exact hs.loc.next_null y hy hst
    · obtain rfl := hat hy
      rw [hwx]
      exact hfin (hclaim ▸ hc)
    · obtain rfl := hat hy
      rw [hwx] at hk ⊢
      exact hthread hk

/-- As `goto`, for threads that are not the lock owner. -/
theorem goto_free (hs : Sim s a) (hframes : s'.frames = update s.frames t f)
    (hsem : s'.sem = s.sem) (hmem : s'.mem = s.mem) (huser : s'.user = s.user)
    (hsv : SameView s s') (huses : f.uses = (s.frames t).uses)
    (hrole : f.role = (s.frames t).role) (hr : ∀ k, f.role ≠ .owning k)
    (hok : f.Ok s.mem s.ghost.claimed t) : Sim s' a :=
  hs.goto hframes hsem hmem huser hsv huses hrole hok fun _ ho hot =>
    absurd hot (hs.not_owner rfl (fun k => hrole ▸ hr k) ho)

end Sim

theorem SameView.goto [DecidableEq ι] : SameView s (s.goto t f) :=
  ⟨rfl, rfl, rfl, rfl, rfl, rfl, rfl, rfl, rfl⟩

namespace Words

variable {sem : Semaphore} {mem : Waiters ι} {spurious : Bool}

theorem rep_new {next prev : Ptr → Ptr} {acq : Acq Ptr} {v : AcquireState}
    (h : v.Rep next prev acq) : (Atomic.load (.new v)).Rep next prev acq := by
  rw [Atomic.load_new]
  exact (AcquireState.rep_canon v).mpr h

theorem rel_new (v : ReleaseState) : v.rel = (Atomic.load (.new v)).rel := by
  rw [Atomic.load_new, ReleaseState.rel_canon]

/-- A successful exchange saw the words that the protocol's state stands for. -/
theorem acq_of_cmpxchgWeak (h : Words sem mem a) {current val : AcquireState}
    {acquire : Atomic AcquireState}
    (hx : sem.acquire.cmpxchgWeak current val spurious = some acquire) :
    current.Rep mem.next mem.prev a.acq ∧ acquire = .new val := by
  obtain ⟨ha, hb, -⟩ := Atomic.cmpxchgWeak_eq_some hx
  refine ⟨?_, hb⟩
  have := h.acq
  rwa [ha, Atomic.load_new, AcquireState.rep_canon] at this

theorem rel_of_cmpxchgWeak (h : Words sem mem a) {current val : ReleaseState}
    {release : Atomic ReleaseState}
    (hx : sem.release.cmpxchgWeak current val spurious = some release) :
    a.rel = current.rel ∧ release = .new val := by
  obtain ⟨ha, hb, -⟩ := Atomic.cmpxchgWeak_eq_some hx
  refine ⟨?_, hb⟩
  have := h.rel
  rwa [ha, Atomic.load_new, ReleaseState.rel_canon] at this

theorem cstack_of_cmpxchgWeak (h : Words sem mem a) {current val : Ptr}
    {nextCancel : Atomic Ptr}
    (hx : sem.nextCancel.cmpxchgWeak current val spurious = some nextCancel) :
    Path null mem.nextCancel current a.cstack ∧ nextCancel = .new val := by
  obtain ⟨ha, hb, -⟩ := Atomic.cmpxchgWeak_eq_some hx
  refine ⟨?_, hb⟩
  have := h.cstack
  rwa [ha, Atomic.load_new] at this

end Words

end WeightedSemaphore
