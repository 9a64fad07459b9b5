import WeightedSemaphore.RefineDrop

/-!
# Locking, flipping and unlocking refine the protocol

The parts of `release` that synchronize with other threads through the two packed words: deferring
to the lock owner, taking the cancel stack, `flip` with its loop over the pushed waiters, and
`try_unlock`.
-/

namespace WeightedSemaphore

open Function (update)
open Protocol (Life Acq Rel Phase Owner Role Inv)
open Waker (Kind)
open Links

variable [Usize] {ι : Type} {s s' : Sys ι} {a b : Protocol.State ι Ptr} {t u : ι}
  {f : Frame ι} {x : Ptr} {spurious : Bool} {r r' : Permits} {ret : Cont} {pc pc' : ReleasePc ι}
  {o o' : Owner ι Ptr}

theorem Frame.role_owning (hl : pc.locks = false) :
    (Frame.release r ret pc : Frame ι).role = .owning ret.after := by
  simp [Frame.role, hl]

namespace Sim

theorem cont_ok (hs : Sim s a) (hf : s.frames t = .release r ret pc) :
    ret.Ok s.mem s.ghost.claimed := hs.frame_ok hf

variable [DecidableEq ι]

/-- The lock owner moves on within its pass, to the notice of no one. -/
theorem goto_owner (hs : Sim s a) (hf : s.frames t = .release r ret pc) (hl : pc.locks = false)
    (ho : a.owner = some o) (hl' : pc'.locks = false) (hr : o.releasable = r'.intoUsize)
    (hok : pc'.Ok s.sem s.mem a.life a.linked o) :
    Sim (s.goto t (.release r' ret pc')) a := by
  refine hs.goto rfl rfl rfl rfl SameView.goto (by rw [hf]; rfl) ?_ ?_ fun o₁ ho₁ _ => ?_
  · rw [hf, Frame.role_owning hl, Frame.role_owning hl']
  · exact hs.cont_ok hf
  · obtain rfl : o₁ = o := Option.some.inj (ho₁.symm.trans ho)
    exact ⟨r', ret, pc', rfl, hr, hok⟩

theorem owner_phase (hs : Sim s a) (hf : s.frames t = .release r ret pc) (hl : pc.locks = false)
    (hot : o'.thread = t)
    (hframes : s'.frames = update s.frames t (.release r' ret pc')) (hsem : s'.sem = s.sem)
    (hmem : s'.mem = s.mem) (huser : s'.user = s.user) (hsv : SameView s s')
    (hl' : pc'.locks = false) (hr : o'.releasable = r'.intoUsize)
    (hok : pc'.Ok s.sem s.mem a.life a.linked o') :
    Sim s' { a with owner := some o' } := by
  have hrole : (Frame.release r' ret pc' : Frame ι).role = (s.frames t).role := by
    rw [hf, Frame.role_owning hl, Frame.role_owning hl']
  refine ⟨{ hs.view.goto hsv hframes hrole with }, ?_, ⟨by simp, ?_⟩, ?_⟩
  · rw [hsem, hmem]
    exact { hs.words with }
  · rintro _ ⟨⟩
    rw [hsem, hmem, hframes, hot, Function.update_self]
    exact ⟨r', ret, pc', rfl, hr, hok⟩
  · exact hs.loc.goto hframes huser hsv.live (by rw [hf]; rfl) hsv.step hsv.amount hsv.waker
      hsv.claimed (fun _ _ _ => by rw [hmem]) (hs.cont_ok hf)

end Sim

/-- What a call to `release` does on its return: it leaves the future in the hands of the caller. -/
theorem Sys.afterRelease_eq [DecidableEq ι] (s : Sys ι) (t : ι) (ret : Cont) :
    ∃ f user, s.afterRelease t ret = { s with frames := update s.frames t f, user := user } ∧
      f.role = .after ret.after := by
  cases ret with
  | caller => exact ⟨_, _, rfl, rfl⟩
  | pollEnter x => exact ⟨.idle .pending, update s.user x none, rfl, rfl⟩
  | cancelling x => exact ⟨_, _, rfl, rfl⟩
  | gaveBack x => exact ⟨_, _, rfl, rfl⟩

section Locking

variable [DecidableEq ι]

theorem Local.afterRelease (h : Local s) (hf : s.frames t = .release r ret pc) :
    Local (s.afterRelease t ret) := by
  have hok : ret.Ok s.mem s.ghost.claimed := by
    have := h.ok t
    rwa [hf] at this
  cases ret with
  | caller =>
    exact h.goto rfl rfl rfl (by rw [hf]; rfl) rfl rfl rfl rfl (fun _ _ _ => rfl) trivial
  | pollEnter x =>
    obtain ⟨hstep, hnc, hrest⟩ := hok
    refine h.leave rfl rfl rfl (by rw [hf]; rfl) rfl (fun _ _ => SameAt.refl) trivial
      ⟨hrest, fun hst => ?_, fun _ => hnc⟩ (fun y hy hst => h.next_null y hy hst) fun hc => ?_
    · exact absurd (hstep.symm.trans hst) (by simp)
    · exact absurd (hc.symm.trans hnc) (by simp)
  | cancelling x =>
    exact h.goto rfl rfl rfl (by rw [hf]; rfl) rfl rfl rfl rfl (fun _ _ _ => rfl) hok
  | gaveBack x =>
    obtain ⟨hstep, hc, hk⟩ := hok
    exact h.goto rfl rfl rfl (by rw [hf]; rfl) rfl rfl rfl rfl (fun _ _ _ => rfl)
      ⟨Or.inl (Or.inr hk), fun _ => Or.inl hc⟩

/-- A call to `release` returns after one exchange of the release word. -/
theorem Sim.afterRelease (hs : Sim s a) (hf : s.frames t = .release r ret pc)
    {release : Atomic ReleaseState} (hrel : b.rel = release.load.rel)
    (hacq : b.acq = a.acq) (hcs : b.cstack = a.cstack) (hlife : b.life = a.life)
    (hrole : b.role = update a.role t (.after ret.after)) (hamount : b.amount = a.amount)
    (hlive : b.live = a.live) (huid : b.uid = a.uid) (hnext : b.nextUid = a.nextUid)
    (hheld : b.held = a.held) (hhist : b.hist = a.hist)
    (hpass : ∀ f, Pass { s with sem.release := release, frames := update s.frames t f } b) :
    Sim ({ s with sem.release := release }.afterRelease t ret) b := by
  have hloc : Local ({ s with sem.release := release }.afterRelease t ret) :=
    Local.afterRelease (s := { s with sem.release := release }) { hs.loc with } hf
  obtain ⟨f, user, heq, hfrole⟩ :=
    Sys.afterRelease_eq { s with sem.release := release } t ret
  rw [heq] at hloc ⊢
  refine ⟨⟨?_, ?_, ?_, ?_, ?_, ?_, ?_, ?_⟩, ⟨?_, hrel, ?_⟩, { hpass f with }, hloc⟩
  · rw [hlife]; exact hs.view.life
  · rw [hrole, ← hfrole]; exact hs.view.role_update
  · rw [hamount]; exact hs.view.amount
  · rw [hlive]; exact hs.view.live
  · rw [huid]; exact hs.view.uid
  · rw [hnext]; exact hs.view.nextUid
  · rw [hheld]; exact hs.view.held
  · rw [hhist]; exact hs.view.hist
  · rw [hacq]; exact hs.words.acq
  · rw [hcs]; exact hs.words.cstack

theorem refine_lockOrElseDefer (hs : Sim s a) (hi : Inv a) {current : ReleaseState}
    (hf : s.frames t = .release r ret (.lock current)) :
    Follows a (s.lockOrElseDefer t r ret spurious current) := by
  have hrole : a.role t = .releasing r.intoUsize ret.after := by rw [hs.view.role, hf]; rfl
  have hother (o : Owner ι Ptr) (ho : a.owner = some o) (f : Frame ι) :
      update s.frames t f o.thread = s.frames o.thread :=
    Function.update_of_ne (hs.not_owner hf (by simp [Frame.role, ReleasePc.locks]) ho) _ _
  have retry : Follows a (s.goto t (.release r ret (.lock s.sem.release.load))) :=
    Or.inl (hs.goto_free rfl rfl rfl rfl SameView.goto (by rw [hf]; rfl) (by rw [hf]; rfl)
      (by simp [Frame.role, ReleasePc.locks]) (hs.cont_ok hf))
  have hdefer {q : Permits} {b : Protocol.State ι Ptr} (ho : b.owner = a.owner)
      (hl : b.linked = a.linked) (hlife : b.life = a.life) (f : Frame ι) :
      Pass { s with sem.release := .new (.lockedDirty q), frames := update s.frames t f } b :=
    hs.pass.other ho hl (fun o ho => hother o ho f) rfl rfl (fun _ _ => ⟨rfl, rfl⟩)
      (fun _ _ => rfl) (fun _ _ _ _ => rfl) (by simp [hlife])
  cases current with
  | unlocked available =>
    simp only [Sys.lockOrElseDefer]
    cases hx : s.sem.release.cmpxchgWeak (.unlocked available) .locked spurious with
    | none => exact retry
    | some release =>
      obtain ⟨hrel, rfl⟩ := hs.words.rel_of_cmpxchgWeak hx
      dsimp only
      have hnone : a.owner = none := hi.lock.owner_none.mpr ⟨_, hrel⟩
      refine Or.inr ⟨_, .lock t r.intoUsize available.intoUsize ret.after hrole hrel,
        ?_, ?_, ⟨by simp, ?_⟩, ?_⟩
      · exact { hs.view with
          role := hs.view.role_update (f := .release (r + available) ret .swapCancel) }
      · exact { hs.words with rel := Words.rel_new .locked }
      · rintro _ ⟨⟩
        refine ⟨r + available, ret, .swapCancel, Function.update_self .., ?_, rfl, ?_⟩
        · exact (Permits.intoUsize_add r available).symm
        · exact (hs.pass.free hnone).congr rfl rfl fun _ _ => ⟨rfl, rfl⟩
      · exact hs.loc.goto rfl rfl rfl (by rw [hf]; rfl) rfl rfl rfl rfl (fun _ _ _ => rfl)
          (hs.cont_ok hf)
  | locked =>
    simp only [Sys.lockOrElseDefer]
    cases hx : s.sem.release.cmpxchgWeak .locked (.lockedDirty r) spurious with
    | none => exact retry
    | some release =>
      obtain ⟨hrel, rfl⟩ := hs.words.rel_of_cmpxchgWeak hx
      exact Or.inr ⟨_, .deferLocked t r.intoUsize ret.after hrole hrel,
        hs.afterRelease hf (Words.rel_new (.lockedDirty r)) rfl rfl rfl rfl rfl rfl rfl rfl rfl rfl
          (hdefer rfl rfl rfl)⟩
  | lockedDirty available =>
    simp only [Sys.lockOrElseDefer]
    cases hx : s.sem.release.cmpxchgWeak (.lockedDirty available)
        (.lockedDirty (available + r)) spurious with
    | none => exact retry
    | some release =>
      obtain ⟨hrel, rfl⟩ := hs.words.rel_of_cmpxchgWeak hx
      refine Or.inr ⟨_, .deferDirty t r.intoUsize available.intoUsize ret.after hrole hrel,
        hs.afterRelease hf ?_ rfl rfl rfl rfl rfl rfl rfl rfl rfl rfl (hdefer rfl rfl rfl)⟩
      rw [← Permits.intoUsize_add]
      exact Words.rel_new (.lockedDirty (available + r))

theorem refine_tryUnlock (hs : Sim s a) (hi : Inv a) {current : ReleaseState}
    (hf : s.frames t = .release r ret (.unlock current)) :
    Follows a (s.tryUnlock t r ret spurious current) := by
  obtain ⟨o, ho, rfl, hrole, hr, hphase, hcur, hlink⟩ := hs.owner_of hi hf rfl
  have hload (p : Permits) : s.sem.release.load ≠ .unlocked p := fun hp =>
    hi.rel_of_owner ho p.intoUsize (by rw [hs.words.rel, hp]; rfl)
  have retry : Follows a (s.goto o.thread (.release r ret (.unlock s.sem.release.load))) :=
    Or.inl (hs.goto_owner hf rfl ho rfl hr ⟨hphase, hload, hlink⟩)
  cases current with
  | lockedDirty available =>
    simp only [Sys.tryUnlock]
    cases hx : s.sem.release.cmpxchgWeak (.lockedDirty available) .locked spurious with
    | none => exact retry
    | some release =>
      obtain ⟨hrel, rfl⟩ := hs.words.rel_of_cmpxchgWeak hx
      dsimp only
      refine Or.inr ⟨_, .relock o available.intoUsize ho hphase hrel, ?_, ?_, ⟨by simp, ?_⟩, ?_⟩
      · exact { hs.view with
          role := hs.view.role_same (f := .release (r + available) ret .swapCancel)
            (by rw [hf]; rfl) }
      · exact { hs.words with rel := Words.rel_new .locked }
      · rintro _ ⟨⟩
        refine ⟨r + available, ret, .swapCancel, Function.update_self .., ?_, rfl, ?_⟩
        · rw [Permits.intoUsize_add, hr]
        · exact hlink.congr rfl rfl fun _ _ => ⟨rfl, rfl⟩
      · exact hs.loc.goto rfl rfl rfl (by rw [hf]; rfl) rfl rfl rfl rfl (fun _ _ _ => rfl)
          (hs.cont_ok hf)
  | unlocked p => exact absurd rfl (hcur p)
  | locked =>
    simp only [Sys.tryUnlock]
    cases hx : s.sem.release.cmpxchgWeak .locked (.unlocked r) spurious with
    | none => exact retry
    | some release =>
      obtain ⟨hrel, rfl⟩ := hs.words.rel_of_cmpxchgWeak hx
      refine Or.inr ⟨_, .unlock o ret.after ho hphase hrel hrole,
        hs.afterRelease hf ?_ rfl rfl rfl rfl rfl rfl rfl rfl rfl rfl
          fun f => ⟨fun _ => ?_, by simp⟩⟩
      · rw [hr]
        exact Words.rel_new (.unlocked r)
      · exact hlink.congr rfl rfl fun _ _ => ⟨rfl, rfl⟩

end Locking

section Flip

variable [DecidableEq ι]

theorem refine_swapCancel (hs : Sim s a) (hi : Inv a)
    (hf : s.frames t = .release r ret .swapCancel) :
    Follows a (s.release t r ret spurious .swapCancel) := by
  obtain ⟨o, ho, rfl, hrole, hr, hphase, hlink⟩ := hs.owner_of hi hf rfl
  refine Or.inr ⟨_, .swap o ho hphase, ?_, ?_, ⟨by simp, ?_⟩, ?_⟩
  · exact { hs.view with
      role := hs.view.role_same (f := .release r ret (.flipLoad s.sem.nextCancel.load))
        (by rw [hf]; rfl) }
  · exact { hs.words with cstack := Atomic.load_new null }
  · rintro _ ⟨⟩
    exact ⟨r, ret, _, Function.update_self .., hr, rfl, hs.words.cstack,
      hlink.congr rfl rfl fun _ _ => ⟨rfl, rfl⟩⟩
  · exact hs.loc.goto rfl rfl rfl (by rw [hf]; rfl) rfl rfl rfl rfl (fun _ _ _ => rfl)
      (hs.cont_ok hf)

omit [DecidableEq ι] in
theorem Sim.ne_null (hs : Sim s a) (hi : Inv a) (y : Ptr) (hy : y ∈ a.linked) : y ≠ null := by
  refine hs.loc.ne_null y ?_
  rw [← hs.view.live, hi.live y]
  rcases hi.linked_queue hy with h | h <;> simp [h]

omit [DecidableEq ι] in
theorem Words.queued_nil (h : Words s.sem s.mem a) (hload : s.sem.acquire.load = .queued null) :
    a.acq = .queued [] := by
  have hrep := h.acq
  rw [hload] at hrep
  obtain ⟨pushed, hacq, hpath, -⟩ := hrep
  rw [hacq, (hpath.eq_nil_iff).mpr rfl]

/-- Reading the acquire word, as `flip` does on entry and after a failed exchange. -/
theorem refine_flipLoad (hs : Sim s a) (hi : Inv a) {nextCancel : Ptr}
    (hf : s.frames t = .release r ret pc) (hl : pc.locks = false) (ho : a.owner = some o)
    (hot : o.thread = t) (hr : o.releasable = r.intoUsize) (hphase : o.phase = .flip)
    (htaken : Path null s.mem.nextCancel nextCancel o.taken)
    (hlink : LinkedOk s.sem s.mem a.linked) :
    Follows a (s.goto t (.release r ret (.flip nextCancel s.sem.acquire.load))) := by
  by_cases hskip : s.sem.acquire.load = .queued null ∧ s.sem.front ≠ null
  · have hne : a.linked ≠ [] := fun he =>
      hskip.2 ((hlink.front_eq_null_iff (hs.ne_null hi)).mpr he)
    refine Or.inr ⟨_, .flipSkip o ho hphase (hs.words.queued_nil hskip.1) hne,
      hs.owner_phase hf hl hot rfl rfl rfl rfl SameView.goto rfl hr ⟨?_, htaken, hlink⟩⟩
    rw [if_pos hskip]
  · refine Or.inl (hs.goto_owner hf hl ho rfl hr ⟨?_, htaken, hlink⟩)
    rw [if_neg hskip]
    exact hphase

theorem refine_flip (hs : Sim s a) (hi : Inv a) {nextCancel : Ptr} {current : AcquireState}
    (hf : s.frames t = .release r ret (.flip nextCancel current)) :
    Follows a (s.flip t r ret spurious nextCancel current) := by
  obtain ⟨o, ho, hot, hrole, hr, hphase, htaken, hlink⟩ := hs.owner_of hi hf rfl
  have hfront := hlink.front_eq_null_iff (hs.ne_null hi)
  have retry (h : o.phase = .flip) :
      Follows a (s.goto t (.release r ret (.flip nextCancel s.sem.acquire.load))) :=
    refine_flipLoad hs hi hf rfl ho hot hr h htaken hlink
  cases current with
  | available available =>
    rw [if_neg (by simp)] at hphase
    simp only [Sys.flip]
    cases hx : s.sem.acquire.cmpxchgWeak (.available available)
        (.available (available + r)) spurious with
    | none => exact retry hphase
    | some acquire =>
      obtain ⟨hacq, rfl⟩ := hs.words.acq_of_cmpxchgWeak hx
      have hnull : s.sem.front = null := hfront.mpr (hi.available.linked_nil _ hacq)
      dsimp only
      rw [if_pos hnull]
      refine Or.inr ⟨_, .flipAdd o _ ho hphase hacq, ?_, ?_, ⟨by simp, ?_⟩, ?_⟩
      · exact { hs.view with
          role := hs.view.role_same (f := .release (Permits.new 0) ret (.cancel nextCancel))
            (by rw [hf]; rfl) }
      · refine { hs.words with acq := Words.rep_new ?_ }
        rw [hr]
        exact congrArg Acq.available (Permits.intoUsize_add available r).symm
      · rintro _ ⟨⟩
        subst hot
        exact ⟨Permits.new 0, ret, _, Function.update_self .., rfl, rfl, htaken,
          hlink.congr rfl rfl fun _ _ => ⟨rfl, rfl⟩⟩
      · exact hs.loc.goto rfl rfl rfl (by rw [hf]; rfl) rfl rfl rfl rfl (fun _ _ _ => rfl)
          (hs.cont_ok hf)
  | queued back =>
    simp only [Sys.flip]
    split_ifs with h₁ h₂
    · obtain ⟨rfl, hnull⟩ := h₁
      rw [if_neg (by simp [hnull])] at hphase
      cases hx : s.sem.acquire.cmpxchgWeak (.queued null) (.available r) spurious with
      | none => exact retry hphase
      | some acquire =>
        obtain ⟨⟨pushed, hacq, hpath, -⟩, rfl⟩ := hs.words.acq_of_cmpxchgWeak hx
        obtain rfl := hpath.eq_nil_iff.mpr rfl
        refine Or.inr ⟨_, .flipAvailable o ho hphase hacq (hfront.mp hnull), ?_, ?_,
          ⟨by simp, ?_⟩, ?_⟩
        · exact { hs.view with
            role := hs.view.role_same (f := .release (Permits.new 0) ret (.cancel nextCancel))
              (by rw [hf]; rfl) }
        · exact { hs.words with acq := Words.rep_new (congrArg Acq.available hr) }
        · rintro _ ⟨⟩
          subst hot
          exact ⟨Permits.new 0, ret, _, Function.update_self .., rfl, rfl, htaken,
            hlink.congr rfl rfl fun _ _ => ⟨rfl, rfl⟩⟩
        · exact hs.loc.goto rfl rfl rfl (by rw [hf]; rfl) rfl rfl rfl rfl (fun _ _ _ => rfl)
            (hs.cont_ok hf)
    · subst h₂
      have hne : s.sem.front ≠ null := fun he => h₁ ⟨rfl, he⟩
      rw [if_pos ⟨rfl, hne⟩] at hphase
      exact Or.inl (hs.goto_owner hf rfl ho rfl hr ⟨hphase, htaken, hlink⟩)
    · rw [if_neg (by simp [h₂])] at hphase
      cases hx : s.sem.acquire.cmpxchgWeak (.queued back) (.queued null) spurious with
      | none => exact retry hphase
      | some acquire =>
        obtain ⟨⟨pushed, hacq, hpath, hnulls⟩, rfl⟩ := hs.words.acq_of_cmpxchgWeak hx
        have hne : pushed ≠ [] := fun he => h₂ (hpath.eq_nil_iff.mp he)
        obtain ⟨newest, rest, rfl⟩ := List.exists_cons_of_ne_nil hne
        obtain ⟨rfl, hback, hrest⟩ := hpath
        refine Or.inr ⟨_, .flipTake o _ ho hphase hacq hne, ?_, ?_, ⟨by simp, ?_⟩, ?_⟩
        · exact { hs.view with
            role := hs.view.role_same (f := .release r ret (.walk nextCancel back back))
              (by rw [hf]; rfl) }
        · exact { hs.words with acq := Words.rep_new ⟨[], rfl, rfl, by simp⟩ }
        · rintro _ ⟨⟩
          subst hot
          refine ⟨r, ret, _, Function.update_self .., hr, rfl, htaken, a.linked, rest, [], ?_,
            hlink.congr rfl rfl fun _ _ => ⟨rfl, rfl⟩, hback, hrest, hnulls back (by simp),
            trivial, rfl⟩
          rw [List.reverse_cons]
        · exact hs.loc.goto rfl rfl rfl (by rw [hf]; rfl) rfl rfl rfl rfl (fun _ _ _ => rfl)
            (hs.cont_ok hf)

theorem Sim.relink (hs : Sim s a) (hi : Inv a) (hf : s.frames t = .release r ret pc)
    (hl : pc.locks = false) (ho : a.owner = some o) (hot : o.thread = t)
    (hframes : s'.frames = update s.frames t (.release r ret pc')) {front middle : Ptr}
    (hsem : s'.sem = { s.sem with front := front, middle := middle }) {next prev : Ptr → Ptr}
    (hmem : s'.mem = { s.mem with next := next, prev := prev }) (huser : s'.user = s.user)
    (hsv : SameView s s') (hout : ∀ y ∉ a.linked, next y = s.mem.next y ∧ prev y = s.mem.prev y)
    (hl' : pc'.locks = false) (hr : o.releasable = r.intoUsize)
    (hok : pc'.Ok s'.sem s'.mem a.life a.linked o) : Sim s' a := by
  have hrole : (Frame.release r ret pc' : Frame ι).role = (s.frames t).role := by
    rw [hf, Frame.role_owning hl, Frame.role_owning hl']
  have hpushed (y : Ptr) (hy : y ∈ a.pushed) : y ∉ a.linked := fun hy' => by
    have hnd := hi.queue.nodup
    simp only [Protocol.State.queue] at hnd
    grind
  refine ⟨hs.view.goto hsv hframes hrole, ?_, ⟨by simp [ho], ?_⟩, ?_⟩
  · refine hs.words.congr (by rw [hsem]) (by rw [hsem]) (by rw [hsem]) rfl rfl rfl
      (fun y hy => ?_) fun _ _ => by rw [hmem]
    rw [hmem]
    exact hout y (hpushed y hy)
  · intro o₁ ho₁
    obtain rfl : o₁ = o := Option.some.inj (ho₁.symm.trans ho)
    rw [hframes, hot, Function.update_self]
    exact ⟨r, ret, pc', rfl, hr, hok⟩
  · refine hs.loc.goto hframes huser hsv.live (by rw [hf]; rfl) hsv.step hsv.amount hsv.waker
      hsv.claimed (fun y hy hst => ?_) (hs.cont_ok hf)
    rw [hmem]
    refine (hout y fun hy' => ?_).1
    have hlife : a.life y = .entering := (hs.view.life y).trans (Sys.lifeOf_entering hy hst)
    rcases hi.linked_queue hy' with h | h <;> simp [hlife] at h

theorem refine_walk (hs : Sim s a) (hi : Inv a) {nextCancel back waiter : Ptr}
    (hf : s.frames t = .release r ret (.walk nextCancel back waiter)) :
    Follows a (s.walk t r ret nextCancel back waiter) := by
  obtain ⟨o, ho, hot, hrole, hr, hphase, htaken, old, rest, done, hlinked, hq, hne, hpath, hnext,
    hseg, hback⟩ := hs.owner_of hi hf rfl
  have hnd : a.linked.Nodup := by
    have := hi.queue.nodup
    simp only [Protocol.State.queue] at this
    grind
  have hwalk : Walk null s.mem.next s.mem.prev s.sem.front s.sem.middle old waiter rest done :=
    ⟨hq, hlinked ▸ hnd, fun y hy => hs.ne_null hi y (by simp [hlinked, hy]), hne, hpath, hnext,
      hseg⟩
  simp only [Sys.walk]
  rw [if_neg hne]
  refine Or.inl ?_
  cases rest with
  | nil =>
    rw [List.reverse_nil, List.nil_append] at hlinked
    rw [if_pos (hwalk.prev_eq_null_iff.mpr rfl)]
    by_cases hold : old = []
    · subst hold
      rw [if_pos (hwalk.back_eq_null_iff.mpr rfl)]
      refine hs.relink hi hf rfl ho hot rfl rfl rfl rfl
        ⟨rfl, rfl, rfl, rfl, rfl, rfl, rfl, rfl, rfl⟩ (fun _ _ => ⟨rfl, rfl⟩) rfl hr
        ⟨hphase, htaken, ?_⟩
      rw [hlinked, hback]
      exact hwalk.whole
    · have hmid := hwalk.back_mem hold
      rw [if_neg (mt hwalk.back_eq_null_iff.mp hold)]
      refine hs.relink hi hf rfl ho hot rfl rfl rfl rfl
        ⟨rfl, rfl, rfl, rfl, rfl, rfl, rfl, rfl, rfl⟩ (fun y hy => ?_) rfl hr
        ⟨hphase, htaken, ?_⟩
      · rw [hlinked] at hy
        exact ⟨Function.update_of_ne (by rintro rfl; exact hy (by simp [hmid])) _ _,
          Function.update_of_ne (by rintro rfl; exact hy (by simp)) _ _⟩
      · rw [hlinked, hback]
        exact hwalk.splice hold
  | cons older rest =>
    obtain ⟨holder, hnull⟩ := hwalk.prev_eq
    have hlink := hwalk.link
    rw [holder, if_neg hnull]
    refine hs.relink hi hf rfl ho hot rfl rfl rfl rfl
      ⟨rfl, rfl, rfl, rfl, rfl, rfl, rfl, rfl, rfl⟩ (fun y hy => ?_) rfl hr
      ⟨hphase, htaken, old, rest, waiter :: done, ?_, hlink.queue, hnull, hlink.path,
        hlink.next_eq, hlink.seg, hback⟩
    · rw [hlinked] at hy
      exact ⟨Function.update_of_ne (by rintro rfl; exact hy (by simp)) _ _, rfl⟩
    · rw [hlinked, List.reverse_cons, List.append_assoc]
      rfl

end Flip

end WeightedSemaphore
