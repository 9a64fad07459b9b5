import WeightedSemaphore.RefineAcquire
import Mathlib.Algebra.BigOperators.Group.List.Basic
import Mathlib.Data.List.Perm.Basic

/-!
# Destructors and calls refine the protocol

The destructor of an acquire future, the calls that begin each method, and the operations on futures
and guards that take no access to the semaphore.
-/

namespace WeightedSemaphore

open Function (update)
open Protocol (Life Acq Rel Phase Owner Role Inv)
open Waker (Kind)
open AtomicWaker (PollPc StartCancelPc)
open Links

variable [Usize] {ι : Type} {s s' : Sys ι} {a b : Protocol.State ι Ptr} {t u : ι}
  {f : Frame ι} {x : Ptr} {spurious : Bool}

theorem Frame.uses_of_holds (h : f.role.holds = some x) : f.uses = some x := by
  cases f with
  | release releasable ret pc =>
    have hafter : ret.after = some x := by
      cases hl : pc.locks <;> simpa [role, hl, Role.holds] using h
    cases ret <;> simp_all [Cont.after, uses, Cont.uses]
  | dropFuture y pc => cases pc <;> simp_all [role, Role.holds, uses]
  | _ => simp [role, Role.holds] at h

/-- A waiter that is held by a thread is held by the one that borrows its future. -/
theorem Sim.holds_user (hs : Sim s a) (h : (a.role u).holds = some x) : s.user x = some u := by
  rw [hs.view.role] at h
  exact (hs.loc.users u x).mp (Frame.uses_of_holds h)

omit [Usize] in
theorem sum_eraseIdx {guards : List SemaphoreGuard} {i : ℕ} {guard : SemaphoreGuard}
    (h : guards[i]? = some guard) :
    (guards.map SemaphoreGuard.amount).sum =
      guard.amount + ((guards.eraseIdx i).map SemaphoreGuard.amount).sum := by
  obtain ⟨hi, rfl⟩ := List.getElem?_eq_some_iff.mp h
  have := ((List.getElem_cons_eraseIdx_perm hi).map SemaphoreGuard.amount).sum_eq
  rw [← this, List.map_cons, List.sum_cons]

variable [DecidableEq ι]

theorem refine_startCancel (hs : Sim s a) {pc : StartCancelPc}
    (hf : s.frames t = .dropFuture x (.startCancel pc))
    (h : s.dropFuture t x spurious (.startCancel pc) = some s') : Follows a s' := by
  obtain ⟨hlive, huser⟩ := hs.borrowed hf rfl
  obtain ⟨hstep, hnc, hok⟩ := hs.frame_ok hf
  have huses : (s.frames t).uses = some x := by rw [hf]; rfl
  have hrest : (s.mem.waker x).kind.Rest := by
    cases pc with
    | load => exact hok
    | exchange current => exact hok.1
  have hothers (o : Owner ι Ptr) (ho : a.owner = some o) (f : Frame ι) :
      update s.frames t f o.thread = s.frames o.thread :=
    Function.update_of_ne (hs.not_owner hf (by simp [Frame.role]) ho) _ _
  have hrole : a.role t = .quiet := by rw [hs.view.role, hf]; rfl
  have hspec := AtomicWaker.startCancel_spec spurious hok
  simp only [Sys.dropFuture] at h
  cases hflow : ((s.mem.waker x).startCancel t spurious pc).flow with
  | goto pc' =>
    rw [hflow] at hspec h
    obtain rfl := (Option.some.inj h).symm
    obtain ⟨hok', hk⟩ := hspec
    refine Or.inl (hs.own_waker huses rfl rfl rfl rfl rfl rfl rfl rfl rfl rfl rfl
      (by rw [hf]; rfl) (by simp [Frame.role]) (fun _ => by rw [hk]) ?_
      (fun h => by simp [hnc] at h) fun hcan => ?_)
    · refine ⟨hstep, hnc, ?_⟩
      change StartCancelPc.Ok (update s.mem.waker x _ x) _ _
      rwa [Function.update_self]
    · rw [hk] at hcan
      simp [Kind.Rest, hcan] at hrest
  | ret res =>
    cases res with
    | cancelling =>
      rw [hflow] at hspec h
      obtain rfl := (Option.some.inj h).symm
      obtain ⟨hk, hk', hth⟩ := hspec
      have hlife : a.life x = .queued := by
        rw [hs.view.life, Sys.lifeOf_kind hlive hstep hnc hk]; rfl
      refine Or.inr ⟨_, .startCancel t x hrole hlife, ?_, { hs.words with }, ?_, ?_⟩
      · refine { hs.view with life := ?_, role := ?_, hist := ?_ }
        · refine hs.view.life_update (fun y hy => ?_) ?_
          · refine Sys.lifeOf_congr Iff.rfl rfl rfl ?_
            change (update s.mem.waker x _ y).kind.life = _
            rw [Function.update_of_ne hy]
          · refine Sys.lifeOf_kind (k := .cancelling) ?_ ?_ ?_ ?_
            · exact hlive
            · exact hstep
            · exact hnc
            · change (update s.mem.waker x _ x).kind = _
              rwa [Function.update_self]
        · exact hs.view.role_update (f := .dropFuture x .loadCancel)
        · rw [hs.view.uid]
          exact congrArg _ hs.view.hist
      · refine hs.pass.other rfl rfl (fun o ho => hothers o ho _) rfl rfl
          (fun _ _ => ⟨rfl, rfl⟩) (fun _ _ => rfl) (fun _ _ _ _ => rfl) fun y _ hy => ?_
        exact Protocol.life_update_of_eq (by simp [hlife]) hy
      · refine hs.loc.keep rfl rfl rfl huses.symm (fun y hy => ?_) ⟨hstep, ?_⟩
          (fun y hy hst => hs.loc.next_null y hy hst) (fun y hy hc => ?_) fun y hy hc => ?_
        · have hyx : y ≠ x := by rintro rfl; exact hy huser
          exact ⟨rfl, rfl, Function.update_of_ne hyx _ _, rfl⟩
        · change (update s.mem.waker x _ x).kind = _
          rwa [Function.update_self]
        · obtain rfl : y = x := by
            have := (hs.loc.users t y).mpr hy
            exact Option.some.inj (this.symm.trans huses)
          exact absurd (hc.symm.trans hnc) (by simp)
        · obtain rfl : y = x := by
            have := (hs.loc.users t y).mpr hy
            exact Option.some.inj (this.symm.trans huses)
          change (update s.mem.waker y _ y).thread = _
          rwa [Function.update_self]
    | finished p =>
      rw [hflow] at hspec h
      obtain ⟨hk, hw⟩ := hspec
      have hmem := Sys.runWaker_eq hw
      cases p with
      | true =>
        obtain rfl := (Option.some.inj h).symm
        exact Or.inl (hs.goto_free rfl rfl hmem rfl
          ⟨rfl, congrArg Waiters.waker hmem, rfl, rfl, rfl, rfl, rfl, rfl, rfl⟩ huses.symm
          (by rw [hf]; rfl) (by simp [Frame.role]) ⟨Or.inl hrest, fun _ => Or.inr (Or.inr hk)⟩)
      | false =>
        obtain rfl := (Option.some.inj h).symm
        have hlife : a.life x = .finished false := by
          rw [hs.view.life, Sys.lifeOf_kind hlive hstep hnc hk]; rfl
        have ham : a.amount x = s.mem.amount x := congrFun hs.view.amount x
        have hwaker (y : Ptr) : (s.runWaker x
            ((s.mem.waker x).startCancel t spurious pc)).mem.waker y = s.mem.waker y := by
          rw [hmem]
        refine Or.inr ⟨_, .giveBack t x hrole hlife, ?_, { hs.words with }, ?_, ?_⟩
        · refine { hs.view with life := ?_, role := ?_ }
          · refine hs.view.life_update (fun y hy => ?_) ?_
            · exact Sys.lifeOf_congr Iff.rfl rfl (Function.update_of_ne hy _ _)
                (congrArg (·.kind.life) (hwaker y))
            · refine Sys.lifeOf_claimed ?_ ?_ ?_
              · exact hlive
              · exact hstep
              · exact Function.update_self ..
          · rw [ham]
            exact hs.view.role_update
              (f := .release (Permits.new (s.mem.amount x)) (.gaveBack x) .lockLoad)
        · refine hs.pass.other rfl rfl (fun o ho => hothers o ho _) rfl rfl
            (fun _ _ => ⟨rfl, rfl⟩) (fun _ _ => rfl) (fun _ _ _ _ => rfl) fun y _ hy => ?_
          exact Protocol.life_update_of_eq (by simp [hlife]) hy
        · have hat {y : Ptr} (hy : s.user y = some t) : y = x := by
            have := (hs.loc.users t y).mpr hy
            exact Option.some.inj (this.symm.trans huses)
          refine hs.loc.keep rfl rfl rfl huses.symm (fun y hy => ?_) ?_
            (fun y hy hst => hs.loc.next_null y hy hst) (fun y hy hc => ?_) fun y hy hc => ?_
          · have hyx : y ≠ x := by rintro rfl; exact hy huser
            exact ⟨rfl, rfl, hwaker y, Function.update_of_ne hyx _ _⟩
          · exact ⟨hstep, Function.update_self .., false,
              (congrArg AtomicWaker.kind (hwaker x)).trans hk⟩
          · obtain rfl := hat hy
            exact ⟨false, (congrArg AtomicWaker.kind (hwaker y)).trans hk⟩
          · obtain rfl := hat hy
            have := (congrArg AtomicWaker.kind (hwaker y)).symm.trans hc
            simp [hk] at this
  | panic =>
    rw [hflow] at hspec
    exact hspec.elim

theorem refine_dropFuture (hs : Sim s a) (hi : Inv a) {pc : DropPc}
    (hf : s.frames t = .dropFuture x pc) (h : s.dropFuture t x spurious pc = some s') :
    Follows a s' := by
  obtain ⟨hlive, huser⟩ := hs.borrowed hf rfl
  have hok := hs.frame_ok hf
  have huses : (s.frames t).uses = some x := by rw [hf]; rfl
  have hothers (o : Owner ι Ptr) (ho : a.owner = some o) (f : Frame ι) :
      update s.frames t f o.thread = s.frames o.thread :=
    Function.update_of_ne
      (hs.not_owner hf (by cases pc <;> simp [Frame.role]) ho) _ _
  cases pc with
  | startCancel pc => exact refine_startCancel hs hf h
  | loadCancel =>
    obtain rfl := (Option.some.inj h).symm
    exact Or.inl (hs.goto_free rfl rfl rfl rfl SameView.goto huses.symm (by rw [hf]; rfl)
      (by simp [Frame.role]) hok)
  | pushCancel current =>
    have hrole : a.role t = .cancelling x := by rw [hs.view.role, hf]; rfl
    obtain ⟨hlife, hmarked⟩ := hi.holds.cancelling t x hrole
    have hout {y : Ptr} (hy : y ∈ a.marked) :
        update s.mem.nextCancel x current y = s.mem.nextCancel y :=
      Function.update_of_ne (by rintro rfl; exact hmarked hy) _ _
    have htaken (o : Owner ι Ptr) (ho : a.owner = some o) (y : Ptr) (hy : y ∈ o.taken) :
        update s.mem.nextCancel x current y = s.mem.nextCancel y :=
      hout (by simp [Protocol.State.marked, Protocol.taken_of_owner ho, hy])
    have hcstack (y : Ptr) (hy : y ∈ a.cstack) :
        update s.mem.nextCancel x current y = s.mem.nextCancel y :=
      hout (by simp [Protocol.State.marked, hy])
    simp only [Sys.dropFuture] at h
    cases hx : s.sem.nextCancel.cmpxchgWeak current x spurious with
    | none =>
      rw [hx] at h
      obtain rfl := (Option.some.inj h).symm
      refine Or.inl ⟨?_, ?_, ?_, ?_⟩
      · exact { hs.view with
          role := hs.view.role_same (f := .dropFuture x (.pushCancel s.sem.nextCancel.load))
            (by rw [hf]; rfl) }
      · exact hs.words.congr rfl rfl rfl rfl rfl rfl (fun _ _ => ⟨rfl, rfl⟩) hcstack
      · exact hs.pass.other rfl rfl (fun o ho => hothers o ho _) rfl rfl (fun _ _ => ⟨rfl, rfl⟩)
          (fun _ _ => rfl) htaken fun _ _ h => h
      · exact hs.loc.goto rfl rfl rfl huses.symm rfl rfl rfl rfl (fun _ _ _ => rfl) hok
    | some nextCancel =>
      obtain ⟨hpath, rfl⟩ := hs.words.cstack_of_cmpxchgWeak hx
      rw [hx] at h
      obtain rfl := (Option.some.inj h).symm
      refine Or.inr ⟨_, .pushCancel t x hrole, ?_, ?_, ?_, ?_⟩
      · exact { hs.view with
          role := hs.view.role_update (f := .release (Permits.new 0) (.cancelling x) .lockLoad) }
      · refine { hs.words with cstack := ⟨Atomic.load_new x, hs.loc.ne_null x hlive, ?_⟩ }
        change Path null (update s.mem.nextCancel x current)
          (update s.mem.nextCancel x current x) a.cstack
        rw [Function.update_self]
        exact hpath.congr hcstack
      · exact hs.pass.other rfl rfl (fun o ho => hothers o ho _) rfl rfl (fun _ _ => ⟨rfl, rfl⟩)
          (fun _ _ => rfl) htaken fun _ _ h => h
      · exact hs.loc.goto rfl rfl rfl huses.symm rfl rfl rfl rfl (fun _ _ _ => rfl)
          ⟨hok.1, Or.inl hok.2⟩
  | waitCancel pc =>
    cases pc with
    | load =>
      obtain ⟨hstep, hk⟩ := hok
      simp only [Sys.dropFuture] at h
      rcases hk with hk | hk
      · rw [AtomicWaker.waitCancel_cancelling hk] at h
        obtain rfl := (Option.some.inj h).symm
        have hmem : (s.runWaker x (⟨s.mem.waker x, .goto .park, none⟩ :
            AtomicWaker.Step ι AtomicWaker.WaitCancelPc Unit)).mem = s.mem := Sys.runWaker_eq rfl
        refine Or.inl (hs.goto_free rfl rfl hmem rfl ?_ huses.symm (by rw [hf]; rfl)
          (by simp [Frame.role]) ⟨hstep, Or.inl hk⟩)
        exact ⟨rfl, congrArg Waiters.waker hmem, rfl, rfl, rfl, rfl, rfl, rfl, rfl⟩
      · rw [AtomicWaker.waitCancel_cancelled hk] at h
        obtain rfl := (Option.some.inj h).symm
        have hmem : (s.runWaker x (⟨s.mem.waker x, .ret (), none⟩ :
            AtomicWaker.Step ι AtomicWaker.WaitCancelPc Unit)).mem = s.mem := Sys.runWaker_eq rfl
        have hnc : s.ghost.claimed x = false := by
          by_contra hc
          obtain ⟨p, hp⟩ := hs.loc.claimed x hlive (by simpa using hc)
          simp [hk] at hp
        have hlife : a.life x = .cancelled := by
          rw [hs.view.life, Sys.lifeOf_kind hlive hstep hnc hk]; rfl
        have hrole : a.role t = .waiting x := by rw [hs.view.role, hf]; rfl
        refine Or.inr ⟨_, .waited t x hrole hlife, ?_, ?_, ?_, ?_⟩
        · exact { hs.view with
            life := fun y => (hs.view.life y).trans ((SameView.runWaker rfl).lifeOf y).symm
            role := hs.view.role_update (f := .dropFuture x .waker) }
        · exact { hs.words with }
        · exact hs.pass.other rfl rfl (fun o ho => hothers o ho _) rfl rfl
            (fun _ _ => ⟨rfl, rfl⟩) (fun _ _ => rfl) (fun _ _ _ _ => rfl) fun _ _ h => h
        · exact hs.loc.goto rfl rfl rfl huses.symm rfl rfl (congrArg Waiters.waker hmem) rfl
            (fun _ _ _ => rfl) ⟨Or.inr hk, fun _ => Or.inr (Or.inl hk)⟩
    | park =>
      simp only [Sys.dropFuture] at h
      split_ifs at h
      obtain rfl := (Option.some.inj h).symm
      exact Or.inl (hs.goto_free rfl rfl rfl rfl ⟨rfl, rfl, rfl, rfl, rfl, rfl, rfl, rfl, rfl⟩
        huses.symm (by rw [hf]; rfl) (by simp [Frame.role]) hok)
  | waker =>
    obtain ⟨hk, hw⟩ := hok
    obtain ⟨hwaker, hflow⟩ := AtomicWaker.drop_spec (s.panicking t) hk
    simp only [Sys.dropFuture] at h
    rw [hflow] at h
    obtain rfl := (Option.some.inj h).symm
    have hmem := Sys.runWaker_eq hwaker
    have hlife : a.life x = .entering ∨ a.life x = .done ∨ a.life x = .cancelled ∨
        a.life x = .finished true := by
      rw [hs.view.life]
      cases hst : s.mem.step x with
      | entering => exact Or.inl (Sys.lifeOf_entering hlive hst)
      | done => exact Or.inr (Or.inl (Sys.lifeOf_done hlive hst))
      | waiting =>
        cases hc : s.ghost.claimed x with
        | true => exact Or.inr (Or.inl (Sys.lifeOf_claimed hlive hst hc))
        | false =>
          rcases hw hst with hw | hw | hw
          · simp [hc] at hw
          · exact Or.inr (Or.inr (Or.inl (Sys.lifeOf_kind hlive hst hc hw)))
          · exact Or.inr (Or.inr (Or.inr (Sys.lifeOf_kind hlive hst hc hw)))
    have hholds (u : ι) : (a.role u).holds ≠ some x := fun hu => by
      obtain rfl : u = t := Option.some.inj ((hs.holds_user hu).symm.trans huser)
      rw [hs.view.role, hf] at hu
      simp [Frame.role, Role.holds] at hu
    refine Or.inr ⟨_, .free x hlife hholds, ?_, ?_, ?_, ?_⟩
    · refine { hs.view with life := ?_, role := ?_, live := ?_ }
      · refine hs.view.life_update (fun y hy => ?_) ?_
        · refine Sys.lifeOf_congr ?_ rfl rfl (congrArg (·.kind.life) (congrFun
            (congrArg Waiters.waker hmem) y))
          exact ⟨Finset.mem_of_mem_erase, fun h => Finset.mem_erase.mpr ⟨hy, h⟩⟩
        · exact Sys.lifeOf_absent (Finset.notMem_erase x s.live)
      · exact hs.view.role_same (f := .idle .unit) (by rw [hf]; rfl)
      · exact congrArg (Finset.erase · x) hs.view.live
    · exact { hs.words with }
    · refine hs.pass.other rfl rfl (fun o ho => hothers o ho _) rfl rfl
        (fun _ _ => ⟨rfl, rfl⟩) (fun _ _ => rfl) (fun _ _ _ _ => rfl) fun y _ hy => ?_
      exact Protocol.life_update_of_eq (by rintro he; simp [he] at hlife) hy
    · exact hs.loc.drop rfl rfl rfl hmem rfl huses rfl trivial

theorem refine_startRelease (hs : Sim s a) (hidle : (s.frames t).isIdle = true) {r : Permits}
    (hframes : s'.frames = update s.frames t (.release r .caller .lockLoad))
    (hsem : s'.sem = s.sem) (hmem : s'.mem = s.mem) (huser : s'.user = s.user)
    (hlive : s'.live = s.live) (hclaim : s'.ghost.claimed = s.ghost.claimed)
    (huid : s'.ghost.uid = s.ghost.uid) (hnext : s'.ghost.nextUid = s.ghost.nextUid)
    (hacq : b.acq = a.acq) (hrel : b.rel = a.rel) (hcs : b.cstack = a.cstack)
    (howner : b.owner = a.owner) (hlinked : b.linked = a.linked) (hlife : b.life = a.life)
    (hrole : b.role = update a.role t (.releasing r.intoUsize none))
    (hamount : b.amount = a.amount) (hblive : b.live = a.live) (hbuid : b.uid = a.uid)
    (hbnext : b.nextUid = a.nextUid)
    (hheld : b.held = (s'.guards.map SemaphoreGuard.amount).sum)
    (hhist : b.hist = s'.ghost.hist) : Sim s' b := by
  obtain ⟨ret, hf⟩ : ∃ ret, s.frames t = .idle ret := by
    cases hf : s.frames t <;> simp [Frame.isIdle, hf] at hidle ⊢
  refine ⟨⟨fun y => ?_, ?_, ?_, ?_, ?_, ?_, hheld, hhist⟩, ?_, ?_, ?_⟩
  · rw [hlife, hs.view.life]
    exact (Sys.lifeOf_congr (by rw [hlive]) (by rw [hmem]) (by rw [hclaim]) (by rw [hmem])).symm
  · rw [hrole, hframes]
    exact hs.view.role_update (f := .release r .caller .lockLoad)
  · rw [hamount, hmem]; exact hs.view.amount
  · rw [hblive, hlive]; exact hs.view.live
  · rw [hbuid, huid]; exact hs.view.uid
  · rw [hbnext, hnext]; exact hs.view.nextUid
  · rw [hsem, hmem]
    exact hs.words.congr rfl rfl rfl hacq hrel hcs (fun _ _ => ⟨rfl, rfl⟩) fun _ _ => rfl
  · refine hs.pass.other howner hlinked (fun o ho => ?_) (by rw [hsem]) (by rw [hsem])
      (by simp [hmem]) (by simp [hmem]) (by simp [hmem]) (by simp [hlife])
    rw [hframes]
    exact Function.update_of_ne (hs.not_owner hf (by simp [Frame.role]) ho) _ _
  · refine hs.loc.goto hframes huser hlive (by rw [hf]; rfl) (by rw [hmem]) (by rw [hmem])
      (by rw [hmem]) hclaim (by simp [hmem]) ?_
    exact trivial

theorem refine_borrow (hs : Sim s a) (hidle : (s.frames t).isIdle = true) (hx : x ∈ s.live)
    (hnone : s.user x = none) (hframes : s'.frames = update s.frames t f) (hsem : s'.sem = s.sem)
    (hmem : s'.mem = s.mem) (huser : s'.user = update s.user x (some t)) (hsv : SameView s s')
    (huses : f.uses = some x) (hrole : f.role = .quiet) (hok : f.Ok s.mem s.ghost.claimed t) :
    Sim s' a := by
  obtain ⟨ret, hf⟩ : ∃ ret, s.frames t = .idle ret := by
    cases hf : s.frames t <;> simp [Frame.isIdle, hf] at hidle ⊢
  refine ⟨hs.view.goto hsv hframes (by rw [hf]; exact hrole), ?_, ?_, ?_⟩
  · rw [hsem, hmem]; exact hs.words
  · refine hs.pass.other rfl rfl (fun o ho => ?_) (by rw [hsem]) (by rw [hsem])
      (by simp [hmem]) (by simp [hmem]) (by simp [hmem]) (by simp)
    rw [hframes]
    exact Function.update_of_ne (hs.not_owner hf (by simp [Frame.role]) ho) _ _
  · exact hs.loc.borrow hframes huser hsv.live hmem hsv.claimed hx hnone (by rw [hf]; rfl)
      huses hok

theorem refine_call (hs : Sim s a) {c : Call} (hidle : (s.frames t).isIdle = true)
    (h : s.call t c = some s') : Follows a s' := by
  obtain ⟨ret, hf⟩ : ∃ ret, s.frames t = .idle ret := by
    cases hf : s.frames t <;> simp [Frame.isIdle, hf] at hidle ⊢
  have hrole : a.role t = .quiet := by rw [hs.view.role, hf]; rfl
  have hsum := hs.view.held
  cases c with
  | poll x =>
    simp only [Sys.call] at h
    split_ifs at h with hx
    obtain ⟨hlive, hnone⟩ := hx
    have hr := hs.loc.resting x hlive hnone
    cases hst : s.mem.step x with
    | entering =>
      rw [hst] at h
      obtain rfl := (Option.some.inj h).symm
      exact Or.inl (refine_borrow hs hidle hlive hnone rfl rfl rfl rfl
        ⟨rfl, rfl, rfl, rfl, rfl, rfl, rfl, rfl, rfl⟩ rfl rfl ⟨hst, hr.entering hst⟩)
    | waiting =>
      rw [hst] at h
      obtain rfl := (Option.some.inj h).symm
      exact Or.inl (refine_borrow hs hidle hlive hnone rfl rfl rfl rfl
        ⟨rfl, rfl, rfl, rfl, rfl, rfl, rfl, rfl, rfl⟩ rfl rfl ⟨hst, hr.waiting hst, hr.rest⟩)
    | done =>
      rw [hst] at h
      obtain rfl := (Option.some.inj h).symm
      exact Or.inl (hs.goto_free rfl rfl rfl rfl SameView.goto (by rw [hf]; rfl)
        (by rw [hf]; rfl) (by simp [Frame.role]) trivial)
  | dropFuture x =>
    simp only [Sys.call] at h
    split_ifs at h with hx
    obtain ⟨hlive, hnone⟩ := hx
    have hr := hs.loc.resting x hlive hnone
    cases hst : s.mem.step x with
    | entering =>
      rw [hst] at h
      obtain rfl := (Option.some.inj h).symm
      exact Or.inl (refine_borrow hs hidle hlive hnone rfl rfl rfl rfl
        ⟨rfl, rfl, rfl, rfl, rfl, rfl, rfl, rfl, rfl⟩ rfl rfl
        ⟨Or.inl hr.rest, fun h => by simp [hst] at h⟩)
    | waiting =>
      rw [hst] at h
      obtain rfl := (Option.some.inj h).symm
      exact Or.inl (refine_borrow hs hidle hlive hnone rfl rfl rfl rfl
        ⟨rfl, rfl, rfl, rfl, rfl, rfl, rfl, rfl, rfl⟩ rfl rfl ⟨hst, hr.waiting hst, hr.rest⟩)
    | done =>
      rw [hst] at h
      obtain rfl := (Option.some.inj h).symm
      exact Or.inl (refine_borrow hs hidle hlive hnone rfl rfl rfl rfl
        ⟨rfl, rfl, rfl, rfl, rfl, rfl, rfl, rfl, rfl⟩ rfl rfl
        ⟨Or.inl hr.rest, fun h => by simp [hst] at h⟩)
  | tryAcquire amount =>
    obtain rfl := (Option.some.inj h).symm
    exact Or.inl (hs.goto_free rfl rfl rfl rfl SameView.goto (by rw [hf]; rfl) (by rw [hf]; rfl)
      (by simp [Frame.role]) trivial)
  | release amount =>
    obtain rfl := (Option.some.inj h).symm
    exact Or.inr ⟨_, .release t amount hrole, refine_startRelease hs hidle rfl rfl rfl rfl rfl rfl
      rfl rfl rfl rfl rfl rfl rfl rfl rfl rfl rfl rfl rfl hsum (congrArg _ hs.view.hist)⟩
  | poison =>
    obtain rfl := (Option.some.inj h).symm
    refine Or.inr ⟨_, .poison t 0 hrole (Nat.zero_le _), refine_startRelease hs hidle rfl rfl rfl
      rfl rfl rfl rfl rfl rfl rfl rfl rfl rfl rfl ?_ rfl rfl rfl rfl hsum
      (congrArg _ hs.view.hist)⟩
    rw [Permits.intoUsize_poison]
  | dropGuard i =>
    simp only [Sys.call] at h
    cases hg : s.guards[i]? with
    | none => simp [hg] at h
    | some guard =>
      rw [hg] at h
      dsimp only at h
      have herase := sum_eraseIdx hg
      split_ifs at h
      · obtain rfl := (Option.some.inj h).symm
        refine Or.inr ⟨_, .poison t guard.amount hrole (by omega), refine_startRelease hs hidle rfl
          rfl rfl rfl rfl rfl rfl rfl rfl rfl rfl rfl rfl rfl ?_ rfl rfl rfl rfl ?_
          (congrArg _ hs.view.hist)⟩
        · rw [Permits.intoUsize_poison]
        · change a.held - guard.amount = ((s.guards.eraseIdx i).map SemaphoreGuard.amount).sum
          omega
      · obtain rfl := (Option.some.inj h).symm
        refine Or.inr ⟨_, .dropGuard t guard.amount hrole (by omega), refine_startRelease hs hidle
          rfl rfl rfl rfl rfl rfl rfl rfl rfl rfl rfl rfl rfl rfl rfl rfl rfl rfl rfl ?_
          hs.view.hist⟩
        change a.held - guard.amount = ((s.guards.eraseIdx i).map SemaphoreGuard.amount).sum
        omega

theorem refine_acquire (hs : Sim s a) (hi : Inv a) {amount : ℕ}
    (h : s.acquire x amount = some s') : Follows a s' := by
  unfold Sys.acquire at h
  split_ifs at h with hx
  obtain ⟨hlive, hne⟩ := hx
  obtain rfl := (Option.some.inj h).symm
  have hlife : a.life x = .absent := (hs.view.life x).trans (Sys.lifeOf_absent hlive)
  have hnot := Sim.not_mem_queue hi (x := x) (by simp [hlife]) (by simp [hlife])
  have hmarked : x ∉ a.marked := fun hm => by simp [hi.marked.life_mem x hm] at hlife
  have hout {β : Type} {g : Ptr → β} {v : β} {y : Ptr} (hy : y ≠ x) :
      update g x v y = g y := Function.update_of_ne hy _ _
  have hne_of {l : List Ptr} (hl : x ∉ l) (y : Ptr) (hy : y ∈ l) : y ≠ x := by
    rintro rfl; exact hl hy
  refine Or.inr ⟨_, .create x amount hlife, ?_, ?_, ?_, ?_⟩
  · constructor
    · refine hs.view.life_update (fun y hy => ?_) ?_
      · refine Sys.lifeOf_congr ?_ (hout hy) (hout hy) ?_
        · exact ⟨fun h => Finset.mem_of_mem_insert_of_ne h hy, Finset.mem_insert_of_mem⟩
        · exact congrArg (fun w : AtomicWaker ι => w.kind.life) (hout hy)
      · refine Sys.lifeOf_entering ?_ ?_
        · exact Finset.mem_insert_self x s.live
        · exact Function.update_self ..
    · exact hs.view.role
    · exact congrArg (update · x amount) hs.view.amount
    · exact congrArg (insert x ·) hs.view.live
    · change update a.uid x a.nextUid = update s.ghost.uid x s.ghost.nextUid
      rw [hs.view.uid, hs.view.nextUid]
    · exact congrArg (· + 1) hs.view.nextUid
    · exact hs.view.held
    · exact hs.view.hist
  · refine hs.words.congr rfl rfl rfl rfl rfl rfl (fun y hy => ?_) fun y hy => ?_
    · have := hne_of hnot.2 y hy
      exact ⟨hout this, hout this⟩
    · exact hout (hne_of (fun hm => hmarked (by simp [Protocol.State.marked, hm])) y hy)
  · refine hs.pass.other rfl rfl (fun _ _ => rfl) rfl rfl (fun y hy => ?_) (fun y hy => ?_)
      (fun o ho y hy => ?_) fun y hy hc => ?_
    · have := hne_of hnot.1 y hy
      exact ⟨hout this, hout this⟩
    · exact hout (hne_of hnot.1 y hy)
    · refine hout (hne_of (fun hm => hmarked ?_) y hy)
      simp [Protocol.State.marked, Protocol.taken_of_owner ho, hm]
    · exact Protocol.life_update_of_eq (by simp [hlife]) hc
  · have hkind : (update s.mem.waker x .new x).kind = .pending := by
      rw [Function.update_self]
      exact AtomicWaker.kind_new
    refine hs.loc.create rfl rfl rfl hlive (fun y hy => ?_) ⟨?_, ?_, ?_⟩ ?_ (fun _ => rfl) hne
    · exact ⟨hout hy, hout hy, hout hy, hout hy⟩
    · exact Or.inl hkind
    · exact fun _ => hkind
    · exact fun _ => Function.update_self ..
    · exact Function.update_self ..

theorem refine_forget (hs : Sim s a) {i : ℕ} (h : s.forget i = some s') : Follows a s' := by
  unfold Sys.forget at h
  cases hg : s.guards[i]? with
  | none => simp [hg] at h
  | some guard =>
    rw [hg] at h
    obtain rfl := (Option.some.inj h).symm
    have herase := sum_eraseIdx hg
    have hsum := hs.view.held
    refine Or.inr ⟨_, .forget guard.amount (by omega), ?_, { hs.words with }, ?_, { hs.loc with }⟩
    · refine { hs.view with held := ?_, hist := congrArg _ hs.view.hist }
      change a.held - guard.amount = ((s.guards.eraseIdx i).map SemaphoreGuard.amount).sum
      omega
    · exact { hs.pass with }

end WeightedSemaphore
