import WeightedSemaphore.SimulationFrame

/-!
# The acquire side refines the protocol

`try_acquire`, the polls and the destructor of an acquire future. Every step is a step of the
protocol or one that the protocol does not see.
-/

namespace WeightedSemaphore

open Function (update)
open Protocol (Life Acq Rel Phase Owner Role Inv)
open Waker (Kind)
open AtomicWaker (PollPc)
open Links

variable [Usize] {ι : Type} {s s' : Sys ι} {a b : Protocol.State ι Ptr} {t u : ι}
  {f : Frame ι} {x : Ptr} {spurious : Bool}

def Follows [DecidableEq ι] (a : Protocol.State ι Ptr) (s' : Sys ι) : Prop :=
  Sim s' a ∨ ∃ b, Protocol.Step maxAvailable a b ∧ Sim s' b

variable [DecidableEq ι]

theorem refine_tryAcquire (hs : Sim s a) {amount : ℕ} {pc : TryAcquirePc}
    (hf : s.frames t = .tryAcquire amount pc) :
    Follows a (s.tryAcquire t amount spurious pc) := by
  have go {f : Frame ι} (huses : f.uses = none) (hrole : f.role = .quiet)
      (hok : f.Ok s.mem s.ghost.claimed t) : Follows a (s.goto t f) :=
    Or.inl (hs.goto_free rfl rfl rfl rfl SameView.goto (by rw [hf, huses]; rfl)
      (by rw [hf, hrole]; rfl) (by simp [hrole]) hok)
  cases pc with
  | load => exact go rfl rfl trivial
  | loop current =>
    cases current with
    | queued back => exact go rfl rfl trivial
    | available available =>
      simp only [Sys.tryAcquire]
      cases hav : available.intoUsize with
      | none => exact go rfl rfl trivial
      | some n =>
        dsimp only
        split_ifs with hlt
        · exact go rfl rfl trivial
        · cases hx : s.sem.acquire.cmpxchgWeak (.available available)
            (.available (Permits.new (n - amount))) spurious with
          | none => exact go rfl rfl trivial
          | some acquire =>
            obtain ⟨hrep, rfl⟩ := hs.words.acq_of_cmpxchgWeak hx
            dsimp only
            have hacq : a.acq = .available (some n) := by rw [← hav]; exact hrep
            have hnew : (Permits.new (n - amount)).intoUsize = some (n - amount) :=
              Permits.intoUsize_eq_some.mpr
                ⟨rfl, (Nat.sub_le _ _).trans (Permits.intoUsize_eq_some.mp hav).2⟩
            refine Or.inr ⟨_, .fast amount n hacq (by omega), ?_, ?_, ?_, ?_⟩
            · refine { hs.view with role := ?_, held := ?_, hist := ?_ }
              · exact hs.view.role_same (f := .idle .acquired) (by rw [hf]; rfl)
              · exact (congrArg (· + amount) hs.view.held).trans (Nat.add_comm _ _)
              · exact congrArg _ hs.view.hist
            · exact { hs.words with acq := Words.rep_new (congrArg Acq.available hnew.symm) }
            · refine hs.pass.other rfl rfl (fun o ho => ?_) rfl rfl (fun _ _ => ⟨rfl, rfl⟩)
                (fun _ _ => rfl) (fun _ _ _ _ => rfl) fun _ _ h => h
              exact Function.update_of_ne (hs.not_owner hf (by simp [Frame.role]) ho) _ _
            · exact hs.loc.goto rfl rfl rfl (by rw [hf]; rfl) rfl rfl rfl rfl (fun _ _ _ => rfl)
                trivial

omit [DecidableEq ι] in
theorem View.life_ready (h : View s a) {claimed : Bool} (hlive : x ∈ s.live)
    (hl : s'.live = s.live) (hmem : s'.mem = { s.mem with step := update s.mem.step x .done })
    (hclaim : s'.ghost.claimed = update s.ghost.claimed x claimed) (y : Ptr) :
    update a.life x .done y = s'.lifeOf y := by
  refine h.life_update (fun y hy => Sys.lifeOf_congr (by rw [hl]) ?_ ?_ (by rw [hmem])) ?_ y
  · rw [hmem]; exact Function.update_of_ne hy ..
  · rw [hclaim]; exact Function.update_of_ne hy ..
  · exact Sys.lifeOf_done (hl ▸ hlive) (by rw [hmem]; exact Function.update_self ..)

theorem refine_pollEnter (hs : Sim s a) (hi : Inv a) {pc : EnterPc}
    (hf : s.frames t = .pollEnter x pc) : Follows a (s.pollEnter t x spurious pc) := by
  obtain ⟨hlive, huser⟩ := hs.borrowed hf rfl
  obtain ⟨hstep, hpc⟩ := hs.frame_ok hf
  have huses : (s.frames t).uses = some x := by rw [hf]; rfl
  have hlife : a.life x = .entering := (hs.view.life x).trans (Sys.lifeOf_entering hlive hstep)
  have hunclaimed (hk : ∀ p, (s.mem.waker x).kind ≠ .finished p) : s.ghost.claimed x = false := by
    by_contra hc
    obtain ⟨p, hp⟩ := hs.loc.claimed x hlive (by simpa using hc)
    exact hk p hp
  have hnot := Sim.not_mem_queue hi (x := x) (by simp [hlife]) (by simp [hlife])
  have hothers (o : Owner ι Ptr) (ho : a.owner = some o) (f : Frame ι) :
      update s.frames t f o.thread = s.frames o.thread :=
    Function.update_of_ne (hs.not_owner hf (by simp [Frame.role]) ho) _ _
  have hcancelling {l : Life} (y : Ptr) (_ : y ∈ a.linked) (hy : a.life y = .cancelling) :
      update a.life x l y = .cancelling :=
    Protocol.life_update_of_eq (by simp [hlife]) hy
  have hsame : s.ghost.claimed = update s.ghost.claimed x (s.ghost.claimed x) := by simp
  have go {pc : EnterPc} (hok : pc.Ok (s.mem.amount x) (s.mem.waker x).kind) :
      Follows a (s.goto t (.pollEnter x pc)) :=
    Or.inl (hs.goto_free rfl rfl rfl rfl SameView.goto huses.symm (by rw [hf]; rfl)
      (by simp [Frame.role]) ⟨hstep, hok⟩)
  have enter {current : AcquireState} {available : ℕ} {back : Ptr}
      (hk : (s.mem.waker x).kind = .pending)
      (hsees : EnterPc.Sees (s.mem.amount x) current available back) :
      Follows a (s.enterWakerPoll t x current available back) :=
    Or.inl (hs.goto_free rfl rfl rfl rfl ⟨rfl, rfl, rfl, rfl, rfl, rfl, rfl, rfl, rfl⟩ huses.symm
      (by rw [hf]; rfl) (by simp [Frame.role]) ⟨hstep, Or.inl hk, by simp [hk], hsees⟩)
  cases pc with
  | load => exact go hpc
  | loop current =>
    cases current with
    | queued back => exact enter hpc (Or.inl ⟨rfl, rfl⟩)
    | available available =>
      simp only [Sys.pollEnter]
      cases hav : available.intoUsize with
      | none =>
        refine Or.inr ⟨_, .retire x hlife, ?_, { hs.words with }, ?_, ?_⟩
        · exact { hs.view with
            life := hs.view.life_ready hlive rfl rfl hsame
            role := hs.view.role_same (f := .idle .readyErr) (by rw [hf]; rfl) }
        · exact hs.pass.other rfl rfl (fun o ho => hothers o ho _) rfl rfl
            (fun _ _ => ⟨rfl, rfl⟩) (fun _ _ => rfl) (fun _ _ _ _ => rfl) hcancelling
        · exact hs.loc.ready huses (Or.inl hpc) rfl rfl rfl rfl (fun _ _ => rfl)
            (hs.loc.claimed x hlive)
      | some n =>
        dsimp only
        split_ifs with hle
        · cases hx : s.sem.acquire.cmpxchgWeak (.available available)
            (.available (Permits.new (n - s.mem.amount x))) spurious with
          | none => exact go hpc
          | some acquire =>
            obtain ⟨hrep, rfl⟩ := hs.words.acq_of_cmpxchgWeak hx
            dsimp only
            have hacq : a.acq = .available (some n) := by rw [← hav]; exact hrep
            have hnew : (Permits.new (n - s.mem.amount x)).intoUsize =
                some (n - s.mem.amount x) := Permits.intoUsize_eq_some.mpr
              ⟨rfl, (Nat.sub_le _ _).trans (Permits.intoUsize_eq_some.mp hav).2⟩
            have ham : a.amount x = s.mem.amount x := congrFun hs.view.amount x
            refine Or.inr ⟨_, .fastPoll x n hacq hlife (ham ▸ hle), ?_, ?_, ?_, ?_⟩
            · refine { hs.view with
                life := hs.view.life_ready hlive rfl rfl hsame
                role := hs.view.role_same (f := .idle .ready) (by rw [hf]; rfl)
                held := ?_
                hist := ?_ }
              · rw [ham]
                exact (congrArg (· + s.mem.amount x) hs.view.held).trans (Nat.add_comm _ _)
              · rw [ham]
                exact congrArg _ hs.view.hist
            · rw [ham]
              exact { hs.words with acq := Words.rep_new (congrArg Acq.available hnew.symm) }
            · exact hs.pass.other rfl rfl (fun o ho => hothers o ho _) rfl rfl
                (fun _ _ => ⟨rfl, rfl⟩) (fun _ _ => rfl) (fun _ _ _ _ => rfl) hcancelling
            · exact hs.loc.ready huses (Or.inl hpc) rfl rfl rfl rfl (fun _ _ => rfl)
                (hs.loc.claimed x hlive)
        · exact enter hpc (Or.inr ⟨rfl, by omega, available, rfl, hav⟩)
  | poll current available back tok pc =>
    obtain ⟨hpoll, hnf, hsees⟩ := hpc
    obtain ⟨hth, hspec⟩ := AtomicWaker.poll_spec tok spurious hpoll
    simp only [Sys.pollEnter]
    have hc : s.ghost.claimed x ≠ true := by simp [hunclaimed hnf]
    cases hflow : ((s.mem.waker x).poll tok spurious pc).flow with
    | goto pc' =>
      rw [hflow] at hspec
      obtain ⟨hok, hk⟩ := hspec
      refine Or.inl (hs.own_waker huses rfl rfl rfl rfl rfl rfl rfl rfl rfl rfl rfl
        (by rw [hf]; rfl) (by simp [Frame.role]) (by simp [hstep]) ?_ (fun h => absurd h hc) ?_)
      · refine ⟨hstep, ?_⟩
        change EnterPc.Ok _ (update s.mem.waker x _ x).kind _
        rw [Function.update_self]
        refine ⟨hok, fun p hp => ?_, hsees⟩
        rcases hk with hk | ⟨-, hk⟩
        · exact hnf p (hk ▸ hp)
        · simp [hk] at hp
      · intro hcan
        rcases hk with hk | ⟨-, hk⟩
        · rw [hk] at hcan
          exact absurd (hcan ▸ hpoll) AtomicWaker.PollPc.not_ok_cancelling
        · simp [hk] at hcan
    | ret res =>
      cases res with
      | pending =>
        rw [hflow] at hspec
        obtain ⟨-, hk⟩ := hspec
        refine Or.inl (hs.own_waker huses rfl rfl rfl rfl rfl rfl rfl rfl rfl rfl rfl
          (by rw [hf]; rfl) (by simp [Frame.role]) (by simp [hstep]) ?_ (fun h => absurd h hc)
          (by simp [hk]))
        refine ⟨hstep, ?_⟩
        change EnterPc.Ok _ (update s.mem.waker x _ x).kind _
        rw [Function.update_self]
        exact ⟨hk, hsees⟩
      | ready p =>
        rw [hflow] at hspec
        exact absurd hspec.1 (hnf p)
    | panic =>
      rw [hflow] at hspec
      exact hspec.elim
  | push current available back =>
    obtain ⟨hk, hsees⟩ := hpc
    have hprev {y : Ptr} (hy : y ≠ x) : update s.mem.prev x back y = s.mem.prev y :=
      Function.update_of_ne hy _ _
    have hlinked (y : Ptr) (hy : y ∈ a.linked) :
        s.mem.next y = s.mem.next y ∧ update s.mem.prev x back y = s.mem.prev y :=
      ⟨rfl, hprev (by rintro rfl; exact hnot.1 hy)⟩
    have hpushed (y : Ptr) (hy : y ∈ a.pushed) :
        s.mem.next y = s.mem.next y ∧ update s.mem.prev x back y = s.mem.prev y :=
      ⟨rfl, hprev (by rintro rfl; exact hnot.2 hy)⟩
    simp only [Sys.pollEnter]
    cases hx : s.sem.acquire.cmpxchgWeak current (.queued x) spurious with
    | none =>
      refine Or.inl ⟨?_, ?_, ?_, ?_⟩
      · exact { hs.view with
          role := hs.view.role_same (f := .pollEnter x (.loop s.sem.acquire.load))
            (by rw [hf]; rfl) }
      · exact hs.words.congr rfl rfl rfl rfl rfl rfl hpushed fun _ _ => rfl
      · exact hs.pass.other rfl rfl (fun o ho => hothers o ho _) rfl rfl hlinked
          (fun _ _ => rfl) (fun _ _ _ _ => rfl) fun _ _ h => h
      · exact hs.loc.goto rfl rfl rfl huses.symm rfl rfl rfl rfl (fun _ _ _ => rfl) ⟨hstep, hk⟩
    | some acquire =>
      obtain ⟨hrep, rfl⟩ := hs.words.acq_of_cmpxchgWeak hx
      dsimp only
      have ham : a.amount x = s.mem.amount x := congrFun hs.view.amount x
      have hnc : s.ghost.claimed x = false := hunclaimed (by simp [hk])
      have hnull : s.mem.next x = null := hs.loc.next_null x hlive hstep
      -- what the exchange replaced: the pushed waiters, or permits that do not suffice
      obtain ⟨pushed, hpush, hpath, hacq⟩ : ∃ pushed, pushed = a.pushed ∧
          Path null s.mem.prev back pushed ∧
          (a.acq = .available (some available) ∧ available < a.amount x ∧ pushed = [] ∨
            a.acq = .queued pushed ∧ available = 0) := by
        rcases hsees with ⟨rfl, rfl⟩ | ⟨rfl, hlt, q, rfl, hq⟩
        · obtain ⟨pushed, hacq, hpath, -⟩ := hrep
          exact ⟨pushed, by simp [Protocol.State.pushed, hacq], hpath, Or.inr ⟨hacq, rfl⟩⟩
        · have hacq : a.acq = .available (some available) := by rw [← hq]; exact hrep
          exact ⟨[], by simp [Protocol.State.pushed, hacq], rfl,
            Or.inl ⟨hacq, ham ▸ hlt, rfl⟩⟩
      have hnulls : ∀ y ∈ pushed, s.mem.next y = null := by
        rcases hsees with ⟨rfl, rfl⟩ | ⟨rfl, hlt, q, rfl, hq⟩
        · obtain ⟨pushed', hacq', -, hn⟩ := hrep
          have : a.pushed = pushed' := by simp [Protocol.State.pushed, hacq']
          rw [hpush, this]
          exact hn
        · have hacq' : a.acq = .available q.intoUsize := hrep
          simp [hpush, Protocol.State.pushed, hacq']
      have hnew : (Permits.new available).intoUsize = some available := by
        rcases hsees with ⟨rfl, rfl⟩ | ⟨rfl, hlt, q, rfl, hq⟩
        · rfl
        · exact Permits.intoUsize_eq_some.mpr ⟨rfl, (Permits.intoUsize_eq_some.mp hq).2⟩
      refine Or.inr ⟨_, .enter t x available pushed ?_ hlife hacq, ?_, ?_, ?_, ?_⟩
      · rw [hs.view.role, hf]; rfl
      · refine { hs.view with life := ?_, role := ?_, hist := ?_ }
        · refine hs.view.life_update (fun y hy => ?_) ?_
          · exact Sys.lifeOf_congr Iff.rfl (Function.update_of_ne hy _ _) rfl rfl
          · refine Sys.lifeOf_kind (k := .pending) ?_ ?_ ?_ ?_
            exacts [hlive, Function.update_self .., hnc, hk]
        · have hr : Role.releasing (some available) none =
              (Frame.release (Permits.new available) (.pollEnter x) .lockLoad : Frame ι).role :=
            (congrArg (Role.releasing · none) hnew).symm
          exact fun u => hr ▸ hs.view.role_update u
        · rw [hs.view.uid]
          exact congrArg _ hs.view.hist
      · refine { hs.words with acq := Words.rep_new ⟨x :: pushed, rfl, ⟨rfl, ?_, ?_⟩, ?_⟩ }
        · exact hs.loc.ne_null x hlive
        · change Path null (update s.mem.prev x back) (update s.mem.prev x back x) pushed
          rw [Function.update_self]
          exact hpath.congr fun y hy => (hpushed y (hpush ▸ hy)).2
        · intro y hy
          rcases List.mem_cons.mp hy with rfl | hy
          · exact hnull
          · exact hnulls y hy
      · exact hs.pass.other rfl rfl (fun o ho => hothers o ho _) rfl rfl hlinked
          (fun _ _ => rfl) (fun _ _ _ _ => rfl) hcancelling
      · refine hs.loc.keep rfl rfl rfl huses.symm (fun y hy => ?_) ?_ (fun y hy hst => ?_)
          (fun y hy hc => ?_) fun y hy hc => ?_
        · have hyx : y ≠ x := by rintro rfl; exact hy huser
          exact ⟨Function.update_of_ne hyx _ _, rfl, rfl, rfl⟩
        · exact ⟨Function.update_self .., hnc, Or.inl hk⟩
        · exact hs.loc.next_null_update (by simp) hy hst
        · exact hs.loc.claimed y (hs.loc.user_live t y hy) hc
        · obtain ⟨v, hv, hu⟩ := hs.loc.thread y (hs.loc.user_live t y hy) hc
          rwa [← Option.some.inj (hu.symm.trans hy)]

omit [DecidableEq ι] in
theorem Sys.runWaker_eq {π ρ : Type} {r : AtomicWaker.Step ι π ρ}
    (h : r.waker = s.mem.waker x) : (s.runWaker x r).mem = s.mem := by
  simp [runWaker, h]

omit [DecidableEq ι] in
theorem SameView.runWaker {π ρ : Type} {r : AtomicWaker.Step ι π ρ}
    (h : r.waker = s.mem.waker x) : SameView s (s.runWaker x r) :=
  ⟨rfl, congrArg Waiters.waker (Sys.runWaker_eq h), rfl, rfl, rfl, rfl, rfl, rfl, rfl⟩

theorem refine_pollWaiting (hs : Sim s a) {tok : ℕ} {pc : PollPc}
    (hf : s.frames t = .pollWaiting x tok pc) :
    Follows a (s.pollWaiting t x tok spurious pc) := by
  obtain ⟨hlive, huser⟩ := hs.borrowed hf rfl
  obtain ⟨hstep, hnc, hpoll⟩ := hs.frame_ok hf
  have huses : (s.frames t).uses = some x := by rw [hf]; rfl
  have hwl : s.lifeOf x = (s.mem.waker x).kind.life := Sys.lifeOf_waiting hlive hstep hnc
  obtain ⟨hth, hspec⟩ := AtomicWaker.poll_spec tok spurious hpoll
  have hothers (o : Owner ι Ptr) (ho : a.owner = some o) (f : Frame ι) :
      update s.frames t f o.thread = s.frames o.thread :=
    Function.update_of_ne (hs.not_owner hf (by simp [Frame.role]) ho) _ _
  simp only [Sys.pollWaiting]
  cases hflow : ((s.mem.waker x).poll tok spurious pc).flow with
  | goto pc' =>
    rw [hflow] at hspec
    obtain ⟨hok, hk⟩ := hspec
    refine Or.inl (hs.own_waker huses rfl rfl rfl rfl rfl rfl rfl rfl rfl rfl rfl
      (by rw [hf]; rfl) (by simp [Frame.role]) (fun _ => ?_) ?_ (fun h => by simp [hnc] at h) ?_)
    · rcases hk with hk | ⟨hk, hk'⟩
      · rw [hk]
      · rw [hk, hk']; rfl
    · refine ⟨hstep, hnc, ?_⟩
      change PollPc.Ok (update s.mem.waker x _ x).kind _
      rwa [Function.update_self]
    · intro hcan
      rcases hk with hk | ⟨-, hk⟩
      · rw [hk] at hcan
        exact absurd (hcan ▸ hpoll) AtomicWaker.PollPc.not_ok_cancelling
      · simp [hk] at hcan
  | ret res =>
    cases res with
    | pending =>
      rw [hflow] at hspec
      obtain ⟨hk, hk'⟩ := hspec
      refine Or.inl ⟨?_, { hs.words with }, ?_, ?_⟩
      · refine { hs.view with life := ?_, role := ?_ }
        · intro y
          by_cases hy : y = x
          · subst hy
            rw [hs.view.life, hwl, hk]
            symm
            refine Sys.lifeOf_kind (k := .pending) ?_ ?_ ?_ ?_
            · exact hlive
            · exact hstep
            · exact hnc
            change (update s.mem.waker y _ y).kind = _
            rw [Function.update_self, hk']
          · rw [hs.view.life]
            symm
            refine Sys.lifeOf_congr Iff.rfl rfl rfl ?_
            change (update s.mem.waker x _ y).kind.life = _
            rw [Function.update_of_ne hy]
        · exact hs.view.role_same (f := .idle .pending) (by rw [hf]; rfl)
      · exact hs.pass.other rfl rfl (fun o ho => hothers o ho _) rfl rfl
          (fun _ _ => ⟨rfl, rfl⟩) (fun _ _ => rfl) (fun _ _ _ _ => rfl) fun _ _ h => h
      · refine hs.loc.leave rfl rfl rfl huses rfl (fun y hy => ?_) trivial ⟨?_, ?_, ?_⟩
          (fun y hy hst => hs.loc.next_null y hy hst) fun hc => ?_
        · exact ⟨rfl, rfl, Function.update_of_ne hy _ _, rfl⟩
        · change (update s.mem.waker x _ x).kind.Rest
          rw [Function.update_self]
          exact Or.inl hk'
        · exact fun hst => absurd (hstep.symm.trans hst) (by simp)
        · exact fun _ => hnc
        · exact absurd (hc.symm.trans hnc) (by simp)
    | ready p =>
      rw [hflow] at hspec
      obtain ⟨hk, hw⟩ := hspec
      have hlife : a.life x = .finished p := by rw [hs.view.life, hwl, hk]; rfl
      have ham : a.amount x = s.mem.amount x := congrFun hs.view.amount x
      have hmem : { (s.runWaker x ((s.mem.waker x).poll tok spurious pc)).mem with
          step := update s.mem.step x .done } =
            { s.mem with step := update s.mem.step x .done } := by
        rw [Sys.runWaker_eq hw]
      have hclaimed : ∀ y ≠ x, update s.ghost.claimed x true y = s.ghost.claimed y :=
        fun y hy => Function.update_of_ne hy _ _
      have hcancelling (y : Ptr) (_ : y ∈ a.linked) (hy : a.life y = .cancelling) :
          update a.life x .done y = .cancelling :=
        Protocol.life_update_of_eq (by simp [hlife]) hy
      cases p with
      | true =>
        refine Or.inr ⟨_, .claim x true hlife, ?_, { hs.words with }, ?_, ?_⟩
        · exact { hs.view with
            life := hs.view.life_ready hlive rfl hmem rfl
            role := hs.view.role_same (f := .idle .readyErr) (by rw [hf]; rfl) }
        · exact hs.pass.other rfl rfl (fun o ho => hothers o ho _) rfl rfl
            (fun _ _ => ⟨rfl, rfl⟩) (fun _ _ => rfl) (fun _ _ _ _ => rfl) hcancelling
        · exact hs.loc.ready huses (Or.inr ⟨true, hk⟩) rfl hmem rfl rfl hclaimed
            fun _ => ⟨true, hk⟩
      | false =>
        refine Or.inr ⟨_, .claim x false hlife, ?_, { hs.words with }, ?_, ?_⟩
        · refine { hs.view with
            life := hs.view.life_ready hlive rfl hmem rfl
            role := hs.view.role_same (f := .idle .ready) (by rw [hf]; rfl)
            held := ?_ }
          rw [if_neg (by simp), ham]
          exact (congrArg (· + s.mem.amount x) hs.view.held).trans (Nat.add_comm _ _)
        · exact hs.pass.other rfl rfl (fun o ho => hothers o ho _) rfl rfl
            (fun _ _ => ⟨rfl, rfl⟩) (fun _ _ => rfl) (fun _ _ _ _ => rfl) hcancelling
        · exact hs.loc.ready huses (Or.inr ⟨false, hk⟩) rfl hmem rfl rfl hclaimed
            fun _ => ⟨false, hk⟩
  | panic =>
    rw [hflow] at hspec
    exact hspec.elim

end WeightedSemaphore
