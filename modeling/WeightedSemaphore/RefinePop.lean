import WeightedSemaphore.RefineRelease

/-!
# Cancelling and popping refine the protocol

The parts of `release` in which the lock owner takes waiters out of the linked queue: `cancel` with
`accept_cancel`, and `try_pop` with `finish`.
-/

namespace WeightedSemaphore

open Function (update)
open Protocol (Life Acq Rel Phase Owner Role Inv)
open Waker (Kind)
open AtomicWaker (FinishPc FinishResult AcceptCancelPc)
open Links

variable [Usize] {ι : Type} {s s' : Sys ι} {a b : Protocol.State ι Ptr} {t u : ι}
  {f : Frame ι} {x : Ptr} {spurious : Bool} {r r' : Permits} {ret : Cont} {pc pc' : ReleasePc ι}
  {o o' : Owner ι Ptr}

theorem linked_nodup (hi : Inv a) : a.linked.Nodup := by
  have hnd := hi.queue.nodup
  simp only [Protocol.State.queue] at hnd
  grind

theorem pushed_disjoint (hi : Inv a) {y : Ptr} (hy : y ∈ a.pushed) : y ∉ a.linked := by
  have hnd := hi.queue.nodup
  simp only [Protocol.State.queue] at hnd
  grind

variable [DecidableEq ι]

theorem refine_cancel (hs : Sim s a) (hi : Inv a) {nextCancel : Ptr}
    (hf : s.frames t = .release r ret (.cancel nextCancel)) :
    Follows a (s.cancel t r ret nextCancel) := by
  obtain ⟨o, ho, hot, hrole, hr, hphase, htaken, hlink⟩ := hs.owner_of hi hf rfl
  simp only [Sys.cancel]
  by_cases hnull : nextCancel = null
  · rw [if_pos hnull]
    have hnil : o.taken = [] := htaken.eq_nil_iff.mpr hnull
    exact Or.inr ⟨_, .cancelled o ho hphase hnil,
      hs.owner_phase hf rfl hot rfl rfl rfl rfl SameView.goto rfl hr ⟨rfl, hlink⟩⟩
  · rw [if_neg hnull]
    obtain ⟨x, taken, htk⟩ := List.exists_cons_of_ne_nil fun he => hnull (htaken.eq_nil_iff.mp he)
    rw [htk] at htaken
    obtain ⟨rfl, -, htail⟩ := htaken
    have hmem : nextCancel ∈ a.linked :=
      hi.marked.taken_linked o ho (by simp [hphase, Phase.Flipped]) nextCancel (by simp [htk])
    obtain ⟨l₁, l₂, hl⟩ := List.append_of_mem hmem
    have hnd := linked_nodup hi
    have hnotnull := hs.ne_null hi
    rw [hl] at hnd hnotnull
    have hlink' : Queue null s.mem.next s.mem.prev s.sem.front s.sem.middle
        (l₁ ++ nextCancel :: l₂) := hl ▸ hlink
    have herase : a.linked.erase nextCancel = l₁ ++ l₂ := by
      have hx : nextCancel ∉ l₁ := by grind
      rw [hl, List.erase_append_right _ hx, List.erase_cons_head]
    obtain ⟨hprev, hnext⟩ := hlink'.neighbours
    have hprev_mem (hp : s.mem.prev nextCancel ≠ null) : s.mem.prev nextCancel ∈ a.linked := by
      rcases last_mem_or null l₁ with h | ⟨-, h⟩
      · rw [hl, hprev]; simp [h]
      · exact absurd (hprev.trans h) hp
    have hnext_mem (hn : s.mem.next nextCancel ≠ null) : s.mem.next nextCancel ∈ a.linked := by
      rcases first_mem_or l₂ null with h | ⟨-, h⟩
      · rw [hl, hnext]; simp [h]
      · exact absurd (hnext.trans h) hn
    -- the links of all other nodes are as they were
    have hout (y : Ptr) (hy : y ∉ a.linked) :
        (if s.mem.prev nextCancel = null then s.mem.next
          else update s.mem.next (s.mem.prev nextCancel) (s.mem.next nextCancel)) y =
            s.mem.next y ∧
        (if s.mem.next nextCancel = null then s.mem.prev
          else update s.mem.prev (s.mem.next nextCancel) (s.mem.prev nextCancel)) y =
            s.mem.prev y := by
      constructor
      · split_ifs with hp
        · rfl
        · exact Function.update_of_ne (by rintro rfl; exact hy (hprev_mem hp)) _ _
      · split_ifs with hn
        · rfl
        · exact Function.update_of_ne (by rintro rfl; exact hy (hnext_mem hn)) _ _
    refine Or.inr ⟨_, .unlink o nextCancel taken ho hphase htk, ?_, ?_, ⟨by simp, ?_⟩, ?_⟩
    · refine { hs.view with role := ?_, hist := ?_ }
      · exact hs.view.role_same
          (f := .release r ret (.accept nextCancel (s.mem.nextCancel nextCancel) .load))
          (by rw [hf]; rfl)
      · rw [hs.view.uid]
        exact congrArg _ hs.view.hist
    · exact hs.words.congr rfl rfl rfl rfl rfl rfl
        (fun y hy => hout y (pushed_disjoint hi hy)) fun _ _ => rfl
    · rintro _ ⟨⟩
      subst hot
      refine ⟨r, ret, _, Function.update_self .., hr, rfl, Or.inl rfl, htail, ?_⟩
      rw [herase]
      exact hlink'.unlink hnd hnotnull
    · refine hs.loc.goto rfl rfl rfl (by rw [hf]; rfl) rfl rfl rfl rfl (fun y hy hst => ?_)
        (hs.cont_ok hf)
      refine (hout y fun hy' => ?_).1
      have hlife : a.life y = .entering := (hs.view.life y).trans (Sys.lifeOf_entering hy hst)
      rcases hi.linked_queue hy' with h | h <;> simp [hlife] at h

theorem refine_accept (hs : Sim s a) (hi : Inv a) {waker nextCancel : Ptr}
    {pc : AcceptCancelPc ι}
    (hf : s.frames t = .release r ret (.accept waker nextCancel pc)) :
    Follows a (s.accept t r ret spurious waker nextCancel pc) := by
  obtain ⟨o, ho, hot, hrole, hr, hok⟩ := hs.owner_of hi hf rfl
  by_cases hunpark : ∃ thread, pc = .unpark thread
  · obtain ⟨thread, rfl⟩ := hunpark
    refine Or.inl (hs.goto rfl rfl rfl rfl ?_ (by rw [hf]; rfl)
      (by rw [hf]; rfl) (hs.cont_ok hf) fun o₁ ho₁ _ => ?_)
    · exact ⟨rfl, rfl, rfl, rfl, rfl, rfl, rfl, rfl, rfl⟩
    · obtain rfl : o₁ = o := Option.some.inj (ho₁.symm.trans ho)
      exact ⟨r, ret, _, rfl, hr, hok⟩
  · obtain ⟨hphase, hpc, htaken, hlink⟩ : o.phase = .accept waker ∧
        (pc = .load ∨ pc = .exchange .cancelling) ∧
        Path null s.mem.nextCancel nextCancel o.taken ∧ LinkedOk s.sem s.mem a.linked := by
      cases pc with
      | load => exact hok
      | exchange current => exact hok
      | unpark thread => exact absurd ⟨thread, rfl⟩ hunpark
    have hlife : a.life waker = .cancelling := hi.accepting_life
      (by simp [Protocol.accepting_of_owner ho, hphase, Phase.accepting])
    obtain ⟨hlive, hstep, hnc, hk⟩ := Sys.lifeOf_reachable
      ((hs.view.life waker).symm.trans hlife) (by simp)
    replace hk := Kind.life_eq_cancelling hk
    obtain ⟨thread, hthread, huser⟩ := hs.loc.thread waker hlive hk
    rcases AtomicWaker.acceptCancel_spec spurious hk hthread hpc with
      ⟨hw, hflow⟩ | ⟨hw, hflow⟩
    · have hmem := Sys.runWaker_eq hw
      simp only [Sys.accept, hflow]
      refine Or.inl (hs.goto rfl rfl hmem rfl ?_ (by rw [hf]; rfl) (by rw [hf]; rfl)
        (hs.cont_ok hf) fun o₁ ho₁ _ => ?_)
      · exact ⟨rfl, congrArg Waiters.waker hmem, rfl, rfl, rfl, rfl, rfl, rfl, rfl⟩
      · obtain rfl : o₁ = o := Option.some.inj (ho₁.symm.trans ho)
        exact ⟨r, ret, _, rfl, hr, hphase, Or.inr rfl, htaken, hlink⟩
    · simp only [Sys.accept, hflow]
      have hmarked : waker ∈ a.marked := by
        simp [Protocol.State.marked, Protocol.accepting_of_owner ho, hphase, Phase.accepting]
      have hkind : (update s.mem.waker waker
          ((s.mem.waker waker).acceptCancel spurious pc).waker waker).kind = .cancelled := by
        rw [Function.update_self, hw]
        change (Atomic.load (.new Waker.State.cancelled)).kind = _
        rw [Atomic.load_new]
        rfl
      refine Or.inr ⟨_, .accept o waker ho hphase, ?_, { hs.words with }, ⟨by simp, ?_⟩, ?_⟩
      · refine { hs.view with life := ?_, role := ?_, hist := ?_ }
        · refine hs.view.life_update (fun y hy => ?_) ?_
          · refine Sys.lifeOf_congr Iff.rfl rfl rfl ?_
            exact congrArg (fun w : AtomicWaker ι => w.kind.life) (Function.update_of_ne hy _ _)
          · refine Sys.lifeOf_kind (k := .cancelled) ?_ ?_ ?_ ?_
            exacts [hlive, hstep, hnc, hkind]
        · exact hs.view.role_same
            (f := .release r ret (.accept waker nextCancel (.unpark thread))) (by rw [hf]; rfl)
        · rw [hs.view.uid]
          exact congrArg _ hs.view.hist
      · rintro _ ⟨⟩
        subst hot
        exact ⟨r, ret, _, Function.update_self .., hr, rfl, htaken,
          hlink.congr rfl rfl fun _ _ => ⟨rfl, rfl⟩⟩
      · refine hs.loc.produce (x := waker) rfl rfl rfl rfl (by rw [hf]; rfl) (fun y hy => ?_) rfl
          rfl (fun v hv => ?_) (fun h => ?_) (fun hnone => ?_) hnc ?_
        · exact ⟨rfl, rfl, Function.update_of_ne hy _ _, rfl⟩
        · refine (hs.loc.ok v).accepted hv hk hstep rfl hkind fun hv' => ?_
          rw [← hs.view.role] at hv'
          exact (hi.holds.cancelling v waker hv').2 hmarked
        · rw [hf] at h
          exact h
        · exact absurd (huser.symm.trans hnone) (by simp)
        · exact fun hc => by simpa using hkind.symm.trans hc

theorem refine_tryPop (hs : Sim s a) (hi : Inv a)
    (hf : s.frames t = .release r ret .tryPop) : Follows a (s.tryPop t r ret) := by
  obtain ⟨o, ho, hot, hrole, hr, hphase, hlink⟩ := hs.owner_of hi hf rfl
  have hfront := hlink.front_eq_null_iff (hs.ne_null hi)
  have ham (y : Ptr) : a.amount y = s.mem.amount y := congrFun hs.view.amount y
  have stop (hb : a.Blocked o.releasable) :
      Follows a (s.goto t (.release r ret .unlockLoad)) :=
    Or.inr ⟨_, .stop o ho hphase hb,
      hs.owner_phase hf rfl hot rfl rfl rfl rfl SameView.goto rfl hr ⟨rfl, hlink⟩⟩
  simp only [Sys.tryPop]
  split_ifs with hnull
  · refine stop ?_
    rw [Protocol.State.Blocked, hfront.mp hnull]
    trivial
  · obtain ⟨y, rest, hl⟩ := List.exists_cons_of_ne_nil fun he => hnull (hfront.mpr he)
    have hy : s.sem.front = y := by rw [hlink.front_eq, hl, first_cons]
    have pop (hn : ∀ n, o.releasable = some n → s.mem.amount s.sem.front ≤ n) :
        Follows a (s.goto t (.release r ret (.finish ⟨s.sem.front, s.mem.amount s.sem.front,
          s.mem.next s.sem.front, r.intoUsize⟩ .load))) :=
      Or.inl (hs.goto_owner hf rfl ho rfl hr ⟨hphase, hlink,
        ⟨⟨rest, by rw [hl, ← hy]⟩, rfl, rfl, hr.symm, hn⟩, trivial, by simp⟩)
    cases hrel : r.intoUsize with
    | none =>
      rw [hrel] at pop
      exact pop (by simp [hr, hrel])
    | some n =>
      dsimp only
      split_ifs with hlt
      · refine stop ?_
        rw [Protocol.State.Blocked, hl]
        exact Or.inr ⟨n, hr.trans hrel, by rw [ham, ← hy]; exact hlt⟩
      · rw [hrel] at pop
        exact pop fun m hm => by rw [hr, hrel] at hm; obtain rfl := Option.some.inj hm; omega

theorem refine_finished (hs : Sim s a) (hi : Inv a) {pop : Pop} {pc : FinishPc}
    (hf : s.frames t = .release r ret (.finish pop pc)) {w : AtomicWaker ι}
    (hw : w = { s.mem.waker pop.front with state := .new (.finished pop.releasable.isNone) })
    (hk : (s.mem.waker pop.front).kind = .pending ∨ (s.mem.waker pop.front).kind = .storing)
    (hframes : s'.frames = update s.frames t (.release r' ret pc'))
    (hr' : r' = match pop.releasable with
      | some n => Permits.new (n - pop.amount)
      | none => r)
    (hl' : pc'.locks = false)
    (hpc' : ∀ (o : Owner ι Ptr) (life : Ptr → Life) (linked : List Ptr), o.phase = .pop →
      PoppedOk s.sem s.mem pop linked → pc'.Ok s.sem s.mem life linked o)
    (hsem : s'.sem = s.sem)
    (hmem : s'.mem = { s.mem with waker := update s.mem.waker pop.front w })
    (huser : s'.user = s.user) (hlive : s'.live = s.live)
    (hclaim : s'.ghost.claimed = s.ghost.claimed) (huid : s'.ghost.uid = s.ghost.uid)
    (hnext : s'.ghost.nextUid = s.ghost.nextUid) (hguards : s'.guards = s.guards)
    (hhist : s'.ghost.hist =
      .finished (s.ghost.uid pop.front) pop.releasable.isNone :: s.ghost.hist) :
    Follows a s' := by
  obtain ⟨o, ho, hot, hrole, hr, hphase, hlink, ⟨⟨rest, hl⟩, ham, hpn, hpr, hle⟩, -⟩ :=
    hs.owner_of hi hf rfl
  have hnd := linked_nodup hi
  rw [hl] at hnd
  have hmemq : pop.front ∈ a.linked := by rw [hl]; simp
  -- the front node is queued, since its waker is not cancelling
  have hlife : a.life pop.front = .queued := by
    refine (hi.linked_queue hmemq).resolve_right fun hc => ?_
    obtain ⟨-, -, -, hkc⟩ := Sys.lifeOf_reachable
      ((hs.view.life pop.front).symm.trans hc) (by simp)
    rw [Kind.life_eq_cancelling hkc] at hk
    simp at hk
  obtain ⟨hxl, hstep, hnc, -⟩ := Sys.lifeOf_reachable
    ((hs.view.life pop.front).symm.trans hlife) (by simp)
  have hwx : s'.mem.waker pop.front = w := by rw [hmem]; exact Function.update_self ..
  have hwy {y : Ptr} (hy : y ≠ pop.front) : s'.mem.waker y = s.mem.waker y := by
    rw [hmem]; exact Function.update_of_ne hy ..
  have hkind : (s'.mem.waker pop.front).kind = .finished pop.releasable.isNone := by
    rw [hwx, hw]
    exact AtomicWaker.kind_new_state ..
  have hrole' : (Frame.release r' ret pc' : Frame ι).role = (s.frames t).role := by
    rw [hf, Frame.role_owning hl', Frame.role_owning rfl]
  have hview (y : Ptr) : update a.life pop.front (.finished pop.releasable.isNone) y =
      s'.lifeOf y := by
    refine hs.view.life_update (fun y hy => ?_) ?_ y
    · exact Sys.lifeOf_congr (by rw [hlive]) (by rw [hmem]) (by rw [hclaim]) (by rw [hwy hy])
    · exact Sys.lifeOf_kind (k := .finished pop.releasable.isNone) (hlive ▸ hxl)
        (by rw [hmem]; exact hstep) (hclaim ▸ hnc) hkind
  have hloc : Local s' := by
    refine hs.loc.produce (x := pop.front) hframes huser hlive hclaim (by rw [hf]; rfl)
      (fun y hy => ?_) (by rw [hmem]) (by rw [hmem]) (fun v hv => ?_) (fun h => ?_)
      (fun hnone => ?_) hnc (by simp [hkind])
    · exact ⟨by rw [hmem], by rw [hmem], hwy hy, by rw [hclaim]⟩
    · rw [hclaim]
      exact (hs.loc.ok v).finished hv hk hstep hnc (by rw [hmem]) hkind (by rw [hwx, hw])
    · rw [hf] at h
      exact h
    · refine ⟨Or.inr ⟨_, hkind⟩, fun h => ?_, fun _ => hclaim ▸ hnc⟩
      rw [hmem] at h
      exact absurd (hstep.symm.trans h) (by simp)
  have hpopped : PoppedOk s.sem s.mem pop rest := by
    have hq : Queue null s.mem.next s.mem.prev s.sem.front s.sem.middle (pop.front :: rest) :=
      hl ▸ hlink
    exact ⟨hpn.trans hq.seg.2.1, hq.seg.2.2, hq.back_eq⟩
  have hwords : Words s'.sem s'.mem a := by
    rw [hsem, hmem]
    exact { hs.words with }
  have howned (o' : Owner ι Ptr) (hot' : o'.thread = t) (hp' : o'.phase = .pop)
      (hrel : o'.releasable = r'.intoUsize) (life : Ptr → Life) :
      OwnerFrame s'.sem s'.mem life rest o' (s'.frames o'.thread) := by
    rw [hframes, hot', Function.update_self]
    refine ⟨r', ret, pc', rfl, hrel, ?_⟩
    rw [hsem, hmem]
    exact (hpc' o' life rest hp' hpopped).congr rfl rfl (fun _ _ => ⟨rfl, rfl⟩) (fun _ _ => rfl)
      (fun _ _ => rfl) fun _ _ h => h
  have hamount : a.amount pop.front = s.mem.amount pop.front := congrFun hs.view.amount _
  have hvrole (v : ι) : a.role v = (s'.frames v).role := by
    rw [hframes]; exact hs.view.role_same hrole' v
  cases hrel : pop.releasable with
  | some n =>
    have hro : o.releasable = some n := hpr.symm.trans hrel
    have hle' := hle n hro
    rw [hrel] at hr' hview hhist
    have hnew : (Permits.new (n - pop.amount)).intoUsize = some (n - pop.amount) := by
      refine Permits.intoUsize_eq_some.mpr ⟨rfl, ?_⟩
      have := (Permits.intoUsize_eq_some.mp (hr.symm.trans hro)).2
      omega
    refine Or.inr ⟨_, .grant o pop.front rest n ho hphase hl hlife hro (hamount ▸ hle'),
      ⟨hview, hvrole, ?_, ?_, ?_, ?_, ?_, ?_⟩, { hwords with }, ⟨by simp, ?_⟩, hloc⟩
    · rw [hmem]; exact hs.view.amount
    · rw [hlive]; exact hs.view.live
    · rw [huid]; exact hs.view.uid
    · rw [hnext]; exact hs.view.nextUid
    · rw [hguards]; exact hs.view.held
    · rw [hhist, hs.view.uid]
      exact congrArg _ hs.view.hist
    · rintro _ ⟨⟩
      refine howned { o with releasable := some (n - a.amount pop.front) } hot hphase ?_ _
      rw [hr', hamount, ← ham]
      exact hnew.symm
  | none =>
    have hro : o.releasable = none := hpr.symm.trans hrel
    rw [hrel] at hr' hview hhist
    refine Or.inr ⟨_, .fail o pop.front rest ho hphase hl hlife hro,
      ⟨hview, hvrole, ?_, ?_, ?_, ?_, ?_, ?_⟩, { hwords with }, ⟨by simp [ho], ?_⟩, hloc⟩
    · rw [hmem]; exact hs.view.amount
    · rw [hlive]; exact hs.view.live
    · rw [huid]; exact hs.view.uid
    · rw [hnext]; exact hs.view.nextUid
    · rw [hguards]; exact hs.view.held
    · rw [hhist, hs.view.uid]
      exact congrArg _ hs.view.hist
    · intro o' ho'
      obtain rfl : o' = o := Option.some.inj (ho'.symm.trans ho)
      exact howned o' hot hphase (by rw [hr']; exact hr) _

theorem refine_finish (hs : Sim s a) (hi : Inv a) {pop : Pop} {pc : FinishPc}
    (hf : s.frames t = .release r ret (.finish pop pc)) :
    Follows a (s.finish t r ret spurious pop pc) := by
  obtain ⟨o, ho, hot, hrole, hr, hphase, hlink, hpop, hpc, hcan⟩ := hs.owner_of hi hf rfl
  obtain ⟨rest, hl⟩ := hpop.1
  have hmemq : pop.front ∈ a.linked := by rw [hl]; simp
  have hspec := (s.mem.waker pop.front).finish_spec pop.releasable.isNone spurious hpc
  -- what a load of the waker's state may find
  have hkind : AtomicWaker.Reachable (s.mem.waker pop.front).kind ∧
      ((s.mem.waker pop.front).kind = .cancelling → a.life pop.front = .cancelling) := by
    rcases hi.linked_queue hmemq with h | h
    · obtain ⟨-, -, -, hk⟩ := Sys.lifeOf_reachable
        ((hs.view.life pop.front).symm.trans h) (by simp)
      rcases Kind.life_eq_queued hk with hk | hk <;> simp [AtomicWaker.Reachable, hk]
    · obtain ⟨-, -, -, hk⟩ := Sys.lifeOf_reachable
        ((hs.view.life pop.front).symm.trans h) (by simp)
      exact ⟨Or.inr (Or.inr (Kind.life_eq_cancelling hk)), fun _ => h⟩
  have stay {s' : Sys ι} (pc' : FinishPc) (hok : pc'.Ok)
      (hc : pc' = .test .cancelling → a.life pop.front = .cancelling)
      (hframes : s'.frames = update s.frames t (.release r ret (.finish pop pc')))
      (hsem : s'.sem = s.sem) (hmem : s'.mem = s.mem) (huser : s'.user = s.user)
      (hsv : SameView s s') : Follows a s' := by
    refine Or.inl (hs.goto hframes hsem hmem huser hsv (by rw [hf]; rfl) (by rw [hf]; rfl)
      (hs.cont_ok hf) fun o₁ ho₁ _ => ?_)
    obtain rfl : o₁ = o := Option.some.inj (ho₁.symm.trans ho)
    exact ⟨r, ret, _, rfl, hr, hphase, hlink, hpop, hok, hc⟩
  have view {s' : Sys ι} (hmem : s'.mem.waker = s.mem.waker) (h₁ : s'.mem.step = s.mem.step)
      (h₂ : s'.mem.amount = s.mem.amount) (h₃ : s'.live = s.live)
      (h₄ : s'.ghost.claimed = s.ghost.claimed) (h₅ : s'.ghost.uid = s.ghost.uid)
      (h₆ : s'.ghost.nextUid = s.ghost.nextUid) (h₇ : s'.guards = s.guards)
      (h₈ : s'.ghost.hist = s.ghost.hist) : SameView s s' :=
    ⟨h₁, hmem, h₂, h₃, h₄, h₅, h₆, h₇, h₈⟩
  simp only [Sys.finish]
  cases hflow : ((s.mem.waker pop.front).finish pop.releasable.isNone spurious pc).flow with
  | goto pc' =>
    rw [hflow] at hspec
    cases pc' with
    | test current =>
      obtain ⟨hw, rfl⟩ := hspec
      have hmem := Sys.runWaker_eq hw
      refine stay (.test _) hkind.1 (fun h => hkind.2 ?_) rfl rfl hmem rfl
        (view (congrArg Waiters.waker hmem) rfl rfl rfl rfl rfl rfl rfl rfl)
      rw [AtomicWaker.kind, FinishPc.test.inj h]
      rfl
    | load =>
      obtain ⟨hw, hok⟩ := hspec
      have hmem := Sys.runWaker_eq hw
      exact stay _ hok (by simp) rfl rfl hmem rfl
        (view (congrArg Waiters.waker hmem) rfl rfl rfl rfl rfl rfl rfl rfl)
    | loadVtable current data =>
      obtain ⟨hw, hok⟩ := hspec
      have hmem := Sys.runWaker_eq hw
      exact stay _ hok (by simp) rfl rfl hmem rfl
        (view (congrArg Waiters.waker hmem) rfl rfl rfl rfl rfl rfl rfl rfl)
    | exchange current data vtable =>
      obtain ⟨hw, hok⟩ := hspec
      have hmem := Sys.runWaker_eq hw
      exact stay _ hok (by simp) rfl rfl hmem rfl
        (view (congrArg Waiters.waker hmem) rfl rfl rfl rfl rfl rfl rfl rfl)
  | ret res =>
    rw [hflow] at hspec
    cases res with
    | cancelling =>
      obtain ⟨hw, rfl⟩ := hspec
      have hmem := Sys.runWaker_eq hw
      have hb : a.Blocked o.releasable := by
        rw [Protocol.State.Blocked, hl]
        exact Or.inl (hcan rfl)
      exact Or.inr ⟨_, .stop o ho hphase hb, hs.owner_phase hf rfl hot rfl rfl hmem rfl
        (view (congrArg Waiters.waker hmem) rfl rfl rfl rfl rfl rfl rfl rfl) rfl hr ⟨rfl, hlink⟩⟩
    | finished wake =>
      obtain ⟨hk, hw⟩ := hspec
      cases wake with
      | none =>
        exact refine_finished hs hi hf hw hk rfl rfl rfl (fun _ _ _ hp hok => ⟨hp, hok⟩) rfl rfl rfl
          rfl rfl rfl rfl rfl rfl
      | some wake =>
        exact refine_finished hs hi hf hw hk rfl rfl rfl (fun _ _ _ hp hok => ⟨hp, hok⟩) rfl rfl rfl
          rfl rfl rfl rfl rfl rfl
  | panic =>
    rw [hflow] at hspec
    exact hspec.elim

theorem refine_relink (hs : Sim s a) (hi : Inv a) {pop : Pop}
    (hf : s.frames t = .release r ret (.relink pop)) : Follows a (s.relink t r ret pop) := by
  obtain ⟨o, ho, hot, hrole, hr, hphase, hnext, hseg, hmiddle⟩ := hs.owner_of hi hf rfl
  have hnull : pop.next = null ↔ a.linked = [] := by
    rw [hnext]; exact first_eq_null_iff (hs.ne_null hi)
  refine Or.inl (hs.relink hi hf rfl ho hot rfl rfl rfl rfl
    ⟨rfl, rfl, rfl, rfl, rfl, rfl, rfl, rfl, rfl⟩ (fun y hy => ⟨rfl, ?_⟩) rfl hr
    ⟨hphase, hnext, ?_, ?_⟩)
  · split_ifs with hn
    · rfl
    · refine Function.update_of_ne ?_ _ _
      rintro rfl
      rw [hnext] at hy
      exact hy ((first_mem_or a.linked null).resolve_right fun he => hn (hnull.mpr he.1))
  · change (if pop.next = null then null else s.sem.middle) = _
    split_ifs with hn
    · rw [hnull.mp hn]; rfl
    · obtain ⟨y, l, hl⟩ := List.exists_cons_of_ne_nil fun he => hn (hnull.mpr he)
      rw [hmiddle, hl]; rfl
  · change Seg s.mem.next (if pop.next = null then s.mem.prev
      else update s.mem.prev pop.next null) null a.linked null
    split_ifs with hn
    · rw [hnull.mp hn]; trivial
    · rw [hnext]
      exact hseg.set_prev (linked_nodup hi) null

end WeightedSemaphore
