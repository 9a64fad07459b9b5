import WeightedSemaphore.Erasure
import WeightedSemaphore.RefinePop

/-!
# The walk comes to every waiter once

A waiter is still to be visited while it is pushed and not taken, or lies ahead of the walk. The
other threads leave the `prev` edges of the queue alone, so what lies ahead only shrinks.
-/

namespace WeightedSemaphore

open Function (update)
open Protocol (Inv HistOk Life)
open Links
open Deed (visits)

namespace Protocol

variable {ι ω : Type} [DecidableEq ι] [DecidableEq ω] {cap : ℕ} {a b : State ι ω} {x : ω}

theorem pushed_step (h : Step cap a b) (hi : Inv a) (hh : HistOk a) (hx : x ∈ b.pushed) :
    x ∈ a.pushed ∧ b.uid x = a.uid x ∨ b.uid x ∉ History.arrivals a.hist := by
  have hsame (hp : b.pushed = a.pushed) (hu : b.uid = a.uid) :
      x ∈ a.pushed ∧ b.uid x = a.uid x ∨ b.uid x ∉ History.arrivals a.hist :=
    Or.inl ⟨hp ▸ hx, by rw [hu]⟩
  cases h with
  | create y n hy =>
    have hxq : x ∈ a.queue := by
      simp only [State.queue, List.mem_append, List.mem_reverse]
      exact Or.inr hx
    have hne : x ≠ y := fun he => by
      rcases hi.queue.life_mem x hxq with h | h <;> rw [he, hy] at h <;> cases h
    exact Or.inl ⟨hx, Function.update_of_ne hne _ _⟩
  | fast n m hacq hn => simp [State.pushed] at hx
  | fastPoll y m hacq hy hn => simp [State.pushed] at hx
  | enter t y n pushed hr hy hacq =>
    simp only [State.pushed, List.mem_cons] at hx
    rcases hx with rfl | hx
    · exact Or.inr (hh.entering x hy)
    · rcases hacq with ⟨-, -, rfl⟩ | ⟨hacq, -⟩
      · cases hx
      · exact Or.inl ⟨by simpa [State.pushed, hacq] using hx, rfl⟩
  | flipAvailable o ho hp hacq hl => simp [State.pushed] at hx
  | flipAdd o q ho hp hacq => simp [State.pushed] at hx
  | flipTake o pushed ho hp hacq hpush => simp [State.pushed] at hx
  | _ => exact hsame rfl rfl

omit [DecidableEq ι] [DecidableEq ω] in
theorem HistOk.queue_arrived (hh : HistOk a) (hx : x ∈ a.queue) :
    a.uid x ∈ History.arrivals a.hist := by
  refine (History.pending_sublist a.hist).subset ?_
  rw [hh.pending]
  exact List.mem_map_of_mem hx

end Protocol

variable [Usize] {ι : Type} [DecidableEq ι] {s s' : Sys ι} {t : ι} {spurious : Bool} {r : Permits}
  {ret : Cont} {x : Ptr}

section Frame

structure SameEdges (s s' : Sys ι) (x : Ptr) : Prop where
  prev : s'.mem.prev x = s.mem.prev x
  uid : s'.ghost.uid x = s.ghost.uid x

omit [DecidableEq ι] in
theorem SameEdges.of_eq (hp : s'.mem.prev = s.mem.prev) (hu : s'.ghost.uid = s.ghost.uid) :
    SameEdges s s' x :=
  ⟨by rw [hp], by rw [hu]⟩

theorem sameEdges_tryAcquire (amount : ℕ) (pc : TryAcquirePc) :
    SameEdges s (s.tryAcquire t amount spurious pc) x := by
  cases pc with
  | load => exact .of_eq rfl rfl
  | loop current =>
    cases current with
    | queued back => exact .of_eq rfl rfl
    | available q =>
      simp only [Sys.tryAcquire]
      cases q.intoUsize with
      | none => exact .of_eq rfl rfl
      | some n =>
        dsimp only
        split_ifs
        · exact .of_eq rfl rfl
        · split <;> exact .of_eq rfl rfl

theorem sameEdges_pollEnter {a : Ptr} (hne : x ≠ a) (pc : EnterPc) :
    SameEdges s (s.pollEnter t a spurious pc) x := by
  cases pc with
  | load => exact .of_eq rfl rfl
  | loop current =>
    cases current with
    | queued back => exact .of_eq rfl rfl
    | available q =>
      simp only [Sys.pollEnter]
      cases q.intoUsize with
      | none => exact .of_eq rfl rfl
      | some n =>
        dsimp only
        split_ifs
        · split <;> exact .of_eq rfl rfl
        · exact .of_eq rfl rfl
  | poll current available back tok pc =>
    simp only [Sys.pollEnter]
    split <;> exact .of_eq rfl rfl
  | push current available back =>
    simp only [Sys.pollEnter]
    split <;> exact ⟨Function.update_of_ne hne _ _, rfl⟩

theorem sameEdges_pollWaiting (a : Ptr) (tok : ℕ) (pc : AtomicWaker.PollPc) :
    SameEdges s (s.pollWaiting t a tok spurious pc) x := by
  simp only [Sys.pollWaiting]
  split <;> exact .of_eq rfl rfl

theorem sameEdges_afterRelease (s : Sys ι) (ret : Cont) : SameEdges s (s.afterRelease t ret) x := by
  cases ret <;> exact .of_eq rfl rfl

theorem sameEdges_lock {pc : ReleasePc ι} (hl : pc.locks = true) :
    SameEdges s (s.release t r ret spurious pc) x := by
  cases pc with
  | lockLoad => exact .of_eq rfl rfl
  | lock current =>
    simp only [Sys.release, Sys.lockOrElseDefer]
    cases current <;> dsimp only <;> split
    · exact .of_eq rfl rfl
    · exact .of_eq rfl rfl
    · exact ⟨(sameEdges_afterRelease _ ret).prev, (sameEdges_afterRelease _ ret).uid⟩
    · exact .of_eq rfl rfl
    · exact ⟨(sameEdges_afterRelease _ ret).prev, (sameEdges_afterRelease _ ret).uid⟩
    · exact .of_eq rfl rfl
  | _ => cases hl

theorem sameEdges_dropFuture {a : Ptr} {pc : DropPc}
    (h : s.dropFuture t a spurious pc = some s') : SameEdges s s' x := by
  cases pc with
  | startCancel pc =>
    simp only [Sys.dropFuture] at h
    split at h <;> obtain rfl := Option.some.inj h <;> exact .of_eq rfl rfl
  | loadCancel =>
    obtain rfl := Option.some.inj h
    exact .of_eq rfl rfl
  | pushCancel current =>
    simp only [Sys.dropFuture] at h
    split at h <;> obtain rfl := Option.some.inj h <;> exact .of_eq rfl rfl
  | waitCancel pc =>
    cases pc with
    | load =>
      simp only [Sys.dropFuture] at h
      split at h <;> obtain rfl := Option.some.inj h <;> exact .of_eq rfl rfl
    | park =>
      simp only [Sys.dropFuture] at h
      split_ifs at h
      obtain rfl := Option.some.inj h
      exact .of_eq rfl rfl
  | waker =>
    simp only [Sys.dropFuture] at h
    split at h <;> obtain rfl := Option.some.inj h <;> exact .of_eq rfl rfl

theorem sameEdges_call {c : Call} (h : s.call t c = some s') : SameEdges s s' x := by
  cases c with
  | poll a =>
    simp only [Sys.call] at h
    split_ifs at h
    cases hst : s.mem.step a <;> rw [hst] at h <;> obtain rfl := Option.some.inj h <;>
      exact .of_eq rfl rfl
  | dropFuture a =>
    simp only [Sys.call] at h
    split_ifs at h
    cases hst : s.mem.step a <;> rw [hst] at h <;> obtain rfl := Option.some.inj h <;>
      exact .of_eq rfl rfl
  | dropGuard i =>
    simp only [Sys.call] at h
    split at h
    · cases h
    · split_ifs at h <;> obtain rfl := Option.some.inj h <;> exact .of_eq rfl rfl
  | _ =>
    obtain rfl := Option.some.inj h
    exact .of_eq rfl rfl

/-- Only the lock owner touches the edges of waiters past their first poll. -/
theorem sameEdges_next {act : Act ι} (hloc : Local s) (h : s.next act = some s')
    (hown : ∀ t spurious r ret pc, act = .step t spurious → s.frames t = .release r ret pc →
      pc.locks = true)
    (hx : x ∈ s.live) (hst : s.mem.step x ≠ .entering) : SameEdges s s' x := by
  cases act with
  | call t c =>
    simp only [Sys.next] at h
    split_ifs at h
    exact sameEdges_call h
  | step t spurious =>
    simp only [Sys.next, Sys.step] at h
    cases hf : s.frames t with
    | idle ret => simp [hf] at h
    | panicked => simp [hf] at h
    | tryAcquire amount pc =>
      rw [hf] at h
      obtain rfl := Option.some.inj h
      exact sameEdges_tryAcquire amount pc
    | pollEnter a pc =>
      rw [hf] at h
      obtain rfl := Option.some.inj h
      have hok := hloc.ok t
      rw [hf] at hok
      have hne : x ≠ a := by
        rintro rfl
        exact hst hok.1
      exact sameEdges_pollEnter hne pc
    | pollWaiting a tok pc =>
      rw [hf] at h
      obtain rfl := Option.some.inj h
      exact sameEdges_pollWaiting a tok pc
    | release r ret pc =>
      rw [hf] at h
      obtain rfl := Option.some.inj h
      exact sameEdges_lock (hown t spurious r ret pc rfl hf)
    | dropFuture a pc =>
      rw [hf] at h
      exact sameEdges_dropFuture h
  | acquire a amount =>
    simp only [Sys.next, Sys.acquire] at h
    split_ifs at h with ha
    obtain rfl := Option.some.inj h
    have hne : x ≠ a := by
      rintro rfl
      exact ha.1 hx
    exact ⟨Function.update_of_ne hne _ _, Function.update_of_ne hne _ _⟩
  | forget i =>
    simp only [Sys.next, Sys.forget] at h
    split at h
    · cases h
    · obtain rfl := Option.some.inj h
      exact .of_eq rfl rfl
  | setPanicking t panicking =>
    simp only [Sys.next] at h
    split_ifs at h
    obtain rfl := Option.some.inj h
    exact .of_eq rfl rfl

end Frame

section Walk

/-- The walk begins at the back of the pushed waiters, and goes on along `prev`. -/
theorem release_walk {pc : ReleasePc ι} {r' : Permits} {ret' : Cont} {p back waiter : Ptr}
    (h : (s.release t r ret spurious pc).frames t = .release r' ret' (.walk p back waiter)) :
    (∀ x, SameEdges s (s.release t r ret spurious pc) x) ∧
      (pc = .flip p (.queued back) ∧ waiter = back ∧ s.sem.acquire.load = .queued back ∨
        ∃ w, pc = .walk p back w ∧ w ≠ null ∧ s.mem.prev w = waiter) := by
  cases pc with
  | lock current =>
    simp only [Sys.release, Sys.lockOrElseDefer] at h
    cases current <;> dsimp only at h <;> split at h
    · simp [Sys.goto] at h
    · simp [Sys.goto] at h
    · cases ret <;> simp [Sys.afterRelease, Sys.goto] at h
    · simp [Sys.goto] at h
    · cases ret <;> simp [Sys.afterRelease, Sys.goto] at h
    · simp [Sys.goto] at h
  | flip q current =>
    simp only [Sys.release, Sys.flip] at h ⊢
    cases current with
    | available q =>
      dsimp only at h
      split at h
      · split_ifs at h <;> simp [Sys.goto] at h
      · simp [Sys.goto] at h
    | queued b =>
      dsimp only at h ⊢
      split_ifs at h ⊢
      · split at h <;> simp [Sys.goto] at h
      · simp [Sys.goto] at h
      · cases hc : s.sem.acquire.cmpxchgWeak (.queued b) (.queued null) spurious with
        | none => simp [hc, Sys.goto] at h
        | some acquire =>
          obtain ⟨hold, -, -⟩ := Atomic.cmpxchgWeak_eq_some hc
          simp only [hc, Sys.goto, Function.update_self, Frame.release.injEq,
            ReleasePc.walk.injEq] at h
          obtain ⟨-, -, rfl, rfl, rfl⟩ := h
          refine ⟨fun x => .of_eq rfl rfl, Or.inl ⟨rfl, rfl, ?_⟩⟩
          rw [hold, Atomic.load_new]
          rfl
  | walk q b w =>
    simp only [Sys.release, Sys.walk] at h ⊢
    split_ifs at h ⊢ with h₁ h₂ h₃
    · simp [Sys.goto] at h
    · simp [Sys.goto] at h
    · simp [Sys.goto] at h
    · simp only [Sys.goto, Function.update_self, Frame.release.injEq, ReleasePc.walk.injEq] at h
      obtain ⟨-, -, rfl, rfl, hw⟩ := h
      exact ⟨fun x => .of_eq rfl rfl, Or.inr ⟨w, rfl, h₁, hw⟩⟩
  | cancel q =>
    simp only [Sys.release, Sys.cancel] at h
    split_ifs at h <;> simp [Sys.goto] at h
  | accept w q pc =>
    simp only [Sys.release, Sys.accept] at h
    split at h <;> simp [Sys.goto] at h
  | tryPop =>
    simp only [Sys.release, Sys.tryPop] at h
    split_ifs at h
    · simp [Sys.goto] at h
    · split at h
      · split_ifs at h <;> simp [Sys.goto] at h
      · simp [Sys.goto] at h
  | finish pop pc =>
    simp only [Sys.release, Sys.finish] at h
    split at h <;> simp [Sys.goto] at h
  | unlock current =>
    simp only [Sys.release, Sys.tryUnlock] at h
    cases current with
    | unlocked q => simp [Sys.goto] at h
    | locked =>
      dsimp only at h
      split at h
      · cases ret <;> simp [Sys.afterRelease, Sys.goto] at h
      · simp [Sys.goto] at h
    | lockedDirty q => dsimp only at h; split at h <;> simp [Sys.goto] at h
  | _ => simp [Sys.release, Sys.goto, Sys.relink] at h

omit [DecidableEq ι] in
/-- A deed visits a waiter only in the walk. -/
theorem ReleasePc.deed_visits (s : Sys ι) (f : Frame ι) {pc : ReleasePc ι} {u : ℕ}
    (h : (pc.deed s f).visited? = some u) :
    ∃ p back waiter, pc = .walk p back waiter ∧ waiter ≠ null ∧ s.ghost.uid waiter = u := by
  cases pc with
  | walk p back waiter =>
    by_cases hnull : waiter = null
    · simp [deed, hnull, Deed.visited?] at h
    · simp only [deed, hnull, if_false, Deed.visited?, Option.some.injEq] at h
      exact ⟨p, back, waiter, rfl, hnull, h⟩
  | lock current => simp only [deed] at h; split at h <;> cases h
  | flip p current => simp only [deed] at h; split at h <;> cases h
  | unlock current => simp only [deed] at h; split at h <;> cases h
  | cancel p => simp only [deed] at h; split_ifs at h <;> cases h
  | tryPop =>
    simp only [deed] at h
    split at h
    · split_ifs at h <;> cases h
    · cases h
  | accept waker p pc =>
    cases pc <;> simp only [deed] at h
    · cases h
    · split at h <;> cases h
    · cases h
  | finish pop pc =>
    cases pc <;> simp only [deed] at h
    · cases h
    · split at h <;> cases h
    · cases h
    · split at h <;> cases h
  | _ => cases h

omit [DecidableEq ι] in
theorem Sys.deed_visits {act : Act ι} {u : ℕ} (h : u ∈ visits (s.deed act s').toList) :
    ∃ t spurious r ret p back waiter, act = .step t spurious ∧
      s.frames t = .release r ret (.walk p back waiter) ∧ waiter ≠ null ∧
      s.ghost.uid waiter = u ∧ visits (s.deed act s').toList = [u] := by
  obtain ⟨e, he, hu⟩ := List.mem_filterMap.mp h
  have hd : s.deed act s' = some e := Option.mem_toList.mp he
  have hv : visits (s.deed act s').toList = [u] := by simp [visits, hd, hu]
  rw [hv]
  cases act with
  | step t spurious =>
    simp only [deed] at hd
    cases hf : s.frames t with
    | release r ret pc =>
      rw [hf] at hd
      obtain rfl := Option.some.inj hd
      obtain ⟨p, back, waiter, rfl, hne, huid⟩ := ReleasePc.deed_visits s _ hu
      exact ⟨t, spurious, r, ret, p, back, waiter, rfl, hf, hne, huid, rfl⟩
    | pollEnter a pc =>
      rw [hf] at hd
      cases pc with
      | push current available back =>
        dsimp only at hd
        split at hd
        · obtain rfl := Option.some.inj hd
          cases hu
        · cases hd
      | _ => cases hd
    | _ => rw [hf] at hd; cases hd
  | call t c =>
    obtain rfl := Option.some.inj hd
    cases hu
  | _ => cases hd

end Walk

section Invariant

variable {a b : Protocol.State ι Ptr} {w : List Deed} {p back waiter : Ptr} {l : List Ptr}

omit [DecidableEq ι] in
/-- What lies ahead of the walk is part of the linked queue. -/
theorem Sim.walk_ahead (hs : Sim s a) (hi : Inv a)
    (hf : s.frames t = .release r ret (.walk p back waiter)) :
    ∃ rest, Path null s.mem.prev waiter (waiter :: rest) ∧ (∀ x ∈ waiter :: rest, x ∈ a.linked) ∧
      (waiter :: rest).Nodup := by
  obtain ⟨o, ho, hot, hrole, hr, hphase, htaken, old, rest, done, hlinked, hq, hne, hpath, -⟩ :=
    hs.owner_of hi hf rfl
  have hnd := linked_nodup hi
  rw [hlinked] at hnd
  refine ⟨rest, ⟨rfl, hne, hpath⟩, fun x hx => ?_, ?_⟩
  · rw [hlinked]
    simp only [List.mem_cons] at hx
    simp only [List.mem_append, List.mem_reverse, List.mem_cons]
    tauto
  · have hrest := (List.nodup_append.mp hnd).2.1
    obtain ⟨hrev, -, hdisj⟩ := List.nodup_append.mp hrest
    refine List.nodup_cons.mpr ⟨fun hm => ?_, List.nodup_reverse.mp hrev⟩
    exact hdisj waiter (List.mem_reverse.mpr hm) waiter (by simp) rfl

omit [DecidableEq ι] in
theorem Frame.release_of_stage {f : Frame ι} (h : f.stage ≠ .outside) :
    ∃ r ret pc, f = .release r ret pc := by
  cases f with
  | release r ret pc => exact ⟨r, ret, pc, rfl⟩
  | _ => exact absurd rfl h

structure Visiting (s : Sys ι) (a : Protocol.State ι Ptr) (w : List Deed) : Prop where
  nodup : (visits w).Nodup
  known : ∀ u ∈ visits w, u ∈ History.arrivals a.hist
  pushed : ∀ x ∈ a.pushed, a.uid x ∉ visits w
  walking : ∀ t r ret p back waiter l, s.frames t = .release r ret (.walk p back waiter) →
    Path null s.mem.prev waiter l → ∀ x ∈ l, a.uid x ∉ visits w

omit [DecidableEq ι] in
/-- Distinct waiters of the queue have distinct identities. -/
theorem uid_ne_of_queue (hh : HistOk a) (hi : Inv a) {y : Ptr} (hx : x ∈ a.queue)
    (hy : y ∈ a.queue) (hne : x ≠ y) : a.uid x ≠ a.uid y := fun he =>
  hne (hh.uid_inj x y (hi.queue_ne_absent hx) (hi.queue_ne_absent hy) he)

omit [DecidableEq ι] in
theorem mem_queue_of_pushed (hx : x ∈ a.pushed) : x ∈ a.queue := by
  simp only [Protocol.State.queue, List.mem_append, List.mem_reverse]
  exact Or.inr hx

omit [DecidableEq ι] in
theorem mem_queue_of_linked (hx : x ∈ a.linked) : x ∈ a.queue :=
  List.mem_append_left _ hx

omit [DecidableEq ι] in
theorem Visiting.deed (hv : Visiting s a w) (hr : Represents s a) {act : Act ι} {u : ℕ}
    (hu : u ∈ visits (s.deed act s').toList) :
    u ∉ visits w ∧ visits (s.deed act s').toList = [u] ∧ ∃ x ∈ a.linked, a.uid x = u := by
  obtain ⟨t, spurious, r, ret, p, back, waiter, -, hf, -, hwu, heq⟩ := Sys.deed_visits hu
  obtain ⟨rest, hpath, hlinked, -⟩ := hr.sim.walk_ahead hr.inv hf
  have huid : a.uid waiter = u := by rw [hr.sim.view.uid]; exact hwu
  refine ⟨?_, heq, waiter, hlinked waiter (by simp), huid⟩
  rw [← huid]
  exact hv.walking t r ret p back waiter _ hf hpath waiter (by simp)

theorem Visiting.pushed_next (hv : Visiting s a w) (hr : Represents s a) {act : Act ι}
    (hab : b = a ∨ Protocol.Step maxAvailable a b) (hx : x ∈ b.pushed) :
    b.uid x ∉ visits ((s.deed act s').toList ++ w) := by
  have hold : x ∈ a.pushed ∧ b.uid x = a.uid x ∨ b.uid x ∉ History.arrivals a.hist := by
    rcases hab with rfl | hstep
    · exact Or.inl ⟨hx, rfl⟩
    · exact Protocol.pushed_step hstep hr.inv hr.hist hx
  simp only [visits, List.filterMap_append, List.mem_append, not_or]
  constructor
  · intro hu
    obtain ⟨-, -, y, hy, hyu⟩ := hv.deed hr hu
    have hyq := mem_queue_of_linked hy
    rcases hold with ⟨hxa, hxu⟩ | hnew
    · have hne : x ≠ y := by
        rintro rfl
        exact pushed_disjoint hr.inv hxa hy
      refine uid_ne_of_queue hr.hist hr.inv (mem_queue_of_pushed hxa) hyq hne ?_
      rw [hyu, hxu]
    · exact hnew (hyu ▸ hr.hist.queue_arrived hyq)
  · intro hu
    rcases hold with ⟨hxa, hxu⟩ | hnew
    · exact hv.pushed x hxa (hxu ▸ hu)
    · exact hnew (hv.known _ hu)

theorem Visiting.walking_next (hv : Visiting s a w) (hr : Represents s a) (hr' : Represents s' b)
    {act : Act ι} (hn : s.next act = some s')
    (hf : s'.frames t = .release r ret (.walk p back waiter))
    (hp : Path null s'.mem.prev waiter l) (hx : x ∈ l) :
    b.uid x ∉ visits ((s.deed act s').toList ++ w) := by
  rw [hr'.sim.view.uid]
  simp only [visits, List.filterMap_append, List.mem_append, not_or]
  by_cases hact : ∃ spurious, act = .step t spurious
  · -- the thread itself is a step further on its walk
    obtain ⟨spurious, rfl⟩ := hact
    obtain ⟨r₀, ret₀, pc₀, hf₀⟩ := Frame.release_of_stage (by
      have hm := (Sys.step_performs hn).moves
      rw [hf] at hm
      exact hm.inside)
    simp only [Sys.next, Sys.step] at hn
    rw [hf₀] at hn
    obtain rfl := Option.some.inj hn
    obtain ⟨hedges, ⟨rfl, rfl, hload⟩ | ⟨w₀, rfl, hw₀, hprev⟩⟩ := release_walk hf
    · have hpath : Path null s.mem.prev waiter l := hp.congr fun y _ => (hedges y).prev.symm
      have hxa : x ∈ a.pushed := (hr.sim.words.acq_pushed hload).unique hpath ▸ hx
      rw [(hedges x).uid, ← hr.sim.view.uid]
      refine ⟨fun hu => ?_, hv.pushed x hxa⟩
      obtain ⟨t', sp, r', ret', p', back', w', hact, hf', -⟩ := Sys.deed_visits hu
      cases hact
      cases hf₀.symm.trans hf'
    · have hpath : Path null s.mem.prev w₀ (w₀ :: l) :=
        ⟨rfl, hw₀, hprev ▸ hp.congr fun y _ => (hedges y).prev.symm⟩
      obtain ⟨rest, hrest, hlinked, hnd⟩ := hr.sim.walk_ahead hr.inv hf₀
      obtain rfl := (List.cons.inj (hrest.unique hpath)).2
      rw [(hedges x).uid, ← hr.sim.view.uid]
      refine ⟨fun hu => ?_, hv.walking t _ _ _ _ _ _ hf₀ hpath x (by simp [hx])⟩
      obtain ⟨t', sp, r', ret', p', back', w', hact, hf', -, hwu, -⟩ := Sys.deed_visits hu
      cases hact
      cases hf₀.symm.trans hf'
      have hne : x ≠ w₀ := by
        rintro rfl
        exact (List.nodup_cons.mp hnd).1 hx
      rw [← hr.sim.view.uid] at hwu
      exact uid_ne_of_queue hr.hist hr.inv (mem_queue_of_linked (hlinked x (by simp [hx])))
        (mem_queue_of_linked (hlinked w₀ (by simp))) hne hwu.symm
  · -- somebody else acts, who does not own the lock
    push Not at hact
    have hf₀ : s.frames t = .release r ret (.walk p back waiter) := by
      refine (Sys.next_frames_of_ne hn ?_ hact).symm.trans hf
      rintro c rfl
      simp only [Sys.next] at hn
      split_ifs at hn with hidle
      have hm := (performs_call hidle hn).moves
      rw [hf] at hm
      refine hm.inside ?_
      cases hft : s.frames t <;> simp only [hft, Frame.isIdle, reduceCtorEq] at hidle
      rfl
    obtain ⟨o, ho, hot, -⟩ := hr.sim.owner_of hr.inv hf₀ rfl
    have hown (u : ι) (sp : Bool) (r' : Permits) (ret' : Cont) (pc' : ReleasePc ι)
        (hu : act = .step u sp) (hfu : s.frames u = .release r' ret' pc') : pc'.locks = true := by
      by_contra hl
      obtain ⟨o', ho', hot', -⟩ := hr.sim.owner_of hr.inv hfu (by simpa using hl)
      obtain rfl := Option.some.inj (ho.symm.trans ho')
      exact hact sp (by rw [hu, ← hot', hot])
    obtain ⟨rest, hpath, hlinked, -⟩ := hr.sim.walk_ahead hr.inv hf₀
    have hedges (y : Ptr) (hy : y ∈ waiter :: rest) : SameEdges s s' y := by
      have hlife := hr.inv.queue.life_mem y (mem_queue_of_linked (hlinked y hy))
      rw [hr.sim.view.life] at hlife
      obtain ⟨hlive, hstep, -⟩ := Sys.lifeOf_reachable (s := s) (x := y) rfl (by tauto)
      exact sameEdges_next hr.sim.loc hn hown hlive (by simp [hstep])
    obtain rfl := (hpath.congr fun y hy => (hedges y hy).prev).unique hp
    rw [(hedges x hx).uid, ← hr.sim.view.uid]
    refine ⟨fun hu => ?_, hv.walking t _ _ _ _ _ _ hf₀ hpath x hx⟩
    obtain ⟨t', sp, r', ret', p', back', w', rfl, hf', -⟩ := Sys.deed_visits hu
    cases hown t' sp _ _ _ rfl hf'

/-- The walk comes to no waiter twice, and to pushed ones only. -/
theorem Visiting.next (hv : Visiting s a w) (hr : Represents s a) (hr' : Represents s' b)
    {act : Act ι} (hab : b = a ∨ Protocol.Step maxAvailable a b) (hn : s.next act = some s') :
    Visiting s' b ((s.deed act s').toList ++ w) where
  nodup := by
    simp only [visits, List.filterMap_append]
    refine List.nodup_append.mpr ⟨?_, hv.nodup, fun u hu v hw he => ?_⟩
    · cases hd : s.deed act s' with
      | none => exact List.nodup_nil
      | some e => cases he : e.visited? <;> simp [he]
    · subst he
      exact (hv.deed hr hu).1 hw
  known u hu := by
    obtain ⟨es, hes, -⟩ := Sys.next_mirrored hn
    rw [hr'.sim.view.hist, hes, History.arrivals_append, ← hr.sim.view.hist]
    simp only [visits, List.filterMap_append, List.mem_append] at hu
    refine List.mem_append_left _ ?_
    rcases hu with hu | hu
    · obtain ⟨-, -, y, hy, rfl⟩ := hv.deed hr hu
      exact hr.hist.queue_arrived (mem_queue_of_linked hy)
    · exact hv.known u hu
  pushed x hx := hv.pushed_next hr hab hx
  walking t r ret p back waiter l hf hp x hx := hv.walking_next hr hr' hn hf hp hx

theorem visiting_of_run {initial : ℕ}
    (h : Runs.Reaches (Runs.logged Sys.next Sys.deed) (Sys.init initial, []) (s, w)) :
    ∃ a, Represents s a ∧ Visiting s a w := by
  refine h.logged_invariant (I := fun s w => ∃ a, Represents s a ∧ Visiting s a w)
    (fun s w act s' _ ⟨a, hr, hv⟩ hn => ?_) ⟨_, Represents.init initial, ?_⟩
  · rcases hr.next hn with hr' | ⟨b, hstep, hr'⟩
    · exact ⟨a, hr', hv.next hr hr' (Or.inl rfl) hn⟩
    · exact ⟨b, hr', hv.next hr hr' (Or.inr hstep) hn⟩
  · constructor <;> simp [visits]

end Invariant

end WeightedSemaphore
