import WeightedSemaphore.References

/-!
# Steps keep the count

Every action of a semaphore behind an `Arc` changes the strong count and the references alike.
-/

namespace WeightedSemaphore

open Function (update update_self update_of_ne)

variable [Usize] {ι : Type} [DecidableEq ι]

namespace ArcOp

def Calls : ArcOp → Prop
  | borrow _ => True
  | tryAcquire _ _ => True
  | poll _ => True
  | dropInner _ => True
  | dropGuard => True
  | _ => False

end ArcOp

namespace Counted

variable {initial : ℕ} {s s' : Counted ι} {t : ι} {op : ArcOp} {b : Bool}

structure Counts (initial : ℕ) (s : Counted ι) : Prop where
  reachable : Reachable initial s.sys
  strong : ∃ n, Locals s.ops n ∧
    s.strong = s.clones.card + s.futures.card + s.guards.length + n
  borrows : Borrows s.ops s.borrowers s.clones
  polls : Polls s.ops s.poller s.futures
  held : ∀ guard ∈ s.guards, guard.semaphore = some ()
  fresh : ∀ c ∈ s.clones, c < s.nextClone
  live : ∀ a ∈ s.futures, a ∈ s.sys.live ∧ ∀ t, (s.sys.frames t).dropping ≠ some a

namespace Counts

theorem init (initial : ℕ) : Counts initial (Counted.init initial : Counted ι) where
  reachable := .refl
  strong := ⟨0, ⟨∅, rfl, fun t => by simp [Counted.init, ArcOp.owns]⟩, rfl⟩
  borrows := ⟨by simp [Counted.init, ArcOp.clone], by simp [Counted.init]⟩
  polls := ⟨by simp [Counted.init, ArcOp.polling], by simp [Counted.init]⟩
  held := by simp [Counted.init]
  fresh := by simp [Counted.init]
  live := by simp [Counted.init]

theorem goto (h : Counts initial s) (hclone : op.clone = (s.ops t).clone)
    (hpoll : op.polling = (s.ops t).polling) (howns : op.owns = (s.ops t).owns) :
    Counts initial (s.goto t op) := by
  obtain ⟨n, hn, hs⟩ := h.strong
  exact { h with
    strong := ⟨n, hn.still howns, hs⟩
    borrows := h.borrows.still hclone
    polls := h.polls.still hpoll }

theorem borrow (h : Counts initial s) (ht : s.ops t = .idle) {c : ℕ} (hc : c ∈ s.clones)
    (hclone : op.clone = some c) (hpoll : op.polling = none) (howns : op.owns = false) :
    Counts initial ((s.borrow t c).goto t op) := by
  obtain ⟨n, hn, hs⟩ := h.strong
  exact { h with
    strong := ⟨n, hn.still (by rw [howns, ht]; rfl), hs⟩
    borrows := h.borrows.take hc hclone
    polls := h.polls.still (by rw [hpoll, ht]; rfl) }

theorem unborrow (h : Counts initial s) {c : ℕ} (hpoll : (s.ops t).polling = none)
    (howns : (s.ops t).owns = false) : Counts initial ((s.unborrow t c).goto t .idle) := by
  obtain ⟨n, hn, hs⟩ := h.strong
  exact { h with
    strong := ⟨n, hn.still howns.symm, hs⟩
    borrows := h.borrows.give rfl
    polls := h.polls.still hpoll.symm }

theorem poll (h : Counts initial s) (ht : s.ops t = .idle) {a : Ptr} (ha : a ∈ s.futures)
    (hnone : s.poller a = none) : Counts initial ((s.setPoller a (some t)).goto t (.poll a)) := by
  obtain ⟨n, hn, hs⟩ := h.strong
  exact { h with
    strong := ⟨n, hn.still (by rw [ht]; rfl), hs⟩
    borrows := h.borrows.still (by rw [ht]; rfl)
    polls := h.polls.take ha hnone rfl }

theorem unpoll (h : Counts initial s) {a : Ptr} (hpoll : (s.ops t).polling = some a)
    (hclone : (s.ops t).clone = none) (howns : (s.ops t).owns = false) :
    Counts initial ((s.setPoller a none).goto t .idle) := by
  obtain ⟨n, hn, hs⟩ := h.strong
  exact { h with
    strong := ⟨n, hn.still howns.symm, hs⟩
    borrows := h.borrows.still hclone.symm
    polls := h.polls.give hpoll rfl }

theorem newGuard (h : Counts initial s) (amount : ℕ) :
    Counts initial (s.incr.newGuard t amount) := by
  obtain ⟨n, hn, hs⟩ := h.strong
  refine { h with strong := ⟨n, hn, ?_⟩, held := ?_ }
  · change s.strong + 1 = s.clones.card + s.futures.card + (s.guards.length + 1) + n
    omega
  · intro guard hg
    rcases List.mem_cons.mp hg with rfl | hg
    · rfl
    · exact h.held guard hg

theorem sys (h : Counts initial s) {act : WeightedSemaphore.Act ι} {sys : Sys ι}
    (hn : s.sys.next act = some sys)
    (hlive : ∀ a ∈ s.futures, a ∈ sys.live ∧ ∀ t, (sys.frames t).dropping ≠ some a) :
    Counts initial { s with sys } :=
  { h with reachable := h.reachable.tail act trivial hn, live := hlive }

theorem forgetGuard (h : Counts initial s) {amount : ℕ} (hg : s.forgetGuard = some (amount, s')) :
    Counts initial s' ∧ s'.sys.frames = s.sys.frames ∧ s'.sys.mem = s.sys.mem ∧
      s'.strong = s.strong ∧ s'.ops = s.ops := by
  simp only [Counted.forgetGuard] at hg
  split at hg
  · cases hg
  · obtain ⟨sys, hn, hsys⟩ := Option.map_eq_some_iff.mp hg
    obtain ⟨-, rfl⟩ := Prod.mk.inj hsys
    have hsame : sys.frames = s.sys.frames ∧ sys.live = s.sys.live ∧ sys.mem = s.sys.mem := by
      simp only [Sys.next, Sys.forget] at hn
      split at hn
      · cases hn
      · obtain rfl := Option.some.inj hn
        exact ⟨rfl, rfl, rfl⟩
    refine ⟨h.sys hn fun a ha => ?_, hsame.1, hsame.2.2, rfl, rfl⟩
    rw [hsame.1, hsame.2.1]
    exact h.live a ha

structure Resumed (initial : ℕ) (s s' : Counted ι) (t : ι) : Prop where
  counts : Counts initial s'
  frames : s'.sys.frames = s.sys.frames
  mem : s'.sys.mem = s.sys.mem
  strong : s'.strong = s.strong
  ops : ∃ op, s'.ops = update s.ops t op
  op : (s'.ops t).Frames (s'.sys.frames t)

theorem Resumed.goto {s₁ : Counted ι} (h : Counts initial (s₁.goto t op))
    (hframes : s₁.sys.frames = s.sys.frames) (hmem : s₁.sys.mem = s.sys.mem)
    (hstrong : s₁.strong = s.strong) (hops : s₁.ops = s.ops) (hop : op.Frames (s.sys.frames t)) :
    Resumed initial s (s₁.goto t op) t where
  counts := h
  frames := hframes
  mem := hmem
  strong := hstrong
  ops := ⟨op, by rw [← hops]; rfl⟩
  op := by
    have hself : (s₁.goto t op).ops t = op := update_self ..
    have hsame : (s₁.goto t op).sys.frames = s.sys.frames := hframes
    rw [hself, hsame]
    exact hop

theorem Resumed.same (h : Counts initial s) (hop : (s.ops t).Frames (s.sys.frames t)) :
    Resumed initial s s t :=
  ⟨h, rfl, rfl, rfl, ⟨s.ops t, (Function.update_eq_self ..).symm⟩, hop⟩

/-- When a method of the semaphore returns, its caller goes on. -/
theorem resume (h : Counts initial s) (hcalls : (s.ops t).Calls)
    (hdrop : ∀ a, s.ops t = .dropInner a →
      (s.sys.frames t).dropping = some a ∨ (s.sys.frames t).isIdle = true)
    (hn : s.resume t = some s') : Resumed initial s s' t := by
  cases hf : s.sys.frames t with
  | idle ret =>
    have hidle : (s.sys.frames t).isIdle = true := by rw [hf]; rfl
    have hforget {f : ℕ → ArcOp} (hclone : ∀ n, (f n).clone = (s.ops t).clone)
        (hpoll : ∀ n, (f n).polling = (s.ops t).polling) (howns : ∀ n, (f n).owns = (s.ops t).owns)
        (hframes : ∀ n, (f n).Frames (s.sys.frames t))
        (hg : (s.forgetGuard.map fun p => p.2.goto t (f p.1)) = some s') :
        Resumed initial s s' t := by
      obtain ⟨⟨amount, s₁⟩, hs₁, rfl⟩ := Option.map_eq_some_iff.mp hg
      obtain ⟨hcounts, hsame, hmem, hstrong, hops⟩ := h.forgetGuard hs₁
      refine .goto (hcounts.goto ?_ ?_ ?_) hsame hmem hstrong hops (hframes amount)
      · rw [hops, hclone]
      · rw [hops, hpoll]
      · rw [hops, howns]
    cases hop : s.ops t with
    | borrow c =>
      simp only [Counted.resume, hop, hf] at hn
      obtain rfl := Option.some.inj hn
      exact .goto (h.unborrow (by rw [hop]; rfl) (by rw [hop]; rfl)) rfl rfl rfl rfl hidle
    | tryAcquire c amount =>
      have hback : Resumed initial s ((s.unborrow t c).goto t .idle) t :=
        .goto (h.unborrow (by rw [hop]; rfl) (by rw [hop]; rfl)) rfl rfl rfl rfl hidle
      cases ret with
      | acquired =>
        simp only [Counted.resume, hop, hf] at hn
        exact hforget (f := fun _ => .cloneSelf c amount) (fun _ => by rw [hop]; rfl)
          (fun _ => by rw [hop]; rfl) (fun _ => by rw [hop]; rfl) (fun _ => hidle) hn
      | _ =>
        simp only [Counted.resume, hop, hf] at hn
        obtain rfl := Option.some.inj hn
        exact hback
    | poll a =>
      have hback : Resumed initial s ((s.setPoller a none).goto t .idle) t :=
        .goto (h.unpoll (by rw [hop]; rfl) (by rw [hop]; rfl) (by rw [hop]; rfl))
          rfl rfl rfl rfl hidle
      cases ret with
      | ready =>
        simp only [Counted.resume, hop, hf] at hn
        exact hforget (f := fun n => .cloneArc a (some n)) (fun _ => by rw [hop]; rfl)
          (fun _ => by rw [hop]; rfl) (fun _ => by rw [hop]; rfl) (fun _ => hidle) hn
      | readyErr =>
        simp only [Counted.resume, hop, hf] at hn
        obtain rfl := Option.some.inj hn
        exact .goto (h.goto (by rw [hop]; rfl) (by rw [hop]; rfl) (by rw [hop]; rfl))
          rfl rfl rfl rfl hidle
      | _ =>
        simp only [Counted.resume, hop, hf] at hn
        obtain rfl := Option.some.inj hn
        exact hback
    | dropInner a =>
      simp only [Counted.resume, hop, hf] at hn
      obtain rfl := Option.some.inj hn
      exact .goto (h.goto (by rw [hop]; rfl) (by rw [hop]; rfl) (by rw [hop]; rfl))
        rfl rfl rfl rfl hidle
    | dropGuard =>
      simp only [Counted.resume, hop, hf] at hn
      obtain rfl := Option.some.inj hn
      exact .goto (h.goto (by rw [hop]; rfl) (by rw [hop]; rfl) (by rw [hop]; rfl))
        rfl rfl rfl rfl hidle
    | _ => rw [hop] at hcalls; exact hcalls.elim
  | _ =>
    have hsame : s' = s := by
      cases hop : s.ops t with
      | borrow c => simpa [Counted.resume, hop, hf] using hn.symm
      | tryAcquire c amount => simpa [Counted.resume, hop, hf] using hn.symm
      | poll a => simpa [Counted.resume, hop, hf] using hn.symm
      | dropInner a => simpa [Counted.resume, hop, hf] using hn.symm
      | dropGuard => simpa [Counted.resume, hop, hf] using hn.symm
      | _ => rw [hop] at hcalls; exact hcalls.elim
    rw [hsame]
    refine .same h ?_
    cases hop : s.ops t with
    | dropInner a =>
      refine (hdrop a hop).resolve_right ?_
      rw [hf]
      exact Bool.false_ne_true
    | borrow c => trivial
    | tryAcquire c amount => trivial
    | poll a => trivial
    | dropGuard => trivial
    | _ => rw [hop] at hcalls; exact hcalls.elim

end Counts

structure Ok (initial : ℕ) (s : Counted ι) : Prop extends Counts initial s where
  frames : ∀ t, (s.ops t).Frames (s.sys.frames t)

namespace Ok

theorem init (initial : ℕ) : Ok initial (Counted.init initial : Counted ι) :=
  ⟨.init initial, fun _ => rfl⟩

theorem loc (h : Ok initial s) : Local s.sys := by
  obtain ⟨a, hr⟩ := h.reachable.represents
  exact hr.sim.loc

/-- The frames of the other threads, and that of `t` after the action. -/
theorem of_inner {act : WeightedSemaphore.Act ι} (h : Counts initial s)
    (hother : ∀ u, u ≠ t → (s.ops u).Frames (s.sys.frames u)) (hcalls : (s.ops t).Calls)
    (hlive : ∀ sys, s.sys.next act = some sys →
      ∀ a ∈ s.futures, a ∈ sys.live ∧ ∀ u, (sys.frames u).dropping ≠ some a)
    (hframe : ∀ sys, s.sys.next act = some sys → ∃ f, sys.frames = update s.sys.frames t f ∧
      ∀ a, s.ops t = .dropInner a → f.dropping = some a ∨ f.isIdle = true)
    (hn : s.inner t act = some s') :
    Ok initial s' ∧ ∃ sys, s.sys.next act = some sys ∧ s'.sys.frames = sys.frames ∧
      s'.sys.mem = sys.mem ∧ s'.strong = s.strong := by
  obtain ⟨sys, hsys, hres⟩ := Option.bind_eq_some_iff.mp hn
  obtain ⟨f, hf, hdrop⟩ := hframe sys hsys
  have hcounts := h.sys hsys (hlive sys hsys)
  have hself : sys.frames t = f := by rw [hf, update_self]
  have hr := hcounts.resume hcalls (fun a ha => by rw [hself]; exact hdrop a ha) hres
  refine ⟨⟨hr.counts, fun u => ?_⟩, sys, hsys, hr.frames, hr.mem, hr.strong⟩
  by_cases hut : u = t
  · rw [hut]
    exact hr.op
  · obtain ⟨op, hops⟩ := hr.ops
    rw [hr.frames, hops, update_of_ne hut]
    simp only [hf, update_of_ne hut]
    exact hother u hut

/-- A step inside of a method of the semaphore. -/
theorem inner_step (h : Ok initial s) (hcalls : (s.ops t).Calls)
    (hn : s.inner t (.step t b) = some s') :
    Ok initial s' ∧ ∃ sys, s.sys.step t b = some sys ∧ s'.sys.frames = sys.frames ∧
      s'.sys.mem = sys.mem ∧ s'.strong = s.strong := by
  refine of_inner h.toCounts (fun u _ => h.frames u) hcalls ?_ ?_ hn
  · intro sys hsys a ha
    obtain ⟨hlive, hnot⟩ := h.live a ha
    refine ⟨(Sys.step_live hsys hlive).resolve_right (hnot t), fun u => ?_⟩
    obtain ⟨f, hf, hd⟩ := Sys.step_dropping hsys
    by_cases hut : u = t
    · subst hut
      rw [hf, update_self]
      rcases hd with hd | hd | rfl
      · rw [hd]
        exact hnot u
      · simp [Frame.dropping_idle hd]
      · exact (Option.some_ne_none a).symm
    · rw [hf, update_of_ne hut]
      exact hnot u
  · intro sys hsys
    obtain ⟨f, hf, hd⟩ := Sys.step_dropping hsys
    refine ⟨f, hf, fun a ha => ?_⟩
    have hframe := h.frames t
    rw [ha] at hframe
    rcases hd with hd | hd | rfl
    · exact Or.inl (hd.trans hframe)
    · exact Or.inr hd
    · have hreach : Reachable initial sys := h.reachable.tail (.step t b) trivial hsys
      refine absurd ?_ (hreach.not_panicked t)
      rw [hf, update_self]

/-- A method of the semaphore is called that drops no future. -/
theorem inner_call {c : Call} (h : Counts initial s)
    (hother : ∀ u, u ≠ t → (s.ops u).Frames (s.sys.frames u)) (hcalls : (s.ops t).Calls)
    (hop : ∀ a, s.ops t ≠ .dropInner a) (hc : ∀ a, c ≠ .dropFuture a)
    (hn : s.inner t (.call t c) = some s') :
    Ok initial s' ∧ ∃ sys, s.sys.next (.call t c) = some sys ∧ s'.sys.frames = sys.frames ∧
      s'.sys.mem = sys.mem ∧ s'.strong = s.strong := by
  have hcall : ∀ sys, s.sys.next (.call t c) = some sys →
      ∃ f, sys.frames = update s.sys.frames t f ∧ sys.live = s.sys.live ∧ f.dropping = none := by
    intro sys hsys
    simp only [Sys.next] at hsys
    split_ifs at hsys
    obtain ⟨f, hf, hlive, -, hd⟩ := Sys.call_dropping hsys
    refine ⟨f, hf, hlive, ?_⟩
    cases c with
    | dropFuture a => exact absurd rfl (hc a)
    | _ => exact hd
  refine of_inner h hother hcalls ?_ ?_ hn
  · intro sys hsys a ha
    obtain ⟨f, hf, hlive, hd⟩ := hcall sys hsys
    obtain ⟨ha', hnot⟩ := h.live a ha
    refine ⟨hlive ▸ ha', fun u => ?_⟩
    by_cases hut : u = t
    · subst hut
      rw [hf, update_self, hd]
      exact (Option.some_ne_none a).symm
    · rw [hf, update_of_ne hut]
      exact hnot u
  · intro sys hsys
    obtain ⟨f, hf, -⟩ := hcall sys hsys
    exact ⟨f, hf, fun a ha => absurd ha (hop a)⟩

/-- The destructor of a future goes on with its field `inner`. -/
theorem inner_dropFuture {a : Ptr} (h : Counts initial s)
    (hother : ∀ u, u ≠ t → (s.ops u).Frames (s.sys.frames u)) (hop : s.ops t = .dropInner a)
    (ha : a ∉ s.futures) (hn : s.inner t (.call t (.dropFuture a)) = some s') :
    Ok initial s' ∧ ∃ f, s'.sys.frames = update s.sys.frames t f ∧ s'.sys.mem = s.sys.mem ∧
      s'.strong = s.strong ∧ (f.Lingers s.sys.mem → s.sys.mem.step a = .waiting ∧
        (s.sys.mem.waker a).state.load ≠ .finished true) := by
  have hcall : ∀ sys, s.sys.next (.call t (.dropFuture a)) = some sys →
      ∃ f, sys.frames = update s.sys.frames t f ∧ sys.live = s.sys.live ∧
        sys.mem = s.sys.mem ∧ f.dropping = some a ∧ (f.Lingers s.sys.mem →
          s.sys.mem.step a = .waiting ∧ (s.sys.mem.waker a).state.load ≠ .finished true) := by
    intro sys hsys
    simp only [Sys.next] at hsys
    split_ifs at hsys
    obtain ⟨f, hf, hlive, hmem, hd, -, hl⟩ := Sys.call_dropping hsys
    exact ⟨f, hf, hlive, hmem, hd, hl⟩
  have hcalls : (s.ops t).Calls := by rw [hop]; trivial
  have hlive : ∀ sys, s.sys.next (.call t (.dropFuture a)) = some sys →
      ∀ b ∈ s.futures, b ∈ sys.live ∧ ∀ u, (sys.frames u).dropping ≠ some b := by
    intro sys hsys b hb
    obtain ⟨f, hf, hlive, -, hd, -⟩ := hcall sys hsys
    obtain ⟨hb', hnot⟩ := h.live b hb
    refine ⟨hlive ▸ hb', fun u => ?_⟩
    by_cases hut : u = t
    · subst hut
      rw [hf, update_self, hd]
      rintro ⟨⟩
      exact ha hb
    · rw [hf, update_of_ne hut]
      exact hnot u
  have hframe : ∀ sys, s.sys.next (.call t (.dropFuture a)) = some sys →
      ∃ f, sys.frames = update s.sys.frames t f ∧
        ∀ b, s.ops t = .dropInner b → f.dropping = some b ∨ f.isIdle = true := by
    intro sys hsys
    obtain ⟨f, hf, -, -, hd, -⟩ := hcall sys hsys
    refine ⟨f, hf, fun b hb => Or.inl ?_⟩
    rw [hop] at hb
    obtain rfl := ArcOp.dropInner.inj hb
    exact hd
  obtain ⟨hok, sys, hsys, hframes, hmem, hstrong⟩ := of_inner h hother hcalls hlive hframe hn
  obtain ⟨f, hf, -, hmem', -, hl⟩ := hcall sys hsys
  exact ⟨hok, f, hframes.trans hf, hmem.trans hmem', hstrong, hl⟩

theorem goto_frames (h : Ok initial s) (hop : op.Frames (s.sys.frames t)) (u : ι) :
    (update s.ops t op u).Frames (s.sys.frames u) := by
  by_cases hut : u = t
  · subst hut
    rwa [update_self]
  · rw [update_of_ne hut]
    exact h.frames u

theorem step (h : Ok initial s) (hn : s.step t b = some s') : Ok initial s' := by
  obtain ⟨n, hloc, hs⟩ := h.strong
  have hframe := h.frames t
  cases hop : s.ops t with
  | idle => simp [Counted.step, hop] at hn
  | cloneSelf c amount =>
    simp only [Counted.step, hop] at hn
    obtain rfl := Option.some.inj hn
    rw [hop] at hframe
    refine ⟨?_, h.goto_frames hframe⟩
    refine (h.newGuard amount).unborrow ?_ ?_
    · change (s.ops t).polling = none
      rw [hop]
      rfl
    · change (s.ops t).owns = false
      rw [hop]
      rfl
  | cloneArc a guard =>
    rw [hop] at hframe
    cases guard with
    | some amount =>
      simp only [Counted.step, hop] at hn
      obtain rfl := Option.some.inj hn
      refine ⟨?_, h.goto_frames hframe⟩
      refine (h.newGuard amount).unpoll ?_ ?_ ?_
      · change (s.ops t).polling = some a
        rw [hop]
        rfl
      · change (s.ops t).clone = none
        rw [hop]
        rfl
      · change (s.ops t).owns = false
        rw [hop]
        rfl
    | none =>
      simp only [Counted.step, hop] at hn
      obtain rfl := Option.some.inj hn
      refine ⟨{ h with strong := ?_, borrows := ?_, polls := ?_ }, h.goto_frames hframe⟩
      · refine ⟨n + 1, hloc.take (by rw [hop]; rfl) rfl, ?_⟩
        change s.strong + 1 = s.clones.card + s.futures.card + s.guards.length + (n + 1)
        omega
      · exact h.borrows.still (by rw [hop]; rfl)
      · exact h.polls.still (by rw [hop]; rfl)
  | dropClone a =>
    rw [hop] at hframe
    simp only [Counted.step, hop] at hn
    obtain rfl := Option.some.inj hn
    have hpos := hloc.pos (t := t) (by rw [hop]; rfl)
    refine ⟨{ h with strong := ?_, borrows := ?_, polls := ?_ }, h.goto_frames hframe⟩
    · refine ⟨n - 1, hloc.give (by rw [hop]; rfl) rfl, ?_⟩
      change s.strong - 1 = s.clones.card + s.futures.card + s.guards.length + (n - 1)
      omega
    · exact h.borrows.still (by rw [hop]; rfl)
    · exact h.polls.give (by rw [hop]; rfl) rfl
  | dropSemaphore =>
    rw [hop] at hframe
    simp only [Counted.step, hop] at hn
    obtain rfl := Option.some.inj hn
    have hpos := hloc.pos (t := t) (by rw [hop]; rfl)
    refine ⟨{ h with strong := ?_, borrows := ?_, polls := ?_ }, h.goto_frames hframe⟩
    · refine ⟨n - 1, hloc.give (by rw [hop]; rfl) rfl, ?_⟩
      change s.strong - 1 = s.clones.card + s.futures.card + s.guards.length + (n - 1)
      omega
    · exact h.borrows.still (by rw [hop]; rfl)
    · exact h.polls.still (by rw [hop]; rfl)
  | borrow c =>
    simp only [Counted.step, hop] at hn
    exact (h.inner_step (by rw [hop]; trivial) hn).1
  | tryAcquire c amount =>
    simp only [Counted.step, hop] at hn
    exact (h.inner_step (by rw [hop]; trivial) hn).1
  | poll a =>
    simp only [Counted.step, hop] at hn
    exact (h.inner_step (by rw [hop]; trivial) hn).1
  | dropInner a =>
    simp only [Counted.step, hop] at hn
    exact (h.inner_step (by rw [hop]; trivial) hn).1
  | dropGuard =>
    simp only [Counted.step, hop] at hn
    exact (h.inner_step (by rw [hop]; trivial) hn).1

end Ok

end Counted

end WeightedSemaphore
