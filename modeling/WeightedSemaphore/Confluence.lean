import WeightedSemaphore.Lib.Logs
import WeightedSemaphore.Outcomes

/-!
# Concurrent releases are confluent

From a quiescent state, any number of calls to `release` run concurrently. However they share the
lock, defer to each other and split the permits over their passes, as long as nothing overflows they
finish the longest prefix of the queue that all permits together suffice for.
-/

namespace WeightedSemaphore

open Function (update update_self update_of_ne)
open Protocol (Inv HistOk Abstracts Change)
open Links

namespace Protocol

variable {ι ω : Type} {a : State ι ω}

/-- Identities name waiters, so every state has its granted amounts. -/
theorem HistOk.exists_granted (hh : HistOk a) : ∃ g, a.Granted g := by
  classical
  let g : ℕ → Option ℕ := fun u =>
    if h : ∃ x, a.life x = .finished false ∧ a.uid x = u then some (a.amount h.choose) else none
  refine ⟨g, fun x hx => ?_, fun u hu => ?_⟩
  · by_cases hl : a.life x = .finished false
    · have hex : ∃ y, a.life y = .finished false ∧ a.uid y = a.uid x := ⟨x, hl, rfl⟩
      have heq : hex.choose = x :=
        hh.uid_inj _ x (by rw [hex.choose_spec.1]; simp) hx hex.choose_spec.2
      simp only [g, dif_pos hex, if_pos hl, heq]
    · have hex : ¬ ∃ y, a.life y = .finished false ∧ a.uid y = a.uid x := by
        rintro ⟨y, hy, hu⟩
        obtain rfl := hh.uid_inj y x (by rw [hy]; simp) hx hu
        exact hl hy
      simp only [g, dif_neg hex, if_neg hl]
  · have hex : ¬ ∃ y, a.life y = .finished false ∧ a.uid y = u := by
      rintro ⟨y, hy, rfl⟩
      have := hh.uid_lt y (by rw [hy]; simp)
      omega
    simp only [g, dif_neg hex]

end Protocol

section

variable [Usize] {ι : Type}

namespace Act

def released : Act ι → Option ℕ
  | call _ (.release n) => some n
  | _ => none

def Releases : Act ι → Bool
  | call _ (.release _) => true
  | step _ _ => true
  | _ => false

end Act

variable [DecidableEq ι]

def ReleaseRun (s s' : Sys ι) (as : List ℕ) : Prop :=
  Runs.Steps (Runs.logged Sys.next fun _ act _ => act.released) (fun _ act => act.Releases = true)
    (s, []) (s', as)

/-- The first `k` waiters of the queue `q` have finished, with `n` more permits than `s` has; `k` is
as large as the permits allow. -/
structure Sys.Served (s : Sys ι) (q : List Ptr) (n k : ℕ) (s' : Sys ι) : Prop where
  le_length : k ≤ q.length
  enough : ((q.take k).map s.mem.amount).sum ≤ s.total + n
  longest : ∀ j ≤ q.length, ((q.take j).map s.mem.amount).sum ≤ s.total + n → j ≤ k
  outcomes : s'.ghost.hist.outcomes =
    s.ghost.hist.outcomes ++ (q.take k).map fun x => (s.ghost.uid x, false)
  queue : Path null s'.mem.next s'.sem.front (q.drop k)
  waits : ∀ x, s'.Waits x ↔ x ∈ q.drop k
  total : s'.total = s.total + n - ((q.take k).map s.mem.amount).sum
  sound : s'.Sound

/-- What a run of releases keeps: `A₀` is the queue from before, with `p` permits. -/
structure Releasing (s₀ : Sys ι) (A₀ : Fifo ℕ) (p : ℕ) (s : Sys ι) (as : List ℕ)
    (a : Protocol.State ι Ptr) (A : Fifo ℕ) : Prop where
  represents : Represents s a
  abstracts : Abstracts maxAvailable a A
  finished : A.finished = s.ghost.hist.outcomes
  serve : A.serve = ({ A₀ with permits := some (p + as.sum) } : Fifo ℕ).serve
  permits : ∃ m, A.permits = some m ∧ m ≤ p + as.sum
  frames : ∀ t, (s.frames t).isIdle = true ∨ ∃ r pc, s.frames t = .release r .caller pc
  live : s.live = s₀.live
  amount : s.mem.amount = s₀.mem.amount
  uid : s.ghost.uid = s₀.ghost.uid

variable {s₀ s s' : Sys ι} {A₀ A A' : Fifo ℕ} {a b : Protocol.State ι Ptr} {p n : ℕ} {as : List ℕ}
  {t : ι} {act : Act ι}

/-- As long as nothing overflows, the permits suffice for what the lock owner pops. -/
theorem Releasing.safe (h : Releasing s₀ A₀ p s as a A) : A.permits ≠ none := by
  obtain ⟨m, hm, -⟩ := h.permits
  simp [hm]

theorem Releasing.call (h : Releasing s₀ A₀ p s as a A) (hcap : p + (n :: as).sum ≤ maxAvailable)
    (hn : s.next (.call t (.release n)) = some s') :
    ∃ b A', Releasing s₀ A₀ p s' (n :: as) b A' := by
  have hrep := h.represents
  have hnext := hrep.next hn
  simp only [Sys.next] at hn
  split_ifs at hn
  obtain rfl := Option.some.inj hn
  obtain ⟨m, hm, hle⟩ := h.permits
  rw [List.sum_cons] at hcap
  rcases hnext with hr | ⟨b, hstep, hr⟩
  · have hh := hrep.sim.view.hist.symm.trans hr.sim.view.hist
    exact absurd hh (List.cons_ne_self _ _).symm
  obtain ⟨A', hchange, hA'⟩ := h.abstracts.step hstep hrep.inv hrep.hist fun _ _ _ _ _ _ => h.safe
  have hhist : b.hist = .released n :: a.hist := by
    rw [hr.sim.view.hist, hrep.sim.view.hist]
    rfl
  obtain rfl : A' = A.apply maxAvailable (.release n) := by
    cases hchange with
    | release k hk =>
      rw [hhist] at hk
      obtain rfl := Event.released.inj (List.cons.inj hk).1
      rfl
    | silent hk =>
      rcases hk with hk | ⟨e, hk, he⟩
      · exact absurd (hhist.symm.trans hk) (List.cons_ne_self _ _)
      · obtain ⟨rfl, -⟩ := List.cons.inj (hhist.symm.trans hk)
        exact he.elim
    | _ => simp_all
  refine ⟨b, _, hr, hA', h.finished, ?_, ⟨m + n, ?_, ?_⟩, fun u => ?_, h.live, h.amount, h.uid⟩
  · calc (A.apply maxAvailable (.release n)).serve
        = A.serve.step maxAvailable (.release n) := (Fifo.serve_release hm (by omega)).symm
      _ = ({ A₀ with permits := some (p + as.sum) } : Fifo ℕ).serve.step maxAvailable
            (.release n) := by rw [h.serve]
      _ = ({ A₀ with permits := some (p + as.sum) } : Fifo ℕ).step maxAvailable (.release n) :=
          Fifo.serve_release rfl (by omega)
      _ = ({ A₀ with permits := some (p + (n :: as).sum) } : Fifo ℕ).serve := by
          rw [Fifo.step, Fifo.apply, Tally.ofNat_of_le (show n ≤ maxAvailable by omega),
            Tally.add_some_some, Tally.ofNat_of_le (by omega), List.sum_cons, Nat.add_assoc,
            Nat.add_comm as.sum]
  · simp only [Fifo.apply, hm, Tally.ofNat_of_le (show n ≤ maxAvailable by omega),
      Tally.add_some_some]
    exact Tally.ofNat_of_le (by omega)
  · rw [List.sum_cons]
    omega
  · by_cases hu : u = t
    · subst hu
      exact Or.inr ⟨_, _, update_self ..⟩
    · change (update s.frames t _ u).isIdle = true ∨ ∃ r pc, update s.frames t _ u = _
      rw [update_of_ne hu]
      exact h.frames u

theorem Releasing.step {spurious : Bool} (h : Releasing s₀ A₀ p s as a A)
    (hn : s.next (.step t spurious) = some s') : ∃ b A', Releasing s₀ A₀ p s' as b A' := by
  have hrep := h.represents
  have hnext := hrep.next hn
  obtain ⟨r, pc, hf⟩ : ∃ r pc, s.frames t = .release r .caller pc := by
    rcases h.frames t with hidle | hf
    · cases hf : s.frames t with
      | idle ret => simp [Sys.next, Sys.step, hf] at hn
      | _ => simp [hf, Frame.isIdle] at hidle
    · exact hf
  rw [Sys.next_release hf] at hn
  obtain rfl := Option.some.inj hn
  have hin := release_inside s t r .caller spurious pc
  obtain ⟨f, hframes, hafter⟩ := Sys.release_next s t r .caller spurious pc
  generalize s.release t r .caller spurious pc = s' at hn hnext hin hframes
  have hother : ∀ u ≠ t, s'.frames u = s.frames u := fun u hu => by
    rw [hframes, update_of_ne hu]
  -- the thread that steps was not quiet, and no other thread changes
  have hrole : ∀ u, (s.frames u).role = .quiet → (s'.frames u).role = .quiet := by
    intro u hu
    by_cases hut : u = t
    · subst hut
      rw [hf] at hu
      simp only [Frame.role] at hu
      split_ifs at hu
    · rw [hother u hut]
      exact hu
  have hidle : ∀ b, Represents s' b → ∀ u,
      (s'.frames u).isIdle = true ∨ ∃ r pc, s'.frames u = .release r .caller pc := by
    intro b hr u
    by_cases hut : u = t
    · have hok := hr.sim.loc.ok u
      rw [hframes, hut, update_self] at hok ⊢
      cases f with
      | idle ret => exact Or.inl rfl
      | release r' ret' pc' =>
        obtain rfl : ret' = _ := hafter
        exact Or.inr ⟨r', pc', rfl⟩
      | panicked => exact hok.elim
      | dropFuture x pc =>
        cases pc with
        | waitCancel pc => cases pc <;> cases hafter
        | waker => cases hafter
        | _ => exact hafter.elim
      | _ => exact hafter.elim
    · rw [hother u hut]
      exact h.frames u
  have hlive := hin.live.trans h.live
  have hamount := hin.amount.trans h.amount
  have huid := hin.uid.trans h.uid
  rcases hnext with hr | ⟨b, hstep, hr⟩
  · refine ⟨a, A, hr, h.abstracts, ?_, h.serve, h.permits, hidle a hr, hlive, hamount, huid⟩
    rw [h.finished, ← hrep.sim.view.hist, hr.sim.view.hist]
  obtain ⟨A', hchange, hA'⟩ := h.abstracts.step hstep hrep.inv hrep.hist fun _ _ _ _ _ _ => h.safe
  obtain ⟨hserve, ⟨os, hfin, hout⟩, hperm⟩ :=
    hchange.during hrep.sim.view hr.sim.view hin.toDuring hrole
  obtain ⟨m, hm, hle⟩ := h.permits
  obtain ⟨m', hle', hm'⟩ := hperm m hm
  refine ⟨b, A', hr, hA', ?_, hserve.trans h.serve, ⟨m', hm', hle'.trans hle⟩, hidle b hr, hlive,
    hamount, huid⟩
  rw [hfin, h.finished, ← hrep.sim.view.hist, ← hout, hr.sim.view.hist]

theorem Releasing.run (h : Releasing s₀ A₀ p s₀ [] a A) (hrun : ReleaseRun s₀ s as)
    (hcap : p + as.sum ≤ maxAvailable) : ∃ b A', Releasing s₀ A₀ p s as b A' := by
  suffices ∀ q : Sys ι × List ℕ, Runs.Steps (Runs.logged Sys.next fun _ act _ => act.released)
      (fun _ act => act.Releases = true) (s₀, []) q → p + q.2.sum ≤ maxAvailable →
        ∃ b A', Releasing s₀ A₀ p q.1 q.2 b A' from this _ hrun hcap
  intro q hq
  refine hq.invariant (I := fun q => p + q.2.sum ≤ maxAvailable →
    ∃ b A', Releasing s₀ A₀ p q.1 q.2 b A') (fun q act q' hI hok hn hcap => ?_)
    fun _ => ⟨a, A, h⟩
  obtain ⟨hn, hw⟩ := Runs.logged_eq_some.mp hn
  rw [hw] at hcap ⊢
  cases act with
  | call t c =>
    cases c with
    | release n =>
      obtain ⟨b, B, hb⟩ := hI (by simp [Act.released] at hcap; omega)
      exact hb.call hcap hn
    | _ => cases hok
  | step t spurious =>
    obtain ⟨b, B, hb⟩ := hI hcap
    exact hb.step hn
  | _ => cases hok

omit [DecidableEq ι] in
theorem Sys.tally_eq_some (h : s.tally = some n) : s.Sound ∧ s.total = n := by
  obtain ⟨k, l, hk, hl, rfl, -⟩ := Tally.add_eq_some.mp h
  refine ⟨⟨?_, fun q hq => ?_⟩, ?_⟩
  · cases hw : s.sem.acquire.load with
    | available q =>
      rw [hw] at hk
      simpa [AcquireState.Poisoned, AcquireState.tally] using ne_of_eq_of_ne hk (by simp)
    | queued back => exact id
  · rw [hq] at hl
    exact ne_of_eq_of_ne hl (by simp)
  · have hacq : s.sem.acquire.load.permits = k := by
      cases hw : s.sem.acquire.load with
      | available q => rw [hw] at hk; exact congrArg Tally.count hk
      | queued back => rw [hw] at hk; exact Option.some.inj hk
    have hrel : s.sem.release.load.permits = l := by
      cases hw : s.sem.release.load with
      | locked => rw [hw] at hl; exact Option.some.inj hl
      | _ => rw [hw] at hl; exact congrArg Tally.count hl
    rw [Sys.total, hacq, hrel]

theorem Reachable.tally_of_sound {initial : ℕ} (h : Reachable initial s) (hq : s.Quiescent)
    (hsound : s.Sound) (hcap : s.total ≤ maxAvailable) : s.tally = some s.total := by
  obtain ⟨a, hr⟩ := h.represents
  obtain ⟨p, hp⟩ := (hr.at_rest hq).unlocked
  have hacq : s.sem.acquire.load.tally ≠ none ∧
      Tally.count s.sem.acquire.load.tally = s.sem.acquire.load.permits := by
    cases hw : s.sem.acquire.load with
    | available q =>
      have := hsound.1
      rw [hw] at this
      exact ⟨this, rfl⟩
    | queued back => exact ⟨by simp [AcquireState.tally], rfl⟩
  have hrel : s.sem.release.load.tally ≠ none ∧
      Tally.count s.sem.release.load.tally = s.sem.release.load.permits := by
    rw [hp]
    exact ⟨hsound.2 p hp, rfl⟩
  rw [Sys.tally, Tally.add_of_le maxAvailable hacq.1 hrel.1 (by rw [hacq.2, hrel.2]; exact hcap),
    hacq.2, hrel.2]
  rfl

omit [DecidableEq ι] in
/-- Lists of different waiters have different identities. -/
theorem Represents.eq_of_uid (hr : Represents s a) {l l' : List Ptr} (hl : ∀ x ∈ l, x ∈ s.live)
    (hl' : ∀ x ∈ l', x ∈ s.live) (heq : l.map s.ghost.uid = l'.map s.ghost.uid) : l = l' := by
  induction l generalizing l' with
  | nil =>
    cases l' with
    | nil => rfl
    | cons y l' => simp at heq
  | cons x l ih =>
    cases l' with
    | nil => simp at heq
    | cons y l' =>
      rw [List.map_cons, List.map_cons, List.cons.injEq] at heq
      have hne {z : Ptr} (hz : z ∈ s.live) : a.life z ≠ .absent :=
        (hr.inv.live z).mp (by rwa [hr.sim.view.live])
      have hxy := hr.hist.uid_inj x y (hne (hl x List.mem_cons_self))
        (hne (hl' y List.mem_cons_self)) (by rw [hr.sim.view.uid]; exact heq.1)
      rw [hxy, ih (fun z hz => hl z (List.mem_cons_of_mem x hz))
        (fun z hz => hl' z (List.mem_cons_of_mem y hz)) heq.2]

/-- The outcome of a run of releases depends on nothing but the sum of their amounts: they finish
the longest prefix of the queue that all permits suffice for. -/
theorem releases_confluent {initial : ℕ} (h : Reachable initial s) (hq : s.Quiescent)
    (hsound : s.Sound) {q : List Ptr} (hpath : Path null s.mem.next s.sem.front q)
    (hcap : s.total + n ≤ maxAvailable) :
    ∃ k, ∀ s' as, ReleaseRun s s' as → as.sum = n → s'.Quiescent → s.Served q n k s' := by
  obtain ⟨a, hr⟩ := h.represents
  have ho := hr.sim.owner_of_quiescent hq
  have hrole (t : ι) : a.role t = .quiet := (hr.sim.view.role t).trans (Frame.role_idle (hq t))
  obtain ⟨g, hg⟩ := hr.hist.exists_granted
  let A : Fifo ℕ := ⟨some s.total, a.waiting, g, s.ghost.hist.outcomes⟩
  have htally := h.tally_of_sound hq hsound (by omega)
  have hA : Abstracts maxAvailable a A := by
    have hholds := hr.holds_tally ho hrole
    rw [htally] at hholds
    exact ⟨hholds, rfl, hg⟩
  have hstart : Releasing s A s.total s [] a A :=
    ⟨hr, hA, rfl, rfl, ⟨_, rfl, le_refl _⟩, fun t => Or.inl (hq t), rfl, rfl, rfl⟩
  obtain ⟨hlinked, hqueue⟩ := hr.linked hA ho hrole
  have hql : a.linked = q := hlinked.unique hpath
  have hamounts : A.queue.map Prod.snd = q.map s.mem.amount := by
    rw [hqueue, hql, List.map_map]
    rfl
  refine ⟨Fifo.prefixLength (s.total + n) (q.map s.mem.amount), fun s' as hrun hsum hq' => ?_⟩
  set k := Fifo.prefixLength (s.total + n) (q.map s.mem.amount) with hk
  obtain ⟨b, B, hb⟩ := hstart.run hrun (by rw [hsum]; exact hcap)
  have hob := hb.represents.sim.owner_of_quiescent hq'
  have hroleb (t : ι) : b.role t = .quiet :=
    (hb.represents.sim.view.role t).trans (Frame.role_idle (hq' t))
  have hserve := hb.serve
  rw [Fifo.serve_of_settled (hb.represents.settled hb.abstracts hob hroleb), hsum] at hserve
  obtain ⟨hpermits, hrest, hfinished⟩ :=
    Fifo.serveFrom_prefix (q := A.queue) (A := { A with permits := some (s.total + n) }) rfl
  rw [hamounts, ← hk] at hpermits hrest hfinished
  have hpermits' : B.permits = _ := (congrArg Fifo.permits hserve).trans hpermits
  have hrest' : B.queue = _ := (congrArg Fifo.queue hserve).trans hrest
  have hfinished' : B.finished = _ := (congrArg Fifo.finished hserve).trans hfinished
  obtain ⟨hlinkedb, hqueueb⟩ := hb.represents.linked hb.abstracts hob hroleb
  have hlive {s : Sys ι} {a : Protocol.State ι Ptr} (hr : Represents s a) (x : Ptr)
      (hx : x ∈ a.linked) : x ∈ s.live := by
    rw [← hr.sim.view.live, hr.inv.live]
    exact hr.inv.queue_ne_absent (by simp [Protocol.State.queue, hx])
  have hdrop : b.linked = q.drop k := by
    refine hb.represents.eq_of_uid (hlive hb.represents) (fun x hx => ?_) ?_
    · rw [hb.live]
      exact hlive hr x (hql ▸ List.mem_of_mem_drop hx)
    · have huids := congrArg (List.map Prod.fst) (hqueueb.symm.trans hrest')
      rw [hqueue, hql, ← List.map_drop, List.map_map, List.map_map] at huids
      rw [hb.uid] at huids ⊢
      exact huids
  have htally' : s'.tally = some (s.total + n - ((q.take k).map s.mem.amount).sum) := by
    rw [← hb.represents.tally hb.abstracts hob hroleb, hpermits', List.map_take]
  obtain ⟨hsound', htotal'⟩ := Sys.tally_eq_some htally'
  constructor
  case le_length => simpa using Fifo.prefixLength_le (s.total + n) (q.map s.mem.amount)
  case enough =>
    rw [List.map_take]
    exact Fifo.sum_prefixLength_le _ _
  case longest =>
    intro j hj hsumj
    rw [List.map_take] at hsumj
    exact Fifo.le_prefixLength (by simpa using hj) hsumj
  case outcomes =>
    rw [← hb.finished, hfinished', hqueue, hql, ← List.map_take, List.map_map]
    rfl
  case queue => rwa [hdrop] at hlinkedb
  case waits =>
    intro x
    rw [hb.represents.waits_iff hob hroleb, hdrop]
  case total => exact htotal'
  case sound => exact hsound'

end

attribute [local instance] usize64

def twoWaiters : Sys Bool :=
  Runs.final Sys.next
    ([.acquire (usize64.ptr 0) 2, .call false (.poll (usize64.ptr 0))] ++ Act.steps false 20 ++
      [.acquire (usize64.ptr 1) 4, .call false (.poll (usize64.ptr 1))] ++ Act.steps false 20)
    (Sys.init 0) (by decide +kernel)

def deferredSchedule : List (Act Bool) :=
  [.call false (.release 1)] ++ Act.steps false 3 ++ [.call true (.release 4)] ++
    Act.steps true 2 ++ Act.steps false 20

def deferredRelease : Sys Bool × List ℕ :=
  Runs.final (Runs.logged Sys.next fun _ act _ => act.released) deferredSchedule (twoWaiters, [])
    (by decide +kernel)

theorem releases_confluent_deferred :
    twoWaiters.Served [usize64.ptr 0, usize64.ptr 1] 5 1 deferredRelease.1 ∧
      deferredRelease.1.total = 3 := by
  have hr : Reachable 0 twoWaiters := Runs.reaches_final _
  have hq : twoWaiters.Quiescent := by intro t; cases t <;> decide +kernel
  have htally : twoWaiters.tally = some 0 := by decide +kernel
  obtain ⟨hsound, htotal⟩ := Sys.tally_eq_some htally
  have hpath : Path null twoWaiters.mem.next twoWaiters.sem.front
      [usize64.ptr 0, usize64.ptr 1] := by
    refine ⟨by decide +kernel, by decide +kernel, by decide +kernel, by decide +kernel, ?_⟩
    change twoWaiters.mem.next (usize64.ptr 1) = null
    decide +kernel
  have hexec : Runs.exec (Runs.logged Sys.next fun _ act _ => act.released) deferredSchedule
      (twoWaiters, []) = some deferredRelease := Runs.exec_final _
  have hrun : ReleaseRun twoWaiters deferredRelease.1 deferredRelease.2 := by
    refine Runs.steps_of_exec hexec fun act hact _ => ?_
    exact List.all_eq_true.mp
      (by decide +kernel : deferredSchedule.all Act.Releases = true) act hact
  have hq' : deferredRelease.1.Quiescent := by intro t; cases t <;> decide +kernel
  obtain ⟨k, hk⟩ := releases_confluent hr hq hsound hpath (n := 5) (by
    rw [htotal, maxAvailable_eq]
    decide +kernel)
  have hserved := hk _ _ hrun (by decide +kernel) hq'
  have htotal' : deferredRelease.1.total = 3 := by decide +kernel
  have hlow : 1 ≤ k := hserved.longest 1 (by decide) (by rw [htotal]; decide +kernel)
  have hhigh : k ≠ 2 := by
    rintro rfl
    have := hserved.enough
    rw [htotal] at this
    exact absurd this (by decide +kernel)
  have hlen := hserved.le_length
  obtain rfl : k = 1 := by
    simp only [List.length_cons, List.length_nil] at hlen
    omega
  exact ⟨hserved, htotal'⟩

end WeightedSemaphore
