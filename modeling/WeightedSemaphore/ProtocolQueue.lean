import WeightedSemaphore.Lib.Fifo
import WeightedSemaphore.ProtocolHistory
import WeightedSemaphore.ProtocolPermits

/-!
# The protocol as a queue that is served from a counter

Wherever the permits of a protocol state are, in a word, with the lock owner or with a thread on its
way into `release`, they make up one counter, and the waiters that have not given up make up one
queue. A step of the protocol moves permits about, pops the head of that queue, or is one of the
operations of `Fifo`.
-/

namespace WeightedSemaphore

/-- Events that leave the counter, and the queue of those who have not given up, as they are. -/
def Event.Silent : Event → Prop
  | .unlinked _ => True
  | .cancelled _ => True
  | .forgot _ => True
  | _ => False

namespace Protocol

open Function (update update_self update_of_ne update_eq_self)

variable {ι ω : Type}

namespace State

def total [DecidableEq ι] (cap : ℕ) (T : Finset ι) (a : State ι ω) : Tally :=
  Tally.add cap a.acq.permits (Tally.add cap a.rel.permits (Tally.add cap a.ownerPermits
    (Tally.sum cap T fun t => (a.role t).permits)))

def Holds [DecidableEq ι] (cap : ℕ) (p : Tally) (a : State ι ω) : Prop :=
  ∃ T : Finset ι, a.CarriedBy T ∧ p = a.total cap T

def waiting (a : State ι ω) : List (ℕ × ℕ) :=
  (a.queue.filter fun x => a.life x = .queued).map fun x => (a.uid x, a.amount x)

def Granted (g : ℕ → Option ℕ) (a : State ι ω) : Prop :=
  (∀ x, a.life x ≠ .absent →
    g (a.uid x) = if a.life x = .finished false then some (a.amount x) else none) ∧
  ∀ u, a.nextUid ≤ u → g u = none

end State

variable [DecidableEq ι] {cap : ℕ} {a b : State ι ω} {A : Fifo ℕ} {p p' : Tally} {t : ι} {x : ω}

/-- `A` is the queue and the counter that the protocol's state stands for. -/
structure Abstracts (cap : ℕ) (a : State ι ω) (A : Fifo ℕ) : Prop where
  permits : a.Holds cap A.permits
  queue : A.queue = a.waiting
  granted : a.Granted A.granted

section Holds

theorem State.Holds.mem (h : a.Holds cap p) (t : ι) :
    ∃ T : Finset ι, t ∈ T ∧ a.CarriedBy T ∧ p = a.total cap T := by
  obtain ⟨T, hT, rfl⟩ := h
  refine ⟨insert t T, Finset.mem_insert_self t T, fun u hu => ?_, ?_⟩
  · exact hT u fun hm => hu (Finset.mem_insert_of_mem hm)
  · unfold State.total
    rw [Tally.sum_subset (Finset.subset_insert t T) fun u _ hu => by rw [hT u hu]]

/-- The counter is the same wherever the sum over the threads is cut off. -/
theorem State.Holds.unique (h : a.Holds cap p) (h' : a.Holds cap p') : p = p' := by
  obtain ⟨T, hT, rfl⟩ := h
  obtain ⟨T', hT', rfl⟩ := h'
  unfold State.total
  have hleft : T ⊆ T ∪ T' := Finset.subset_union_left
  have hright : T' ⊆ T ∪ T' := Finset.subset_union_right
  rw [← Tally.sum_subset hleft fun u _ hu => hT u hu,
    ← Tally.sum_subset hright fun u _ hu => hT' u hu]

theorem State.Holds.same (h : a.Holds cap p) (hrole : b.role = a.role)
    (heq : ∀ s, Tally.add cap (some 0) s = s →
      p = Tally.add cap a.acq.permits
        (Tally.add cap a.rel.permits (Tally.add cap a.ownerPermits s)) →
      p' = Tally.add cap b.acq.permits
        (Tally.add cap b.rel.permits (Tally.add cap b.ownerPermits s))) :
    b.Holds cap p' := by
  obtain ⟨T, hT, hp⟩ := h
  refine ⟨T, fun t ht => hrole ▸ hT t ht, ?_⟩
  have := heq _ Tally.zero_sum hp
  unfold State.total
  rw [hrole]
  exact this

/-- A step of thread `t`. -/
theorem State.Holds.role {r : Role ω} (h : a.Holds cap p) (hrole : b.role = update a.role t r)
    (heq : ∀ s, Tally.add cap (some 0) s = s →
      p = Tally.add cap a.acq.permits (Tally.add cap a.rel.permits (Tally.add cap a.ownerPermits
        (Tally.add cap (a.role t).permits s))) →
      p' = Tally.add cap b.acq.permits (Tally.add cap b.rel.permits (Tally.add cap b.ownerPermits
        (Tally.add cap r.permits s)))) : b.Holds cap p' := by
  obtain ⟨T, ht, hT, hp⟩ := h.mem t
  have hsum : Tally.sum cap (T.erase t) (fun u => (b.role u).permits) =
      Tally.sum cap (T.erase t) fun u => (a.role u).permits :=
    Tally.sum_congr fun u hu => by rw [hrole, update_of_ne (Finset.ne_of_mem_erase hu)]
  refine ⟨T, fun u hu => ?_, ?_⟩
  · rw [hrole, update_of_ne (by rintro rfl; exact hu ht)]
    exact hT u hu
  · unfold State.total at hp ⊢
    rw [Tally.sum_erase ht] at hp ⊢
    rw [hsum, hrole, update_self]
    exact heq _ Tally.zero_sum hp

end Holds

section Granted

variable {g : ℕ → Option ℕ} {l : Life}

omit [DecidableEq ι] in
theorem State.Granted.same (h : a.Granted g) (hlife : b.life = a.life)
    (hamount : b.amount = a.amount)
    (huid : b.uid = a.uid) (hnext : b.nextUid = a.nextUid) : b.Granted g := by
  unfold State.Granted
  rw [hlife, hamount, huid, hnext]
  exact h

omit [DecidableEq ι] in
theorem State.Granted.set_life [DecidableEq ω] (h : a.Granted g) (hh : HistOk a)
    (hx : a.life x ≠ .absent) (hlife : b.life = update a.life x l) (hamount : b.amount = a.amount)
    (huid : b.uid = a.uid) (hnext : b.nextUid = a.nextUid) :
    b.Granted (update g (a.uid x) (if l = .finished false then some (a.amount x) else none)) := by
  refine ⟨fun y hy => ?_, fun u hu => ?_⟩
  · rw [hlife] at hy ⊢
    rw [huid, hamount]
    by_cases hyx : y = x
    · subst hyx
      rw [update_self, update_self]
    · rw [update_of_ne hyx] at hy ⊢
      rw [update_of_ne fun he => hyx (hh.uid_inj y x hy hx he)]
      exact h.1 y hy
  · rw [hnext] at hu
    have hlt := hh.uid_lt x hx
    rw [update_of_ne (by omega)]
    exact h.2 u hu

omit [DecidableEq ι] in
/-- Neither before nor after, the waiter has permits to claim. -/
theorem State.Granted.keep [DecidableEq ω] (h : a.Granted g) (hh : HistOk a)
    (hx : a.life x ≠ .absent) (hx' : a.life x ≠ .finished false) (hl : l ≠ .finished false)
    (hlife : b.life = update a.life x l) (hamount : b.amount = a.amount) (huid : b.uid = a.uid)
    (hnext : b.nextUid = a.nextUid) : b.Granted g := by
  have hset := h.set_life hh hx hlife hamount huid hnext
  have hnone : g (a.uid x) = none := by rw [h.1 x hx, if_neg hx']
  rw [if_neg hl, ← hnone, update_eq_self] at hset
  exact hset

omit [DecidableEq ι] in
theorem State.Granted.create [DecidableEq ω] (h : a.Granted g) {n : ℕ}
    (hlife : b.life = update a.life x .entering) (hamount : b.amount = update a.amount x n)
    (huid : b.uid = update a.uid x a.nextUid) (hnext : b.nextUid = a.nextUid + 1) :
    b.Granted g := by
  refine ⟨fun y hy => ?_, fun u hu => ?_⟩
  · rw [hlife] at hy ⊢
    rw [huid, hamount]
    by_cases hyx : y = x
    · subst hyx
      rw [update_self, update_self, if_neg (by simp)]
      exact h.2 _ (le_refl _)
    · rw [update_of_ne hyx] at hy ⊢
      rw [update_of_ne hyx, update_of_ne hyx]
      exact h.1 y hy
  · exact h.2 u (by omega)

omit [DecidableEq ι] in
theorem State.Granted.free [DecidableEq ω] (h : a.Granted g)
    (hlife : b.life = update a.life x .absent)
    (hamount : b.amount = a.amount) (huid : b.uid = a.uid) (hnext : b.nextUid = a.nextUid) :
    b.Granted g := by
  refine ⟨fun y hy => ?_, fun u hu => h.2 u (by rwa [← hnext])⟩
  have hyx : y ≠ x := by rintro rfl; simp [hlife] at hy
  rw [hlife, update_of_ne hyx] at hy ⊢
  rw [huid, hamount]
  exact h.1 y hy

end Granted

section Waiting

omit [DecidableEq ι]

theorem State.waiting_congr (hq : b.queue = a.queue)
    (hlife : ∀ x ∈ a.queue, b.life x = .queued ↔ a.life x = .queued)
    (huid : ∀ x ∈ a.queue, b.uid x = a.uid x) (hamount : ∀ x ∈ a.queue, b.amount x = a.amount x) :
    b.waiting = a.waiting := by
  unfold State.waiting
  rw [hq, List.filter_congr fun x hx => decide_eq_decide.mpr (hlife x hx)]
  refine List.map_congr_left fun x hx => ?_
  have hx' := List.mem_of_mem_filter hx
  rw [huid x hx', hamount x hx']

variable [DecidableEq ω] {l : Life} {rest : List ω}

theorem State.waiting_push (hi : Inv a) (hx : a.life x = .entering) (hq : b.queue = a.queue ++ [x])
    (hlife : b.life = update a.life x .queued) (huid : b.uid = a.uid)
    (hamount : b.amount = a.amount) :
    b.waiting = a.waiting ++ [(a.uid x, a.amount x)] := by
  have hnot : ∀ y ∈ a.queue, y ≠ x := by
    rintro y hy rfl
    rcases hi.queue.life_mem y hy with h | h <;> simp [hx] at h
  unfold State.waiting
  rw [hq, hlife, huid, hamount, List.filter_append, List.map_append]
  congr 1
  · rw [List.filter_congr fun y hy => by rw [update_of_ne (hnot y hy)]]
  · simp

theorem State.waiting_pop (hi : Inv a) (hq : a.queue = x :: rest) (hx : a.life x = .queued)
    (hq' : b.queue = rest) (hlife : b.life = update a.life x l) (huid : b.uid = a.uid)
    (hamount : b.amount = a.amount) : a.waiting = (a.uid x, a.amount x) :: b.waiting := by
  have hnd : (x :: rest).Nodup := hq ▸ (List.nodup_append.mp hi.queue.nodup).1
  have hnot : ∀ y ∈ rest, y ≠ x := by
    rintro y hy rfl
    exact (List.nodup_cons.mp hnd).1 hy
  have hfilter : rest.filter (fun y => update a.life x l y = .queued) =
      rest.filter fun y => a.life y = .queued :=
    List.filter_congr fun y hy => by rw [update_of_ne (hnot y hy)]
  unfold State.waiting
  rw [hq, hq', hlife, huid, hamount, List.filter_cons_of_pos (by simpa using hx), List.map_cons,
    hfilter]

theorem State.waiting_cancel (hi : Inv a) (hh : HistOk a) (hx : a.life x = .queued)
    (hq : b.queue = a.queue) (hlife : b.life = update a.life x .cancelling) (huid : b.uid = a.uid)
    (hamount : b.amount = a.amount) : b.waiting = a.waiting.filter fun e => e.1 ≠ a.uid x := by
  unfold State.waiting
  rw [hq, hlife, huid, hamount, List.filter_map, List.filter_filter]
  congr 1
  refine List.filter_congr fun y hy => ?_
  by_cases hyx : y = x
  · subst hyx
    simp
  · have hne : a.uid y ≠ a.uid x := fun he =>
      hyx (hh.uid_inj y x (hi.queue_ne_absent hy) (by simp [hx]) he)
    simp [update_of_ne hyx, hne]

theorem State.waiting_unlink (hx : a.life x ≠ .queued) (hq : b.queue = a.queue.erase x)
    (hlife : b.life = a.life) (huid : b.uid = a.uid) (hamount : b.amount = a.amount) :
    b.waiting = a.waiting := by
  unfold State.waiting
  rw [hq, hlife, huid, hamount]
  congr 1
  generalize a.queue = q
  induction q with
  | nil => rfl
  | cons y q ih =>
    by_cases hyx : y = x
    · subst hyx
      rw [List.erase_cons_head, List.filter_cons_of_neg (by simpa using hx)]
    · rw [List.erase_cons_tail (by simpa using hyx), List.filter_cons, List.filter_cons, ih]

end Waiting

section Change

variable [DecidableEq ω]

/-- What a step from `a` to `b` does to the queue and the counter that `a` stands for, and to the
permits that users hold. -/
inductive Change (cap : ℕ) (a b : State ι ω) (A : Fifo ℕ) : Fifo ℕ → Prop
  /-- Permits are moved about, or a waiter goes on that is not in the queue. -/
  | silent (hhist : b.hist = a.hist ∨ ∃ e, b.hist = e :: a.hist ∧ e.Silent)
    (hlife : ∀ x p, a.life x = .finished p → b.life x ≠ .done)
    (hrole : ∀ t, a.role t = .quiet → b.role t = .quiet)
    (hheld : b.held + History.forgotten b.hist = a.held + History.forgotten a.hist) :
    Change cap a b A A
  | grant (u n m : ℕ) (q : List (ℕ × ℕ)) (hhist : b.hist = .finished u false :: a.hist)
    (hq : A.queue = (u, n) :: q) (hm : A.permits = some m) (hle : n ≤ m)
    (hheld : b.held = a.held) : Change cap a b A { A.grant u n m with queue := q }
  | fail (u n : ℕ) (q : List (ℕ × ℕ)) (hhist : b.hist = .finished u true :: a.hist)
    (hq : A.queue = (u, n) :: q) (hm : A.permits = none) (hheld : b.held = a.held) :
    Change cap a b A { A.fail u with queue := q }
  | took (n : ℕ) (p : Tally) (hhist : b.hist = .fastPath n :: a.hist)
    (hp : ∀ m, A.permits = some m → p = some (m - n) ∧ n ≤ m) (hheld : b.held = a.held + n) :
    Change cap a b A { A with permits := p }
  | enter (x : ω) (hhist : b.hist = .installed (a.uid x) :: a.hist) (hx : a.life x = .entering)
    (hheld : b.held = a.held) : Change cap a b A (A.apply cap (.enter (a.uid x) (a.amount x)))
  | release (n : ℕ) (hhist : b.hist = .released n :: a.hist) (hheld : b.held = a.held) :
    Change cap a b A (A.apply cap (.release n))
  | poison {n : ℕ} (hhist : b.hist = .poison :: a.hist) (hheld : b.held + n = a.held) :
    Change cap a b A (A.apply cap .poison)
  | dropGuard (t : ι) (n : ℕ) (hhist : b.hist = a.hist) (hlife : b.life = a.life)
    (hr : a.role t = .quiet) (hr' : b.role t = .releasing (Tally.ofNat cap n) none)
    (hheld : b.held + n = a.held) : Change cap a b A (A.apply cap (.release n))
  | claim (x : ω) (p : Bool) (hhist : b.hist = a.hist) (hx : a.life x = .finished p)
    (hlife : b.life = update a.life x .done) (hrole : b.role = a.role)
    (hheld : b.held = a.held + if p then 0 else a.amount x) :
    Change cap a b A (A.apply cap (.claim (a.uid x)))
  | giveBack (t : ι) (x : ω) (hhist : b.hist = a.hist) (hx : a.life x = .finished false)
    (hlife : b.life = update a.life x .done) (hr : a.role t = .quiet)
    (hr' : b.role t = .releasing (Tally.ofNat cap (a.amount x)) none) (hheld : b.held = a.held) :
    Change cap a b A (A.apply cap (.drop (a.uid x)))
  | cancel (x : ω) (hhist : b.hist = .cancelling (a.uid x) :: a.hist) (hx : a.life x = .queued)
    (hheld : b.held = a.held) : Change cap a b A (A.apply cap (.drop (a.uid x)))

omit [DecidableEq ω] in
theorem Abstracts.moved (h : Abstracts cap a A) (hp : b.Holds cap p) (hq : b.waiting = a.waiting)
    (hg : b.Granted A.granted) : Abstracts cap b { A with permits := p } :=
  ⟨hp, h.queue.trans hq.symm, hg⟩

omit [DecidableEq ω] in
theorem Abstracts.frame (h : Abstracts cap a A) (hp : b.Holds cap p) (hlife : b.life = a.life)
    (hq : b.queue = a.queue) (hamount : b.amount = a.amount) (huid : b.uid = a.uid)
    (hnext : b.nextUid = a.nextUid) : Abstracts cap b { A with permits := p } := by
  refine h.moved hp ?_ (h.granted.same hlife hamount huid hnext)
  exact State.waiting_congr hq (fun x _ => by rw [hlife]) (fun x _ => by rw [huid])
    fun x _ => by rw [hamount]

/-- Steps that leave the history and the waiters alone. -/
theorem Abstracts.passive (h : Abstracts cap a A) (hp : b.Holds cap A.permits)
    (hlife : b.life = a.life) (hq : b.queue = a.queue) (hamount : b.amount = a.amount)
    (huid : b.uid = a.uid) (hnext : b.nextUid = a.nextUid) (hhist : b.hist = a.hist)
    (hrole : ∀ t, a.role t = .quiet → b.role t = .quiet) (hheld : b.held = a.held) :
    ∃ A', Change cap a b A A' ∧ Abstracts cap b A' := by
  refine ⟨A, .silent (Or.inl hhist) (fun x p hx => ?_) hrole (by rw [hhist, hheld]),
    h.frame hp hlife hq hamount huid hnext⟩
  rw [hlife, hx]
  simp

omit [DecidableEq ω] in
theorem quiet_update {r : Role ω} (hr : a.role t ≠ .quiet) (u : ι) (hu : a.role u = .quiet) :
    update a.role t r u = .quiet := by
  rw [update_of_ne (by rintro rfl; exact hr hu)]
  exact hu

theorem Abstracts.step (h : Step cap a b) (hi : Inv a) (hh : HistOk a) (hA : Abstracts cap a A)
    (hsafe : ∀ o n, a.owner = some o → o.phase = .pop → a.linked ≠ [] → o.releasable = some n →
      A.permits ≠ none) :
    ∃ A', Change cap a b A A' ∧ Abstracts cap b A' := by
  cases h with
  | create x n hx =>
    have hq : ∀ y ∈ a.queue, y ≠ x := by
      rintro y hy rfl
      exact hi.queue_ne_absent hy hx
    refine ⟨A, .silent (Or.inl rfl) (fun y p hy => ?_) (fun t ht => ht) rfl, ?_⟩
    · have hyx : y ≠ x := by rintro rfl; simp [hx] at hy
      simp [update_of_ne hyx, hy]
    · refine hA.moved (hA.permits.same rfl fun s _ hp => hp) ?_
        (hA.granted.create rfl rfl rfl rfl)
      refine State.waiting_congr rfl (fun y hy => ?_) (fun y hy => ?_) fun y hy => ?_
      all_goals simp [update_of_ne (hq y hy)]
  | free x hx hr =>
    refine ⟨A, .silent (Or.inl rfl) (fun y p hy => ?_) (fun t ht => ht) rfl, ?_⟩
    · by_cases hyx : y = x
      · subst hyx; simp
      · simp [update_of_ne hyx, hy]
    · refine hA.moved (hA.permits.same rfl fun s _ hp => hp) ?_ (hA.granted.free rfl rfl rfl rfl)
      refine State.waiting_congr rfl (fun y hy => ?_) (fun _ _ => rfl) fun _ _ => rfl
      by_cases hyx : y = x
      · subst hyx
        rcases hx with hx | hx | hx | hx <;> simp [hx]
      · simp [update_of_ne hyx]
  | retire x hx =>
    refine ⟨A, .silent (Or.inl rfl) (fun y p hy => ?_) (fun t ht => ht) rfl, ?_⟩
    · have hyx : y ≠ x := by rintro rfl; simp [hx] at hy
      simp [update_of_ne hyx, hy]
    · refine hA.moved (hA.permits.same rfl fun s _ hp => hp) ?_
        (hA.granted.keep hh (by simp [hx]) (by simp [hx]) (by simp) rfl rfl rfl rfl)
      refine State.waiting_congr rfl (fun y _ => ?_) (fun _ _ => rfl) fun _ _ => rfl
      exact life_update_iff (by simp [hx]) (by simp)
  | fast n m hacq hn =>
    obtain ⟨T, hT, hp⟩ := hA.permits
    refine ⟨_, .took n (State.total cap T _) rfl (fun k hk => ?_) rfl,
      hA.moved ⟨T, hT, rfl⟩ ?_ (hA.granted.same rfl rfl rfl rfl)⟩
    · rw [hk] at hp
      simp only [State.total, State.ownerPermits, hacq, Acq.permits] at hp ⊢
      exact Tally.sub_add hp.symm hn
    · refine State.waiting_congr ?_ (fun _ _ => Iff.rfl) (fun _ _ => rfl) fun _ _ => rfl
      exact (queue_of_available rfl).trans (queue_of_available hacq).symm
  | fastPoll x m hacq hx hn =>
    obtain ⟨T, hT, hp⟩ := hA.permits
    refine ⟨_, .took (a.amount x) (State.total cap T _) rfl (fun k hk => ?_) rfl,
      hA.moved ⟨T, hT, rfl⟩ ?_
        (hA.granted.keep hh (by simp [hx]) (by simp [hx]) (by simp) rfl rfl rfl rfl)⟩
    · rw [hk] at hp
      simp only [State.total, State.ownerPermits, hacq, Acq.permits] at hp ⊢
      exact Tally.sub_add hp.symm hn
    · refine State.waiting_congr ?_ (fun y _ => ?_) (fun _ _ => rfl) fun _ _ => rfl
      · exact (queue_of_available rfl).trans (queue_of_available hacq).symm
      · exact life_update_iff (by simp [hx]) (by simp)
  | enter t x n pushed hr hx hacq =>
    have hpush : a.pushed = pushed := by
      rcases hacq with ⟨h, -, rfl⟩ | ⟨h, -⟩ <;> simp [State.pushed, h]
    have hpr : (a.role t).permits = some 0 := by rw [hr]; rfl
    have hacq' : a.acq.permits = some n := by
      rcases hacq with ⟨h, -, -⟩ | ⟨h, rfl⟩ <;> rw [h] <;> rfl
    refine ⟨_, .enter x rfl hx rfl, ⟨hA.permits.role rfl fun s hs hp => ?_, ?_,
      hA.granted.keep hh (by simp [hx]) (by simp [hx]) (by simp) rfl rfl rfl rfl⟩⟩
    · rw [hpr, hacq', hs] at hp
      simp only [State.ownerPermits, Acq.permits, Role.permits, Fifo.apply] at hp ⊢
      rw [hp, Tally.add_left_comm cap (some n), Tally.add_left_comm cap (some n),
        Tally.zero_add_add]
    · have hq : ∀ b : State ι ω, b.acq = .queued (x :: pushed) → b.linked = a.linked →
          b.queue = a.queue ++ [x] := by
        intro b hb hl
        rw [queue_of_queued hb, hl, State.queue, hpush, List.reverse_cons, List.append_assoc]
      refine Eq.trans ?_ (State.waiting_push hi hx (hq _ ?_ ?_) ?_ ?_ ?_).symm
      · exact congrArg (· ++ _) hA.queue
      all_goals rfl
  | release t n hr =>
    have hpr : (a.role t).permits = some 0 := by rw [hr]; rfl
    refine ⟨_, .release n rfl rfl,
      hA.frame (hA.permits.role rfl fun s hs hp => ?_) rfl rfl rfl rfl rfl⟩
    rw [hpr, hs] at hp
    simp only [State.ownerPermits, Role.permits] at hp ⊢
    rw [hp]
    simp only [Tally.add_assoc, Tally.add_comm cap s]
  | poison t n hr hn =>
    refine ⟨_, .poison rfl (Nat.sub_add_cancel hn),
      hA.frame (hA.permits.role rfl fun s hs hp => ?_) rfl rfl rfl rfl rfl⟩
    simp only [Role.permits, Tally.none_add, Tally.add_none]
  | dropGuard t n hr hn =>
    have hpr : (a.role t).permits = some 0 := by rw [hr]; rfl
    refine ⟨_, .dropGuard t n rfl rfl hr (update_self ..) (Nat.sub_add_cancel hn),
      hA.frame (hA.permits.role rfl fun s hs hp => ?_) rfl rfl rfl rfl rfl⟩
    rw [hpr, hs] at hp
    simp only [State.ownerPermits, Role.permits] at hp ⊢
    rw [hp]
    simp only [Tally.add_assoc, Tally.add_comm cap s]
  | forget n hn =>
    have hheld :
        a.held - n + (History.forgotten a.hist + n) = a.held + History.forgotten a.hist := by
      omega
    refine ⟨A, .silent (Or.inr ⟨_, rfl, trivial⟩) (fun y p hy => by simp [hy]) (fun t ht => ht)
      hheld,
      hA.frame (hA.permits.same rfl fun s _ hp => hp) rfl rfl rfl rfl rfl⟩
  | claim x p hx =>
    refine ⟨_, .claim x p rfl hx rfl rfl rfl, ⟨hA.permits.same rfl fun s _ hp => hp, ?_, ?_⟩⟩
    · refine hA.queue.trans (Eq.symm ?_)
      refine State.waiting_congr rfl (fun y _ => ?_) (fun _ _ => rfl) fun _ _ => rfl
      exact life_update_iff (by simp [hx]) (by simp)
    · exact hA.granted.set_life (l := .done) hh (x := x) (by simp [hx]) rfl rfl rfl rfl
  | giveBack t x hr hx =>
    have hpr : (a.role t).permits = some 0 := by rw [hr]; rfl
    have hg : A.granted (a.uid x) = some (a.amount x) := by
      rw [hA.granted.1 x (by simp [hx]), if_pos hx]
    refine ⟨_, .giveBack t x rfl hx rfl hr (update_self ..) rfl, ?_⟩
    simp only [Fifo.apply, hg]
    refine ⟨hA.permits.role rfl fun s hs hp => ?_, ?_, ?_⟩
    · rw [hpr, hs] at hp
      simp only [State.ownerPermits, Role.permits] at hp ⊢
      rw [hp]
      simp only [Tally.add_assoc, Tally.add_comm cap s]
    · refine hA.queue.trans (Eq.symm ?_)
      refine State.waiting_congr rfl (fun y _ => ?_) (fun _ _ => rfl) fun _ _ => rfl
      exact life_update_iff (by simp [hx]) (by simp)
    · exact hA.granted.set_life (l := .done) hh (x := x) (by simp [hx]) rfl rfl rfl rfl
  | startCancel t x hr hx =>
    have hpr : (a.role t).permits = some 0 := by rw [hr]; rfl
    have hg : A.granted (a.uid x) = none := by
      rw [hA.granted.1 x (by simp [hx]), if_neg (by simp [hx])]
    refine ⟨_, .cancel x rfl hx rfl, ?_⟩
    simp only [Fifo.apply, hg]
    refine ⟨hA.permits.role rfl fun s hs hp => ?_, ?_,
      hA.granted.keep hh (by simp [hx]) (by simp [hx]) (by simp) rfl rfl rfl rfl⟩
    · rw [hpr] at hp
      exact hp
    · refine Eq.trans ?_ (State.waiting_cancel hi hh hx ?_ ?_ ?_ ?_).symm
      · exact congrArg _ hA.queue
      all_goals rfl
  | pushCancel t x hr =>
    have hpr : (a.role t).permits = some 0 := by rw [hr]; rfl
    refine hA.passive (hA.permits.role rfl fun s hs hp => ?_) rfl rfl rfl rfl rfl rfl
      (quiet_update (by simp [hr])) rfl
    rw [hpr] at hp
    exact hp
  | waited t x hr hx =>
    have hpr : (a.role t).permits = some 0 := by rw [hr]; rfl
    refine hA.passive (hA.permits.role rfl fun s hs hp => ?_) rfl rfl rfl rfl rfl rfl
      (quiet_update (by simp [hr])) rfl
    rw [hpr] at hp
    exact hp
  | lock t p q after hr hrel =>
    have ho : a.owner = none := hi.lock.owner_none.mpr ⟨q, hrel⟩
    refine hA.passive (hA.permits.role rfl fun s hs hp => ?_) rfl rfl rfl rfl rfl rfl
      (quiet_update (by simp [hr])) rfl
    simp only [State.ownerPermits, ho, hr, hrel, Role.permits, Rel.permits, Tally.add_zero_add,
      hs, Tally.add_assoc] at hp ⊢
    rw [hp, Tally.add_left_comm cap q]
  | deferLocked t p after hr hrel =>
    have hpr : (a.role t).permits = p := by rw [hr]; rfl
    refine hA.passive (hA.permits.role rfl fun s hs hp => ?_) rfl rfl rfl rfl rfl rfl
      (quiet_update (by simp [hr])) rfl
    simp only [State.ownerPermits, hpr, hrel, Role.permits_after, Rel.permits,
      Tally.zero_add_add, hs] at hp ⊢
    rw [hp, Tally.add_left_comm cap p]
  | deferDirty t p q after hr hrel =>
    have hpr : (a.role t).permits = p := by rw [hr]; rfl
    refine hA.passive (hA.permits.role rfl fun s hs hp => ?_) rfl rfl rfl rfl rfl rfl
      (quiet_update (by simp [hr])) rfl
    simp only [State.ownerPermits, hpr, hrel, Role.permits_after, Rel.permits, hs,
      Tally.add_assoc] at hp ⊢
    rw [hp, Tally.add_left_comm cap p]
  | swap o ho hp =>
    refine hA.passive (hA.permits.same rfl fun s hs hp => ?_) rfl rfl rfl rfl rfl rfl
      (fun _ ht => ht)
      rfl
    simp only [State.ownerPermits, ho] at hp ⊢
    exact hp
  | flipAvailable o ho hp hacq hl =>
    refine hA.passive (hA.permits.same rfl fun s hs hp => ?_) rfl ?_ rfl rfl rfl rfl
      (fun _ ht => ht)
      rfl
    · simp only [State.ownerPermits, ho, hacq, Acq.permits, Tally.zero_add_add, hs] at hp ⊢
      rw [hp, Tally.add_left_comm cap o.releasable]
    · rw [queue_of_available rfl, queue_of_queued hacq]
      simp
  | flipAdd o q ho hp hacq =>
    refine hA.passive (hA.permits.same rfl fun s hs hp => ?_) rfl
      ((queue_of_available rfl).trans (queue_of_available hacq).symm) rfl rfl rfl rfl
      (fun _ ht => ht)
      rfl
    simp only [State.ownerPermits, ho, hacq, Acq.permits, hs, Tally.add_assoc] at hp ⊢
    rw [hp, Tally.add_left_comm cap o.releasable]
  | flipTake o pushed ho hp hacq hpush =>
    refine hA.passive (hA.permits.same rfl fun s hs hp => ?_) rfl ?_ rfl rfl rfl rfl
      (fun _ ht => ht)
      rfl
    · simp only [State.ownerPermits, ho, hacq, Acq.permits] at hp ⊢
      exact hp
    · rw [queue_of_queued rfl, queue_of_queued hacq]
      simp
  | flipSkip o ho hp hacq hl =>
    refine hA.passive (hA.permits.same rfl fun s hs hp => ?_) rfl rfl rfl rfl rfl rfl
      (fun _ ht => ht)
      rfl
    simp only [State.ownerPermits, ho] at hp ⊢
    exact hp
  | unlink o x taken ho hp ht =>
    have hx : x ∈ a.taken := by simp [taken_of_owner ho, ht]
    have hmem : x ∈ a.linked :=
      hi.marked.taken_linked o ho (by simp [hp, Phase.Flipped]) x (by simp [ht])
    refine ⟨A, .silent (Or.inr ⟨_, rfl, trivial⟩) (fun y p hy => by simp [hy]) (fun t ht => ht) rfl,
      hA.moved (hA.permits.same rfl fun s hs hp => ?_) ?_ (hA.granted.same rfl rfl rfl rfl)⟩
    · simp only [State.ownerPermits, ho] at hp ⊢
      exact hp
    · refine State.waiting_unlink (x := x) (by simp [hi.taken_life hx]) ?_ rfl rfl rfl
      exact (List.erase_append_left _ hmem).symm
  | accept o x ho hp =>
    have hx := hi.accepting_life (x := x) (by simp [accepting_of_owner ho, hp, Phase.accepting])
    refine ⟨A, .silent (Or.inr ⟨_, rfl, trivial⟩) (fun y p hy => ?_) (fun t ht => ht) rfl,
      hA.moved (hA.permits.same rfl fun s hs hp => ?_) ?_
        (hA.granted.keep hh (by simp [hx]) (by simp [hx]) (by simp) rfl rfl rfl rfl)⟩
    · have hyx : y ≠ x := by rintro rfl; simp [hx] at hy
      simp [update_of_ne hyx, hy]
    · simp only [State.ownerPermits, ho] at hp ⊢
      exact hp
    · refine State.waiting_congr rfl (fun y _ => ?_) (fun _ _ => rfl) fun _ _ => rfl
      exact life_update_iff (by simp [hx]) (by simp)
  | cancelled o ho hp ht =>
    refine hA.passive (hA.permits.same rfl fun s hs hp => ?_) rfl rfl rfl rfl rfl rfl
      (fun _ ht => ht)
      rfl
    simp only [State.ownerPermits, ho] at hp ⊢
    exact hp
  | grant o x linked n ho hp hl hx hr hn =>
    obtain ⟨m, hm⟩ := Option.ne_none_iff_exists'.mp (hsafe o n ho hp (by simp [hl]) hr)
    have hq : a.queue = x :: (linked ++ a.pushed.reverse) := by
      rw [State.queue, hl]
      rfl
    -- the rest of the counter stays as it is
    have hspent : ∀ s, some m = Tally.add cap a.acq.permits (Tally.add cap a.rel.permits
        (Tally.add cap (some n) s)) → Tally.add cap a.acq.permits (Tally.add cap a.rel.permits
        (Tally.add cap (some (n - a.amount x)) s)) = some (m - a.amount x) ∧ a.amount x ≤ m := by
      intro s hs
      rw [Tally.add_left_comm cap a.rel.permits, Tally.add_left_comm cap a.acq.permits] at hs ⊢
      exact Tally.sub_add hs.symm hn
    obtain ⟨T, -, htot⟩ := hA.permits
    simp only [hm, State.total, State.ownerPermits, ho, hr] at htot
    refine ⟨_, .grant (a.uid x) (a.amount x) m _ rfl ?_ hm (hspent _ htot).2 rfl, ⟨?_, rfl, ?_⟩⟩
    · rw [hA.queue]
      exact State.waiting_pop hi hq hx rfl rfl rfl rfl
    · refine hA.permits.same rfl fun s hs hp => ?_
      simp only [hm, State.ownerPermits, ho, hr] at hp ⊢
      exact (hspent s hp).1.symm
    · have hset := hA.granted.set_life (l := .finished false) hh (x := x) (by simp [hx])
        (b := { a with life := update a.life x (.finished false) }) rfl rfl rfl rfl
      exact hset.same rfl rfl rfl rfl
  | fail o x linked ho hp hl hx hr =>
    have hq : a.queue = x :: (linked ++ a.pushed.reverse) := by
      rw [State.queue, hl]
      rfl
    have hnone : A.permits = none := by
      obtain ⟨T, -, htot⟩ := hA.permits
      rw [htot]
      simp only [State.total, State.ownerPermits, ho, hr, Tally.none_add, Tally.add_none]
    refine ⟨_, .fail (a.uid x) (a.amount x) _ rfl ?_ hnone rfl, ⟨?_, rfl, ?_⟩⟩
    · rw [hA.queue]
      exact State.waiting_pop hi hq hx rfl rfl rfl rfl
    · exact hA.permits.same rfl fun s hs hp => hp
    · exact (hA.granted.keep (l := .finished true) hh (x := x) (by simp [hx]) (by simp [hx])
        (by simp) (b := { a with life := update a.life x (.finished true) }) rfl rfl rfl rfl).same
          rfl rfl rfl rfl
  | stop o ho hp hb =>
    refine hA.passive (hA.permits.same rfl fun s hs hp => ?_) rfl rfl rfl rfl rfl rfl
      (fun _ ht => ht)
      rfl
    simp only [State.ownerPermits, ho] at hp ⊢
    exact hp
  | relock o q ho hp hrel =>
    refine hA.passive (hA.permits.same rfl fun s hs hp => ?_) rfl rfl rfl rfl rfl rfl
      (fun _ ht => ht)
      rfl
    simp only [State.ownerPermits, ho, hrel, Rel.permits, Tally.zero_add_add,
      Tally.add_assoc] at hp ⊢
    rw [hp, Tally.add_left_comm cap q]
  | unlock o after ho hp hrel hr =>
    have hpr : (a.role o.thread).permits = some 0 := by rw [hr]; rfl
    refine hA.passive (hA.permits.role rfl fun s hs hp => ?_) rfl rfl rfl rfl rfl rfl
      (quiet_update (by simp [hr])) rfl
    simp only [State.ownerPermits, ho, hrel, hpr, Role.permits_after, Rel.permits, hs,
      Tally.zero_add_add] at hp ⊢
    exact hp

end Change

end Protocol

end WeightedSemaphore
