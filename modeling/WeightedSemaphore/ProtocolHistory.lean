import WeightedSemaphore.ProtocolInvariant

/-!
# What the history of a protocol run records

The pending waiters of the history are the waiters of the abstract queue, in the same order, and no
waiter that the lock owner can still reach has been given up. With `History.Fifo` as a further
conjunct this is an invariant of the protocol.
-/

namespace WeightedSemaphore

def Event.uid : Event → Option ℕ
  | .installed u => some u
  | .finished u _ => some u
  | .cancelling u => some u
  | .unlinked u => some u
  | .cancelled u => some u
  | .fastPath _ => none
  | .released _ => none
  | .poison => none
  | .forgot _ => none

namespace History

variable {h : History} {e : Event} {u : ℕ}

theorem givenUp_cons : GivenUp (e :: h) u ↔
    GivenUp h u ∨ (∃ p, e = .finished u p) ∨ e = .cancelled u := by
  simp only [GivenUp, List.mem_cons]
  grind

end History

namespace Protocol

open Function (update)

variable {ι ω : Type}

/-- The waiter was not given up: its future, or the lock owner, may still come to it. -/
def Life.Fresh : Life → Prop
  | entering => True
  | queued => True
  | cancelling => True
  | _ => False

structure HistOk (a : State ι ω) : Prop where
  uid_lt : ∀ x, a.life x ≠ .absent → a.uid x < a.nextUid
  uid_inj : ∀ x y, a.life x ≠ .absent → a.life y ≠ .absent → a.uid x = a.uid y → x = y
  known : ∀ e ∈ a.hist, ∀ u, e.uid = some u → u < a.nextUid
  arrivals_nodup : (History.arrivals a.hist).Nodup
  entering : ∀ x, a.life x = .entering → a.uid x ∉ History.arrivals a.hist
  pending : History.pending a.hist = a.queue.map a.uid
  fifo : History.Fifo a.hist
  given_up : ∀ x, (a.life x).Fresh → ¬ History.GivenUp a.hist (a.uid x)
  cancelling : ∀ x, a.life x = .cancelling → .cancelling (a.uid x) ∈ a.hist
  cancels_first : History.CancelsFirst a.hist

theorem HistOk.init (cap initial : ℕ) : HistOk (State.init cap initial : State ι ω) where
  uid_lt := by simp [State.init]
  uid_inj := by simp [State.init]
  known := by simp [State.init]
  arrivals_nodup := by simp [State.init, History.arrivals]
  entering := by simp [State.init]
  pending := by simp [State.init, State.queue, State.pushed, History.pending]
  fifo := History.Fifo.nil
  given_up := by simp [State.init, Life.Fresh]
  cancelling := by simp [State.init]
  cancels_first := History.CancelsFirst.nil

variable {a b : State ι ω}

namespace HistOk

/-- Changes that touch neither the queue nor the identities. -/
theorem frame (h : HistOk a) (hlife : ∀ x, b.life x ≠ .absent → a.life x ≠ .absent)
    (hent : ∀ x, b.life x = .entering → a.life x = .entering)
    (hfresh : ∀ x, (b.life x).Fresh → (a.life x).Fresh)
    (hcan : ∀ x, b.life x = .cancelling → a.life x = .cancelling) (hq : b.queue = a.queue)
    (hh : b.hist = a.hist) (huid : b.uid = a.uid) (hnext : b.nextUid = a.nextUid) : HistOk b where
  uid_lt x hx := by rw [huid, hnext]; exact h.uid_lt x (hlife x hx)
  uid_inj x y hx hy := by rw [huid]; exact h.uid_inj x y (hlife x hx) (hlife y hy)
  known := by rw [hh, hnext]; exact h.known
  arrivals_nodup := hh ▸ h.arrivals_nodup
  entering x hx := by rw [hh, huid]; exact h.entering x (hent x hx)
  pending := by rw [hh, hq, huid]; exact h.pending
  fifo := hh ▸ h.fifo
  given_up x hx := by rw [hh, huid]; exact h.given_up x (hfresh x hx)
  cancelling x hx := by rw [hh, huid]; exact h.cancelling x (hcan x hx)
  cancels_first := hh ▸ h.cancels_first

theorem same (h : HistOk a) (hlife : b.life = a.life) (hq : b.queue = a.queue)
    (hh : b.hist = a.hist) (huid : b.uid = a.uid) (hnext : b.nextUid = a.nextUid) : HistOk b :=
  h.frame (fun _ => hlife ▸ id) (fun _ => hlife ▸ id) (fun _ => hlife ▸ id)
    (fun _ => hlife ▸ id) hq hh huid hnext

theorem log (h : HistOk a) {e : Event} (he : e.uid = none)
    (hfifo : History.Fifo (e :: a.hist)) : HistOk { a with hist := e :: a.hist } where
  uid_lt := h.uid_lt
  uid_inj := h.uid_inj
  known e' he' u hu := by
    rcases List.mem_cons.mp he' with rfl | he'
    · simp [he] at hu
    · exact h.known e' he' u hu
  arrivals_nodup := by
    have := h.arrivals_nodup
    cases e <;> first | exact this | cases he
  entering x hx := by
    have := h.entering x hx
    cases e <;> first | exact this | cases he
  pending := by
    have := h.pending
    cases e <;> first | exact this | cases he
  fifo := hfifo
  given_up x hx := by
    have := h.given_up x hx
    rw [History.givenUp_cons]
    cases e <;> first | simpa using this | cases he
  cancelling x hx := List.mem_cons_of_mem _ (h.cancelling x hx)
  cancels_first := h.cancels_first.cons (by rintro u rfl; cases he)

/-- The permits that `release`, `poison` and `forget` are called with are no waiter's. -/
theorem log_other (h : HistOk a) {e : Event} (he : e.uid = none) (hf : ∀ n, e ≠ .fastPath n) :
    HistOk { a with hist := e :: a.hist } :=
  h.log he (h.fifo.cons_other (by rintro u p rfl; cases he) hf)

variable [DecidableEq ω] {x : ω} {l : Life}

/-- A waiter moves on to a life in which it is given up already, or was not before. -/
theorem set_life (h : HistOk a) (hx : a.life x ≠ .absent) (hl : l ≠ .entering)
    (hl' : l ≠ .cancelling) (hf : l.Fresh → (a.life x).Fresh) :
    HistOk { a with life := update a.life x l } := by
  refine h.frame (fun y hy => ?_) (fun y hy => ?_) (fun y hy => ?_) (fun y hy => ?_) rfl rfl rfl rfl
  all_goals by_cases hyx : y = x
  · exact hyx ▸ hx
  · simpa [hyx] using hy
  · subst hyx; exact absurd (by simpa using hy) hl
  · simpa [hyx] using hy
  · subst hyx; exact hf (by simpa using hy)
  · simpa [hyx] using hy
  · subst hyx; exact absurd (by simpa using hy) hl'
  · simpa [hyx] using hy

theorem free (h : HistOk a) : HistOk { a with life := update a.life x .absent } := by
  refine h.frame (fun y hy => ?_) (fun y hy => ?_) (fun y hy => ?_) (fun y hy => ?_) rfl rfl rfl rfl
  all_goals by_cases hyx : y = x
  · subst hyx; simp at hy
  · simpa [hyx] using hy
  · subst hyx; simp at hy
  · simpa [hyx] using hy
  · subst hyx; simp [Life.Fresh] at hy
  · simpa [hyx] using hy
  · subst hyx; simp at hy
  · simpa [hyx] using hy

theorem create (h : HistOk a) (hx : a.life x = .absent) (hq : x ∉ a.queue) :
    HistOk { a with
      life := update a.life x .entering
      uid := update a.uid x a.nextUid
      nextUid := a.nextUid + 1 } where
  uid_lt y hy := by
    by_cases hyx : y = x
    · subst hyx; simp
    · have := h.uid_lt y (by simpa [hyx] using hy)
      simp only [Function.update_of_ne hyx]
      omega
  uid_inj y z hy hz heq := by
    by_cases hyx : y = x <;> by_cases hzx : z = x
    · rw [hyx, hzx]
    · subst hyx
      have := h.uid_lt z (by simpa [hzx] using hz)
      simp only [Function.update_self, Function.update_of_ne hzx] at heq
      omega
    · subst hzx
      have := h.uid_lt y (by simpa [hyx] using hy)
      simp only [Function.update_self, Function.update_of_ne hyx] at heq
      omega
    · exact h.uid_inj y z (by simpa [hyx] using hy) (by simpa [hzx] using hz)
        (by simpa [hyx, hzx] using heq)
  known e he u hu := Nat.lt_succ_of_lt (h.known e he u hu)
  arrivals_nodup := h.arrivals_nodup
  entering y hy := by
    by_cases hyx : y = x
    · subst hyx
      simp only [Function.update_self, History.mem_arrivals]
      exact fun hm => lt_irrefl _ (h.known _ hm _ rfl)
    · simp only [Function.update_of_ne hyx] at hy ⊢
      exact h.entering y hy
  pending := by
    rw [h.pending]
    refine List.map_congr_left fun y hy => ?_
    exact (Function.update_of_ne (by rintro rfl; exact hq hy) _ _).symm
  fifo := h.fifo
  given_up y hy := by
    by_cases hyx : y = x
    · subst hyx
      simp only [Function.update_self]
      rintro (⟨p, hp⟩ | hc)
      · exact lt_irrefl _ (h.known _ hp _ rfl)
      · exact lt_irrefl _ (h.known _ hc _ rfl)
    · simp only [Function.update_of_ne hyx] at hy ⊢
      exact h.given_up y hy
  cancelling y hy := by
    have hyx : y ≠ x := by rintro rfl; simp at hy
    simp only [Function.update_of_ne hyx] at hy ⊢
    exact h.cancelling y hy
  cancels_first := h.cancels_first

theorem map_erase (h : HistOk a) {q : List ω} (hq : ∀ y ∈ q, a.life y ≠ .absent)
    (hx : a.life x ≠ .absent) : (q.map a.uid).erase (a.uid x) = (q.erase x).map a.uid := by
  induction q with
  | nil => rfl
  | cons y q ih =>
    by_cases hyx : y = x
    · subst hyx; simp
    · have hne : a.uid y ≠ a.uid x := fun he => hyx (h.uid_inj y x (hq y (by simp)) hx he)
      rw [List.map_cons, List.erase_cons_tail (by simpa using hne),
        List.erase_cons_tail (by simpa using hyx), List.map_cons,
        ih fun z hz => hq z (by simp [hz])]

omit [DecidableEq ω] in
theorem known_cons (h : HistOk a) (hx : a.life x ≠ .absent) {e : Event}
    (he : e.uid = some (a.uid x)) :
    ∀ e' ∈ e :: a.hist, ∀ u, e'.uid = some u → u < a.nextUid := by
  intro e' he' u hu
  rcases List.mem_cons.mp he' with rfl | he'
  · obtain rfl := Option.some.inj (he.symm.trans hu)
    exact h.uid_lt x hx
  · exact h.known e' he' u hu

/-- The waiter of an event is given up by it, no other is. -/
theorem given_up_cons (h : HistOk a) (hx : a.life x ≠ .absent) (hl : ¬ l.Fresh) {e : Event}
    (he : e.uid = some (a.uid x)) (y : ω) (hy : (update a.life x l y).Fresh) :
    ¬ History.GivenUp (e :: a.hist) (a.uid y) := by
  have hyx : y ≠ x := by rintro rfl; simp [hl] at hy
  have hy' : (a.life y).Fresh := by simpa [hyx] using hy
  have hya : a.life y ≠ .absent := fun ha => by simp [ha, Life.Fresh] at hy'
  have hne : e.uid ≠ some (a.uid y) := fun hu =>
    hyx (h.uid_inj y x hya hx (Option.some.inj (hu.symm.trans he)))
  rw [History.givenUp_cons]
  rintro (hg | ⟨p, rfl⟩ | rfl)
  · exact h.given_up y hy' hg
  · exact hne rfl
  · exact hne rfl

end HistOk

theorem Inv.queue_ne_absent (hi : Inv a) {y : ω} (hy : y ∈ a.queue) : a.life y ≠ .absent := by
  rcases hi.queue.life_mem y hy with h | h <;> simp [h]

variable [DecidableEq ω] {x : ω}

theorem HistOk.enter (h : HistOk a) (hx : a.life x = .entering)
    (hq : b.queue = a.queue ++ [x]) (hlife : b.life = update a.life x .queued)
    (hh : b.hist = .installed (a.uid x) :: a.hist) (huid : b.uid = a.uid)
    (hnext : b.nextUid = a.nextUid) : HistOk b := by
  have hxa : a.life x ≠ .absent := by simp [hx]
  have hs := h.set_life (l := .queued) hxa (by simp) (by simp)
    fun _ => by simp [hx, Life.Fresh]
  have hnew : a.uid x ∉ History.arrivals a.hist := h.entering x hx
  constructor
  case uid_lt => rw [hlife, huid, hnext]; exact hs.uid_lt
  case uid_inj => rw [hlife, huid]; exact hs.uid_inj
  case known => rw [hh, hnext]; exact h.known_cons hxa rfl
  case arrivals_nodup =>
    rw [hh]
    simp only [History.arrivals]
    exact List.nodup_append.mpr ⟨h.arrivals_nodup, by simp, by
      rintro u hu v hv rfl
      obtain rfl : u = a.uid x := by simpa using hv
      exact hnew hu⟩
  case entering =>
    rw [hlife, huid, hh]
    intro y hy
    have hyx : y ≠ x := by rintro rfl; simp at hy
    have hy' : a.life y = .entering := by simpa [hyx] using hy
    have hne : a.uid y ≠ a.uid x := fun he => hyx (h.uid_inj y x (by simp [hy']) hxa he)
    simp [History.arrivals, h.entering y hy', hne]
  case pending =>
    rw [hh, hq, huid]
    simp [History.pending, h.pending]
  case fifo => rw [hh]; exact h.fifo.cons_other (by simp) (by simp)
  case given_up =>
    rw [hlife, huid, hh]
    intro y hy
    rw [History.givenUp_cons]
    simpa using hs.given_up y hy
  case cancelling =>
    rw [hlife, huid, hh]
    exact fun y hy => List.mem_cons_of_mem _ (hs.cancelling y hy)
  case cancels_first => rw [hh]; exact h.cancels_first.cons (by simp)

theorem HistOk.unlink (h : HistOk a) (hi : Inv a) (hxc : a.life x = .cancelling)
    (hq : b.queue = a.queue.erase x) (hlife : b.life = a.life)
    (hh : b.hist = .unlinked (a.uid x) :: a.hist) (huid : b.uid = a.uid)
    (hnext : b.nextUid = a.nextUid) : HistOk b := by
  have hx : a.life x ≠ .absent := by simp [hxc]
  constructor
  case uid_lt => rw [hlife, huid, hnext]; exact h.uid_lt
  case uid_inj => rw [hlife, huid]; exact h.uid_inj
  case known => rw [hh, hnext]; exact h.known_cons hx rfl
  case arrivals_nodup => rw [hh]; exact h.arrivals_nodup
  case entering => rw [hlife, huid, hh]; exact h.entering
  case pending =>
    rw [hh, hq, huid, ← h.map_erase (fun _ => hi.queue_ne_absent) hx, ← h.pending]
    rfl
  case fifo => rw [hh]; exact h.fifo.cons_other (by simp) (by simp)
  case given_up =>
    rw [hlife, huid, hh]
    intro y hy
    rw [History.givenUp_cons]
    simpa using h.given_up y hy
  case cancelling =>
    rw [hlife, huid, hh]
    exact fun y hy => List.mem_cons_of_mem _ (h.cancelling y hy)
  case cancels_first =>
    rw [hh]
    refine h.cancels_first.cons fun u hu => ?_
    obtain rfl := Event.unlinked.inj hu
    exact h.cancelling x hxc

theorem HistOk.start_cancel (h : HistOk a) (hx : a.life x = .queued) (hq : b.queue = a.queue)
    (hlife : b.life = update a.life x .cancelling)
    (hh : b.hist = .cancelling (a.uid x) :: a.hist) (huid : b.uid = a.uid)
    (hnext : b.nextUid = a.nextUid) : HistOk b := by
  have hxa : a.life x ≠ .absent := by simp [hx]
  have hf (y : ω) (hy : (update a.life x .cancelling y).Fresh) : (a.life y).Fresh := by
    by_cases hyx : y = x
    · subst hyx; simp [hx, Life.Fresh]
    · simpa [hyx] using hy
  have ha (y : ω) (hy : update a.life x .cancelling y ≠ .absent) : a.life y ≠ .absent := by
    by_cases hyx : y = x
    · exact hyx ▸ hxa
    · simpa [hyx] using hy
  constructor
  case uid_lt => rw [hlife, huid, hnext]; exact fun y hy => h.uid_lt y (ha y hy)
  case uid_inj => rw [hlife, huid]; exact fun y z hy hz => h.uid_inj y z (ha y hy) (ha z hz)
  case known => rw [hh, hnext]; exact h.known_cons hxa rfl
  case arrivals_nodup => rw [hh]; exact h.arrivals_nodup
  case entering =>
    rw [hlife, huid, hh]
    intro y hy
    have hyx : y ≠ x := by rintro rfl; simp at hy
    exact h.entering y (by simpa [hyx] using hy)
  case pending => rw [hh, hq, huid]; exact h.pending
  case fifo => rw [hh]; exact h.fifo.cons_other (by simp) (by simp)
  case given_up =>
    rw [hlife, huid, hh]
    intro y hy
    rw [History.givenUp_cons]
    simpa using h.given_up y (hf y hy)
  case cancelling =>
    rw [hlife, huid, hh]
    intro y hy
    by_cases hyx : y = x
    · simp [hyx]
    · exact List.mem_cons_of_mem _ (h.cancelling y (by simpa [hyx] using hy))
  case cancels_first => rw [hh]; exact h.cancels_first.cons (by simp)

theorem HistOk.accept (h : HistOk a) (hx : a.life x ≠ .absent) (hq : b.queue = a.queue)
    (hlife : b.life = update a.life x .cancelled)
    (hh : b.hist = .cancelled (a.uid x) :: a.hist) (huid : b.uid = a.uid)
    (hnext : b.nextUid = a.nextUid) : HistOk b := by
  have hs := h.set_life (l := .cancelled) hx (by simp) (by simp) (by simp [Life.Fresh])
  constructor
  case uid_lt => rw [hlife, huid, hnext]; exact hs.uid_lt
  case uid_inj => rw [hlife, huid]; exact hs.uid_inj
  case known => rw [hh, hnext]; exact h.known_cons hx rfl
  case arrivals_nodup => rw [hh]; exact h.arrivals_nodup
  case entering => rw [hlife, huid, hh]; exact hs.entering
  case pending => rw [hh, hq, huid]; exact h.pending
  case fifo => rw [hh]; exact h.fifo.cons_other (by simp) (by simp)
  case given_up => rw [hlife, huid, hh]; exact h.given_up_cons hx (by simp [Life.Fresh]) rfl
  case cancelling =>
    rw [hlife, huid, hh]
    exact fun y hy => List.mem_cons_of_mem _ (hs.cancelling y hy)
  case cancels_first => rw [hh]; exact h.cancels_first.cons (by simp)

/-- Only the oldest pending waiter is finished. -/
theorem HistOk.pop (h : HistOk a) {p : Bool} {rest : List ω} (hx : a.life x ≠ .absent)
    (hq : a.queue = x :: rest) (hq' : b.queue = rest)
    (hlife : b.life = update a.life x (.finished p))
    (hh : b.hist = .finished (a.uid x) p :: a.hist) (huid : b.uid = a.uid)
    (hnext : b.nextUid = a.nextUid) : HistOk b := by
  have hs := h.set_life (l := .finished p) hx (by simp) (by simp) (by simp [Life.Fresh])
  have hpend : History.pending a.hist = a.uid x :: rest.map a.uid := by
    rw [h.pending, hq, List.map_cons]
  constructor
  case uid_lt => rw [hlife, huid, hnext]; exact hs.uid_lt
  case uid_inj => rw [hlife, huid]; exact hs.uid_inj
  case known => rw [hh, hnext]; exact h.known_cons hx rfl
  case arrivals_nodup => rw [hh]; exact h.arrivals_nodup
  case entering => rw [hlife, huid, hh]; exact hs.entering
  case pending => rw [hh, hq', huid, History.pending, hpend, List.erase_cons_head]
  case fifo => rw [hh]; exact h.fifo.cons_finished h.arrivals_nodup hpend
  case given_up => rw [hlife, huid, hh]; exact h.given_up_cons hx (by simp [Life.Fresh]) rfl
  case cancelling =>
    rw [hlife, huid, hh]
    exact fun y hy => List.mem_cons_of_mem _ (hs.cancelling y hy)
  case cancels_first => rw [hh]; exact h.cancels_first.cons (by simp)

variable [DecidableEq ι] {cap : ℕ}

theorem HistOk.step (h : Step cap a b) (hi : Inv a) (hh : HistOk a) : HistOk b := by
  cases h with
  | create x n hx =>
    have hq : x ∉ a.queue := fun hm => hi.queue_ne_absent hm hx
    exact (hh.create hx hq).same rfl rfl rfl rfl rfl
  | free x hx hr => exact (hh.free (x := x)).same rfl rfl rfl rfl rfl
  | retire x hx =>
    exact hh.set_life (by simp [hx]) (by simp) (by simp) (by simp [Life.Fresh])
  | fast n m hacq hn =>
    have hq : a.queue = [] := by rw [queue_of_available hacq, hi.available.linked_nil _ hacq]
    have hp : History.pending a.hist = [] := by rw [hh.pending, hq]; rfl
    refine (hh.log (e := .fastPath n) rfl (hh.fifo.cons_fastPath hp n)).same rfl ?_ rfl rfl rfl
    exact (queue_of_available rfl).trans (queue_of_available hacq).symm
  | fastPoll x m hacq hx hn =>
    have hq : a.queue = [] := by rw [queue_of_available hacq, hi.available.linked_nil _ hacq]
    have hp : History.pending a.hist = [] := by rw [hh.pending, hq]; rfl
    have hlog := hh.log (e := .fastPath (a.amount x)) rfl (hh.fifo.cons_fastPath hp _)
    have hset := hlog.set_life (x := x) (l := .done) (by simp [hx]) (by simp) (by simp)
      (by simp [Life.Fresh])
    refine hset.same rfl ?_ rfl rfl rfl
    exact (queue_of_available rfl).trans (queue_of_available hacq).symm
  | enter t x n pushed hr hx hacq =>
    have hpush : a.pushed = pushed := by
      rcases hacq with ⟨h, -, rfl⟩ | ⟨h, -⟩ <;> simp [State.pushed, h]
    refine hh.enter hx ?_ rfl rfl rfl rfl
    rw [queue_of_queued rfl, State.queue, hpush, List.reverse_cons, List.append_assoc]
  | release t n hr => exact (hh.log_other rfl (by simp)).same rfl rfl rfl rfl rfl
  | poison t n hr hn => exact (hh.log_other rfl (by simp)).same rfl rfl rfl rfl rfl
  | dropGuard t n hr hn => exact hh.same rfl rfl rfl rfl rfl
  | forget n hn => exact (hh.log_other rfl (by simp)).same rfl rfl rfl rfl rfl
  | claim x p hx =>
    exact (hh.set_life (x := x) (l := .done) (by simp [hx]) (by simp) (by simp)
      (by simp [Life.Fresh])).same rfl rfl rfl rfl rfl
  | giveBack t x hr hx =>
    exact (hh.set_life (x := x) (l := .done) (by simp [hx]) (by simp) (by simp)
      (by simp [Life.Fresh])).same rfl rfl rfl rfl rfl
  | startCancel t x hr hx =>
    exact hh.start_cancel hx rfl rfl rfl rfl rfl
  | pushCancel t x hr => exact hh.same rfl rfl rfl rfl rfl
  | waited t x hr hx => exact hh.same rfl rfl rfl rfl rfl
  | lock t p q after hr hrel => exact hh.same rfl rfl rfl rfl rfl
  | deferLocked t p after hr hrel => exact hh.same rfl rfl rfl rfl rfl
  | deferDirty t p q after hr hrel => exact hh.same rfl rfl rfl rfl rfl
  | swap o ho hp => exact hh.same rfl rfl rfl rfl rfl
  | flipAvailable o ho hp hacq hl =>
    refine hh.same rfl ?_ rfl rfl rfl
    rw [queue_of_available rfl, queue_of_queued hacq]
    simp
  | flipAdd o q ho hp hacq =>
    exact hh.same rfl ((queue_of_available rfl).trans (queue_of_available hacq).symm) rfl rfl rfl
  | flipTake o pushed ho hp hacq hpush =>
    refine hh.same rfl ?_ rfl rfl rfl
    rw [queue_of_queued rfl, queue_of_queued hacq]
    simp
  | flipSkip o ho hp hacq hl => exact hh.same rfl rfl rfl rfl rfl
  | unlink o x taken ho hp ht =>
    have hx : x ∈ a.taken := by simp [taken_of_owner ho, ht]
    have hmem : x ∈ a.linked :=
      hi.marked.taken_linked o ho (by simp [hp, Phase.Flipped]) x (by simp [ht])
    refine hh.unlink hi (hi.taken_life hx) ?_ rfl rfl rfl rfl
    exact (List.erase_append_left _ hmem).symm
  | accept o x ho hp =>
    have hx := hi.accepting_life (x := x) (by simp [accepting_of_owner ho, hp, Phase.accepting])
    exact hh.accept (by simp [hx]) rfl rfl rfl rfl rfl
  | cancelled o ho hp ht => exact hh.same rfl rfl rfl rfl rfl
  | grant o x linked n ho hp hl hx hr hn =>
    have hq : a.queue = x :: (linked ++ a.pushed.reverse) := by
      rw [State.queue, hl]
      rfl
    exact hh.pop (by simp [hx]) hq rfl rfl rfl rfl rfl
  | fail o x linked ho hp hl hx hr =>
    have hq : a.queue = x :: (linked ++ a.pushed.reverse) := by
      rw [State.queue, hl]
      rfl
    exact hh.pop (by simp [hx]) hq rfl rfl rfl rfl rfl
  | stop o ho hp hb => exact hh.same rfl rfl rfl rfl rfl
  | relock o q ho hp hrel => exact hh.same rfl rfl rfl rfl rfl
  | unlock o after ho hp hrel hr => exact hh.same rfl rfl rfl rfl rfl

end Protocol

end WeightedSemaphore
