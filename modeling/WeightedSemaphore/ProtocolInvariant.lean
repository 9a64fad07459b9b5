import WeightedSemaphore.Protocol
import Mathlib.Tactic.Common

/-!
# Invariants of the abstract protocol

Six groups of facts about the queue, the lock, the acquire word, the announced cancellations, the
threads that cancel, and the work that is still due. Each is preserved by every step.
-/

namespace WeightedSemaphore.Protocol

open Function (update)

variable {ι ω : Type}

/-- The queue holds exactly the waiters that are queued or cancelling, but for one that the lock
owner has unlinked and not accepted. -/
structure QueueOk (queue accepting : List ω) (life : ω → Life) : Prop where
  nodup : (queue ++ accepting).Nodup
  life_mem : ∀ x ∈ queue, life x = .queued ∨ life x = .cancelling
  queued_mem : ∀ x, life x = .queued → x ∈ queue
  cancelling_mem : ∀ x, life x = .cancelling → x ∈ queue ++ accepting

structure LockOk (rel : Rel) (owner : Option (Owner ι ω)) (role : ι → Role ω) : Prop where
  owner_none : owner = none ↔ ∃ p, rel = .unlocked p
  owner_role : ∀ o, owner = some o → ∃ k, role o.thread = .owning k
  role_owner : ∀ t k, role t = .owning k → ∃ o, owner = some o ∧ o.thread = t

/-- While permits are available the queue is empty and neither the release word nor the lock owner
past its flip holds any. -/
structure AvailableOk (acq : Acq ω) (rel : Rel) (linked : List ω) (owner : Option (Owner ι ω)) :
    Prop where
  linked_nil : ∀ p, acq = .available p → linked = []
  unlocked : ∀ p r, acq = .available p → rel = .unlocked r → r = some 0
  owner_zero : ∀ p o, acq = .available p → owner = some o → o.phase.Flipped →
    o.releasable = some 0

structure MarkedOk (marked linked : List ω) (life : ω → Life) (owner : Option (Owner ι ω)) :
    Prop where
  nodup : marked.Nodup
  life_mem : ∀ x ∈ marked, life x = .cancelling
  taken_linked : ∀ o, owner = some o → o.phase.Flipped → ∀ x ∈ o.taken, x ∈ linked
  taken_nil : ∀ o, owner = some o → o.phase = .swap ∨ o.phase = .pop ∨ o.phase = .unlock →
    o.taken = []

/-- A cancelling waiter is held by exactly one thread, which has announced it or is about to. -/
structure HoldsOk (role : ι → Role ω) (life : ω → Life) (marked : List ω) : Prop where
  unique : ∀ t t' x, (role t).holds = some x → (role t').holds = some x → t = t'
  held : ∀ x, life x = .cancelling → ∃ t, (role t).holds = some x
  life_of : ∀ t x, (role t).holds = some x → life x = .cancelling ∨ life x = .cancelled
  cancelling : ∀ t x, role t = .cancelling x → life x = .cancelling ∧ x ∉ marked
  mem_marked : ∀ t x, (role t).holds = some x → role t ≠ .cancelling x → life x = .cancelling →
    x ∈ marked

/-- Pushes and announced cancellations that the lock owner has not seen will be seen in a later
pass. -/
structure DutyOk (pushed cstack : List ω) (rel : Rel) (owner : Option (Owner ι ω))
    (role : ι → Role ω) : Prop where
  pushed : pushed ≠ [] → (∃ t p k, role t = .releasing p k) ∨
    (∃ o, owner = some o ∧ ¬ o.phase.Flipped) ∨ ∃ p, rel = .lockedDirty p
  cstack : ∀ t x, role t = .waiting x ∨ role t = .owning (some x) → x ∈ cstack →
    (∃ o, owner = some o ∧ o.phase = .swap) ∨ ∃ p, rel = .lockedDirty p

/-- Whoever holds the permits cannot serve the front of the queue with them. -/
structure BlockedOk (a : State ι ω) : Prop where
  unlock : ∀ o, a.owner = some o → o.phase = .unlock → a.Blocked o.releasable
  unlocked : ∀ r, a.rel = .unlocked r → a.Blocked r

structure Inv (a : State ι ω) : Prop where
  queue : QueueOk a.queue a.accepting a.life
  live : ∀ x, x ∈ a.live ↔ a.life x ≠ .absent
  lock : LockOk a.rel a.owner a.role
  available : AvailableOk a.acq a.rel a.linked a.owner
  marked : MarkedOk a.marked a.linked a.life a.owner
  holds : HoldsOk a.role a.life a.marked
  duty : DutyOk a.pushed a.cstack a.rel a.owner a.role
  blocked : BlockedOk a

theorem accepting_of_owner {a : State ι ω} {o : Owner ι ω} (ho : a.owner = some o) :
    a.accepting = o.phase.accepting := by
  simp only [State.accepting, ho]

theorem taken_of_owner {a : State ι ω} {o : Owner ι ω} (ho : a.owner = some o) :
    a.taken = o.taken := by
  simp only [State.taken, ho]

theorem queue_of_available {a : State ι ω} {p : Tally} (h : a.acq = .available p) :
    a.queue = a.linked := by
  simp [State.queue, State.pushed, h]

theorem queue_of_queued {a : State ι ω} {pushed : List ω} (h : a.acq = .queued pushed) :
    a.queue = a.linked ++ pushed.reverse := by
  simp [State.queue, State.pushed, h]

theorem Inv.init (cap initial : ℕ) : Inv (State.init cap initial : State ι ω) where
  queue := ⟨by simp [State.queue, State.pushed, State.accepting, State.init],
    by simp [State.queue, State.pushed, State.init], by simp [State.init], by simp [State.init]⟩
  live := by simp [State.init]
  lock := ⟨by simp [State.init], by simp [State.init], by simp [State.init]⟩
  available := ⟨by simp [State.init], by simp [State.init], by simp [State.init]⟩
  marked := ⟨by simp [State.marked, State.accepting, State.taken, State.init],
    by simp [State.marked, State.accepting, State.taken, State.init], by simp [State.init],
    by simp [State.init]⟩
  holds := ⟨by simp [State.init, Role.holds], by simp [State.init],
    by simp [State.init, Role.holds],
    by simp [State.init], by simp [State.init, Role.holds]⟩
  duty := ⟨by simp [State.pushed, State.init], by simp [State.init]⟩
  blocked := ⟨by simp [State.init], by simp [State.Blocked, State.init]⟩

variable {a : State ι ω}

theorem QueueOk.not_mem {queue accepting : List ω} {life : ω → Life} {x : ω}
    (h : QueueOk queue accepting life) (hx₁ : life x ≠ .queued)
    (hx₂ : life x ≠ .cancelling) : x ∉ queue := fun hx =>
  (h.life_mem x hx).elim hx₁ hx₂

/-- A waiter that the lock owner has in hand is cancelling. -/
theorem Inv.accepting_life (hi : Inv a) {x : ω} (hx : x ∈ a.accepting) : a.life x = .cancelling :=
  hi.marked.life_mem x (by simp [State.marked, hx])

theorem Inv.taken_life (hi : Inv a) {x : ω} (hx : x ∈ a.taken) : a.life x = .cancelling :=
  hi.marked.life_mem x (by simp [State.marked, hx])

theorem Inv.cstack_queue (hi : Inv a) {x : ω} (hx : x ∈ a.cstack) : x ∈ a.queue := by
  have hm := hi.queue.cancelling_mem x (hi.marked.life_mem x (by simp [State.marked, hx]))
  have hnd := hi.marked.nodup
  simp only [State.marked] at hnd
  grind

theorem Inv.taken_queue (hi : Inv a) {x : ω} (hx : x ∈ a.taken) : x ∈ a.queue := by
  have hm := hi.queue.cancelling_mem x (hi.taken_life hx)
  have hnd := hi.marked.nodup
  simp only [State.marked] at hnd
  grind

variable [DecidableEq ι] [DecidableEq ω] {cap : ℕ} {b : State ι ω}

theorem life_update_iff {life : ω → Life} {x y : ω} {l k : Life} (hx : life x ≠ k) (hl : l ≠ k) :
    update life x l y = k ↔ life y = k := by
  by_cases h : y = x
  · subst h; simp [hx, hl]
  · simp [h]

theorem life_update_of_eq {life : ω → Life} {x y : ω} {l k : Life} (hx : life x ≠ k)
    (hy : life y = k) : update life x l y = k := by
  rw [Function.update_of_ne (by rintro rfl; exact hx hy), hy]

namespace QueueOk

variable {queue accepting : List ω} {life : ω → Life} {x : ω} {l : Life}

/-- A waiter outside of the queue changes its life. -/
theorem outside (h : QueueOk queue accepting life) (hx₁ : life x ≠ .queued)
    (hx₂ : life x ≠ .cancelling) (hl₁ : l ≠ .queued) (hl₂ : l ≠ .cancelling) :
    QueueOk queue accepting (update life x l) where
  nodup := h.nodup
  life_mem y hy := by
    rw [life_update_iff hx₁ hl₁, life_update_iff hx₂ hl₂]
    exact h.life_mem y hy
  queued_mem y hy := h.queued_mem y ((life_update_iff hx₁ hl₁).mp hy)
  cancelling_mem y hy := h.cancelling_mem y ((life_update_iff hx₂ hl₂).mp hy)

theorem push (h : QueueOk queue accepting life) (hx : life x = .entering) (hacc : x ∉ accepting) :
    QueueOk (queue ++ [x]) accepting (update life x .queued) where
  nodup := by
    have hq : x ∉ queue := h.not_mem (by simp [hx]) (by simp [hx])
    have := h.nodup
    grind
  life_mem y hy := by
    by_cases hyx : y = x
    · subst hyx; simp
    · rw [Function.update_of_ne hyx]
      exact h.life_mem y (by simpa [hyx] using hy)
  queued_mem y hy := by
    by_cases hyx : y = x
    · simp [hyx]
    · rw [Function.update_of_ne hyx] at hy
      simp [h.queued_mem y hy]
  cancelling_mem y hy := by
    have hy' := h.cancelling_mem y ((life_update_iff (by simp [hx]) (by simp)).mp hy)
    simp only [List.mem_append] at hy' ⊢
    tauto

theorem start_cancel (h : QueueOk queue accepting life) (hx : life x = .queued) :
    QueueOk queue accepting (update life x .cancelling) where
  nodup := h.nodup
  life_mem y hy := by
    by_cases hyx : y = x
    · subst hyx; simp
    · rw [Function.update_of_ne hyx]
      exact h.life_mem y hy
  queued_mem y hy := by
    by_cases hyx : y = x
    · subst hyx; simp at hy
    · exact h.queued_mem y (by rwa [Function.update_of_ne hyx] at hy)
  cancelling_mem y hy := by
    by_cases hyx : y = x
    · subst hyx; simp [h.queued_mem y hx]
    · exact h.cancelling_mem y (by rwa [Function.update_of_ne hyx] at hy)

theorem unlink (h : QueueOk queue [] life) (hx : life x = .cancelling) :
    QueueOk (queue.erase x) [x] life where
  nodup := by
    have hnd : queue.Nodup := by simpa using h.nodup
    have hx' : x ∉ queue.erase x := hnd.not_mem_erase
    have := hnd.erase x
    grind
  life_mem y hy := h.life_mem y (List.mem_of_mem_erase hy)
  queued_mem y hy := by
    have hne : y ≠ x := by rintro rfl; simp [hx] at hy
    exact (List.mem_erase_of_ne hne).mpr (h.queued_mem y hy)
  cancelling_mem y hy := by
    have hyq : y ∈ queue := by simpa using h.cancelling_mem y hy
    by_cases hyx : y = x
    · simp [hyx]
    · simp [(List.mem_erase_of_ne hyx).mpr hyq]

theorem accept (h : QueueOk queue [x] life) : QueueOk queue [] (update life x .cancelled) := by
  have hxq : x ∉ queue := by
    have := h.nodup
    grind
  constructor
  · have := h.nodup
    grind
  · intro y hy
    rw [Function.update_of_ne (by rintro rfl; exact hxq hy)]
    exact h.life_mem y hy
  · intro y hy
    by_cases hyx : y = x
    · subst hyx; simp at hy
    · exact h.queued_mem y (by rwa [Function.update_of_ne hyx] at hy)
  · intro y hy
    by_cases hyx : y = x
    · subst hyx; simp at hy
    · simpa [hyx] using h.cancelling_mem y (by rwa [Function.update_of_ne hyx] at hy)

theorem pop {rest : List ω} {p : Bool} (h : QueueOk (x :: rest) [] life) :
    QueueOk rest [] (update life x (.finished p)) := by
  have hnd : (x :: rest).Nodup := by simpa using h.nodup
  obtain ⟨hx, hrest⟩ := List.nodup_cons.mp hnd
  constructor
  · simpa using hrest
  · intro y hy
    rw [Function.update_of_ne (by rintro rfl; exact hx hy)]
    exact h.life_mem y (by simp [hy])
  · intro y hy
    by_cases hyx : y = x
    · subst hyx; simp at hy
    · simpa [hyx] using h.queued_mem y (by rwa [Function.update_of_ne hyx] at hy)
  · intro y hy
    by_cases hyx : y = x
    · subst hyx; simp at hy
    · simpa [hyx] using h.cancelling_mem y (by rwa [Function.update_of_ne hyx] at hy)

end QueueOk

theorem Inv.queue_step (h : Step cap a b) (hi : Inv a) : QueueOk b.queue b.accepting b.life := by
  have hq := hi.queue
  cases h with
  | create x n hx => exact hq.outside (by simp [hx]) (by simp [hx]) (by simp) (by simp)
  | free x hx hr =>
    exact hq.outside (by rintro h; simp [h] at hx) (by rintro h; simp [h] at hx) (by simp)
      (by simp)
  | retire x hx => exact hq.outside (by simp [hx]) (by simp [hx]) (by simp) (by simp)
  | fast n m hacq hn =>
    rw [queue_of_available hacq] at hq
    exact cast (congrArg (QueueOk · _ _) (queue_of_available rfl).symm) hq
  | fastPoll x m hacq hx hn =>
    rw [queue_of_available hacq] at hq
    have := hq.outside (x := x) (l := .done) (by simp [hx]) (by simp [hx]) (by simp) (by simp)
    exact cast (congrArg (QueueOk · _ _) (queue_of_available rfl).symm) this
  | enter t x n pushed hr hx hacq =>
    have hacc : x ∉ a.accepting := fun hm => by simp [hi.accepting_life hm] at hx
    have hpush : a.pushed = pushed := by
      rcases hacq with ⟨h, -, rfl⟩ | ⟨h, -⟩ <;> simp [State.pushed, h]
    have := hq.push hx hacc
    rw [State.queue, hpush, List.append_assoc] at this
    rw [queue_of_queued rfl, List.reverse_cons]
    exact this
  | claim x p hx => exact hq.outside (by simp [hx]) (by simp [hx]) (by simp) (by simp)
  | giveBack t x hr hx => exact hq.outside (by simp [hx]) (by simp [hx]) (by simp) (by simp)
  | startCancel t x hr hx => exact hq.start_cancel hx
  | lock t p q after hr hrel =>
    have ho : a.owner = none := hi.lock.owner_none.mpr ⟨q, hrel⟩
    simp only [State.accepting, ho] at hq
    exact hq
  | swap o ho hp =>
    rw [accepting_of_owner ho, hp] at hq
    exact hq
  | flipAvailable o ho hp hacq hl =>
    rw [accepting_of_owner ho, hp, queue_of_queued hacq, hl] at hq
    rw [queue_of_available rfl]
    change QueueOk a.linked [] a.life
    rw [hl]
    exact hq
  | flipAdd o q ho hp hacq =>
    rw [accepting_of_owner ho, hp, queue_of_available hacq] at hq
    rw [queue_of_available rfl]
    exact hq
  | flipTake o pushed ho hp hacq hpush =>
    rw [accepting_of_owner ho, hp, queue_of_queued hacq] at hq
    rw [queue_of_queued rfl, List.reverse_nil, List.append_nil]
    exact hq
  | flipSkip o ho hp hacq hl =>
    rw [accepting_of_owner ho, hp] at hq
    exact hq
  | unlink o x taken ho hp ht =>
    have hx : x ∈ a.taken := by simp [taken_of_owner ho, ht]
    have hmem : x ∈ a.linked :=
      hi.marked.taken_linked o ho (by simp [hp, Phase.Flipped]) x (by simp [ht])
    rw [accepting_of_owner ho, hp] at hq
    have := hq.unlink (hi.taken_life hx)
    rw [State.queue, List.erase_append_left _ hmem] at this
    exact this
  | accept o x ho hp =>
    rw [accepting_of_owner ho, hp] at hq
    exact hq.accept
  | cancelled o ho hp ht =>
    rw [accepting_of_owner ho, hp] at hq
    exact hq
  | grant o x linked n ho hp hl hx hr hn =>
    rw [accepting_of_owner ho, hp, State.queue, hl] at hq
    have := hq.pop (p := false)
    simp only [State.accepting, hp]
    exact this
  | fail o x linked ho hp hl hx hr =>
    rw [accepting_of_owner ho, hp, State.queue, hl] at hq
    have := hq.pop (p := true)
    simp only [State.accepting, ho, hp]
    exact this
  | stop o ho hp hb =>
    rw [accepting_of_owner ho, hp] at hq
    exact hq
  | relock o q ho hp hrel =>
    rw [accepting_of_owner ho, hp] at hq
    exact hq
  | unlock o after ho hp hrel hr =>
    rw [accepting_of_owner ho, hp] at hq
    exact hq
  | _ => exact hq

theorem Inv.live_step (h : Step cap a b) (hi : Inv a) (x : ω) :
    x ∈ b.live ↔ b.life x ≠ .absent := by
  have hl := hi.live x
  have keep {y : ω} {l : Life} (hy : a.life y ≠ .absent) (hl' : l ≠ .absent) :
      x ∈ a.live ↔ update a.life y l x ≠ .absent := by
    rw [hl, Ne, Ne, life_update_iff hy hl']
  cases h with
  | create y n hy =>
    by_cases hxy : x = y
    · subst hxy; simp
    · simpa [hxy] using hl
  | free y hy hr =>
    by_cases hxy : x = y
    · subst hxy; simp
    · simpa [hxy] using hl
  | retire y hy => exact keep (by simp [hy]) (by simp)
  | fastPoll y m hacq hy hn => exact keep (by simp [hy]) (by simp)
  | enter t y n pushed hr hy hacq => exact keep (by simp [hy]) (by simp)
  | claim y p hy => exact keep (by simp [hy]) (by simp)
  | giveBack t y hr hy => exact keep (by simp [hy]) (by simp)
  | startCancel t y hr hy => exact keep (by simp [hy]) (by simp)
  | accept o y ho hp =>
    have hy := hi.accepting_life (x := y) (by simp [accepting_of_owner ho, hp, Phase.accepting])
    exact keep (by simp [hy]) (by simp)
  | grant o y linked n ho hp hl hy hr hn => exact keep (by simp [hy]) (by simp)
  | fail o y linked ho hp hl hy hr => exact keep (by simp [hy]) (by simp)
  | _ => exact hl

namespace LockOk

variable {rel rel' : Rel} {owner : Option (Owner ι ω)} {role : ι → Role ω} {o o' : Owner ι ω}
  {t : ι} {r : Role ω}

omit [DecidableEq ω] in
theorem set_role (h : LockOk rel owner role) (ht : ∀ k, role t ≠ .owning k)
    (hr : ∀ k, r ≠ .owning k) : LockOk rel owner (update role t r) where
  owner_none := h.owner_none
  owner_role o ho := by
    obtain ⟨k, hk⟩ := h.owner_role o ho
    have hne : o.thread ≠ t := fun he => ht k (he ▸ hk)
    exact ⟨k, by rw [Function.update_of_ne hne, hk]⟩
  role_owner u k hu := by
    by_cases hut : u = t
    · subst hut; exact absurd (by simpa using hu) (hr k)
    · exact h.role_owner u k (by rwa [Function.update_of_ne hut] at hu)

omit [DecidableEq ι] [DecidableEq ω] in
theorem set_owner (h : LockOk rel owner role) (ho : owner = some o)
    (ho' : o'.thread = o.thread) : LockOk rel (some o') role where
  owner_none := by simpa [ho] using h.owner_none
  owner_role _ := by
    rintro ⟨⟩
    rw [ho']
    exact h.owner_role o ho
  role_owner u k hu := by
    obtain ⟨o₁, ho₁, hu₁⟩ := h.role_owner u k hu
    obtain rfl : o₁ = o := Option.some.inj (ho₁.symm.trans ho)
    exact ⟨o', rfl, ho'.trans hu₁⟩

omit [DecidableEq ι] [DecidableEq ω] in
theorem set_rel (h : LockOk rel owner role) (hrel : ∀ p, rel ≠ .unlocked p)
    (hrel' : ∀ p, rel' ≠ .unlocked p) : LockOk rel' owner role where
  owner_none := by
    rw [h.owner_none]
    exact ⟨fun ⟨p, hp⟩ => absurd hp (hrel p), fun ⟨p, hp⟩ => absurd hp (hrel' p)⟩
  owner_role := h.owner_role
  role_owner := h.role_owner

end LockOk

omit [DecidableEq ω] in
theorem Role.after_ne_owning (k k' : Option ω) : Role.after k ≠ .owning k' := by
  cases k <;> simp [Role.after]

theorem Inv.lock_step (h : Step cap a b) (hi : Inv a) : LockOk b.rel b.owner b.role := by
  have hl := hi.lock
  cases h with
  | enter t x n pushed hr hx hacq => exact hl.set_role (by simp [hr]) (by simp)
  | release t n hr => exact hl.set_role (by simp [hr]) (by simp)
  | poison t n hr hn => exact hl.set_role (by simp [hr]) (by simp)
  | dropGuard t n hr hn => exact hl.set_role (by simp [hr]) (by simp)
  | giveBack t x hr hx => exact hl.set_role (by simp [hr]) (by simp)
  | startCancel t x hr hx => exact hl.set_role (by simp [hr]) (by simp)
  | pushCancel t x hr => exact hl.set_role (by simp [hr]) (by simp)
  | waited t x hr hx => exact hl.set_role (by simp [hr]) (by simp)
  | lock t p q after hr hrel =>
    have ho : a.owner = none := hl.owner_none.mpr ⟨q, hrel⟩
    refine ⟨by simp, ?_, ?_⟩
    · rintro _ ⟨⟩
      exact ⟨after, by simp⟩
    · intro u k hu
      by_cases hut : u = t
      · exact ⟨_, rfl, hut.symm⟩
      · obtain ⟨o, ho', -⟩ := hl.role_owner u k (by simpa [hut] using hu)
        simp [ho] at ho'
  | deferLocked t p after hr hrel =>
    exact (hl.set_role (by simp [hr]) (Role.after_ne_owning _)).set_rel (by simp [hrel])
      (by simp)
  | deferDirty t p q after hr hrel =>
    exact (hl.set_role (by simp [hr]) (Role.after_ne_owning _)).set_rel (by simp [hrel])
      (by simp)
  | swap o ho hp => exact hl.set_owner ho rfl
  | flipAvailable o ho hp hacq hlink => exact hl.set_owner ho rfl
  | flipAdd o q ho hp hacq => exact hl.set_owner ho rfl
  | flipTake o pushed ho hp hacq hpush => exact hl.set_owner ho rfl
  | flipSkip o ho hp hacq hlink => exact hl.set_owner ho rfl
  | unlink o x taken ho hp ht => exact hl.set_owner ho rfl
  | accept o x ho hp => exact hl.set_owner ho rfl
  | cancelled o ho hp ht => exact hl.set_owner ho rfl
  | grant o x linked n ho hp hlink hx hr hn => exact hl.set_owner ho rfl
  | stop o ho hp hb => exact hl.set_owner ho rfl
  | relock o q ho hp hrel => exact (hl.set_rel (by simp [hrel]) (by simp)).set_owner ho rfl
  | unlock o after ho hp hrel hr =>
    refine ⟨by simp, by simp, ?_⟩
    intro u k hu
    by_cases hut : u = o.thread
    · subst hut
      exact absurd (by simpa using hu) (Role.after_ne_owning after k)
    · obtain ⟨o', ho', hu'⟩ := hl.role_owner u k (by simpa [hut] using hu)
      rw [ho] at ho'
      cases ho'
      exact absurd hu'.symm hut
  | _ => exact hl

theorem Inv.available_step (h : Step cap a b) (hi : Inv a) :
    AvailableOk b.acq b.rel b.linked b.owner := by
  have ha := hi.available
  cases h with
  | fast n m hacq hn =>
    exact ⟨fun _ _ => ha.linked_nil _ hacq, fun _ r _ hr => ha.unlocked _ r hacq hr,
      fun _ o _ ho hf => ha.owner_zero _ o hacq ho hf⟩
  | fastPoll x m hacq hx hn =>
    exact ⟨fun _ _ => ha.linked_nil _ hacq, fun _ r _ hr => ha.unlocked _ r hacq hr,
      fun _ o _ ho hf => ha.owner_zero _ o hacq ho hf⟩
  | enter t x n pushed hr hx hacq => exact ⟨by simp, by simp, by simp⟩
  | lock t p q after hr hrel =>
    exact ⟨ha.linked_nil, by simp, by rintro _ _ _ ⟨⟩ hf; exact hf.elim⟩
  | deferLocked t p after hr hrel => exact ⟨ha.linked_nil, by simp, ha.owner_zero⟩
  | deferDirty t p q after hr hrel => exact ⟨ha.linked_nil, by simp, ha.owner_zero⟩
  | swap o ho hp =>
    exact ⟨ha.linked_nil, ha.unlocked, by rintro _ _ _ ⟨⟩ hf; exact hf.elim⟩
  | flipAvailable o ho hp hacq hl =>
    refine ⟨fun _ _ => hl, fun _ r _ hr => ?_, by rintro _ _ _ ⟨⟩ _; rfl⟩
    have := hi.lock.owner_none.mpr ⟨r, hr⟩
    simp [ho] at this
  | flipAdd o q ho hp hacq =>
    exact ⟨fun _ _ => ha.linked_nil _ hacq, fun _ r _ hr => ha.unlocked _ r hacq hr,
      by rintro _ _ _ ⟨⟩ _; rfl⟩
  | flipTake o pushed ho hp hacq hpush => exact ⟨by simp, by simp, by simp⟩
  | flipSkip o ho hp hacq hl => exact ⟨by simp [hacq], by simp [hacq], by simp [hacq]⟩
  | unlink o x taken ho hp ht =>
    refine ⟨fun p hacq => ?_, ha.unlocked, ?_⟩
    · simp [ha.linked_nil p hacq]
    · rintro p _ hacq ⟨⟩ -
      exact ha.owner_zero p o hacq ho (by simp [hp, Phase.Flipped])
  | accept o x ho hp =>
    refine ⟨ha.linked_nil, ha.unlocked, ?_⟩
    rintro p _ hacq ⟨⟩ -
    exact ha.owner_zero p o hacq ho (by simp [hp, Phase.Flipped])
  | cancelled o ho hp ht =>
    refine ⟨ha.linked_nil, ha.unlocked, ?_⟩
    rintro p _ hacq ⟨⟩ -
    exact ha.owner_zero p o hacq ho (by simp [hp, Phase.Flipped])
  | grant o x linked n ho hp hl hx hr hn =>
    have hne : ∀ p, a.acq ≠ .available p := fun p hacq => by
      simpa [hl] using ha.linked_nil p hacq
    exact ⟨fun p h => absurd h (hne p), ha.unlocked, fun p _ h => absurd h (hne p)⟩
  | fail o x linked ho hp hl hx hr =>
    have hne : ∀ p, a.acq ≠ .available p := fun p hacq => by
      simpa [hl] using ha.linked_nil p hacq
    exact ⟨fun p h => absurd h (hne p), ha.unlocked, fun p _ h => absurd h (hne p)⟩
  | stop o ho hp hb =>
    refine ⟨ha.linked_nil, ha.unlocked, ?_⟩
    rintro p _ hacq ⟨⟩ -
    exact ha.owner_zero p o hacq ho (by simp [hp, Phase.Flipped])
  | relock o q ho hp hrel =>
    exact ⟨ha.linked_nil, by simp, by rintro _ _ _ ⟨⟩ hf; exact hf.elim⟩
  | unlock o after ho hp hrel hr =>
    refine ⟨ha.linked_nil, ?_, by simp⟩
    rintro p _ hacq ⟨⟩
    exact ha.owner_zero p o hacq ho (by simp [hp, Phase.Flipped])
  | _ => exact ha

namespace MarkedOk

variable {marked linked : List ω} {life : ω → Life} {owner : Option (Owner ι ω)} {x : ω}
  {l : Life}

omit [DecidableEq ι] in
/-- A waiter that is not cancelling changes its life. -/
theorem outside (h : MarkedOk marked linked life owner) (hx : life x ≠ .cancelling) :
    MarkedOk marked linked (update life x l) owner where
  nodup := h.nodup
  life_mem y hy := by
    have hl := h.life_mem y hy
    rwa [Function.update_of_ne (by rintro rfl; exact hx hl)]
  taken_linked := h.taken_linked
  taken_nil := h.taken_nil

omit [DecidableEq ι] in
theorem start_cancel (h : MarkedOk marked linked life owner) :
    MarkedOk marked linked (update life x .cancelling) owner where
  nodup := h.nodup
  life_mem y hy := by
    by_cases hyx : y = x
    · simp [hyx]
    · rw [Function.update_of_ne hyx]
      exact h.life_mem y hy
  taken_linked := h.taken_linked
  taken_nil := h.taken_nil

end MarkedOk

omit [DecidableEq ι] [DecidableEq ω] in
/-- The lock owner of an unfinished pass has nothing in hand before its swap and after its cancels.
-/
theorem Inv.taken_nil (hi : Inv a) {o : Owner ι ω} (ho : a.owner = some o)
    (hp : o.phase = .swap ∨ o.phase = .pop ∨ o.phase = .unlock) : a.taken = [] := by
  rw [taken_of_owner ho]
  exact hi.marked.taken_nil o ho hp

theorem Inv.marked_step (h : Step cap a b) (hi : Inv a) :
    MarkedOk b.marked b.linked b.life b.owner := by
  have hm := hi.marked
  cases h with
  | create x n hx => exact hm.outside (by simp [hx])
  | free x hx hr => exact hm.outside (by rintro h; simp [h] at hx)
  | retire x hx => exact hm.outside (by simp [hx])
  | fastPoll x m hacq hx hn => exact hm.outside (by simp [hx])
  | enter t x n pushed hr hx hacq => exact hm.outside (by simp [hx])
  | claim x p hx => exact hm.outside (by simp [hx])
  | giveBack t x hr hx => exact hm.outside (by simp [hx])
  | startCancel t x hr hx => exact hm.start_cancel
  | pushCancel t x hr =>
    obtain ⟨hx, hxm⟩ := hi.holds.cancelling t x hr
    refine ⟨List.nodup_cons.mpr ⟨hxm, hm.nodup⟩, ?_, hm.taken_linked, hm.taken_nil⟩
    intro y hy
    rcases List.mem_cons.mp hy with rfl | hy
    · exact hx
    · exact hm.life_mem y hy
  | lock t p q after hr hrel =>
    have ho : a.owner = none := hi.lock.owner_none.mpr ⟨q, hrel⟩
    simp only [State.marked, State.accepting, State.taken, ho] at hm
    exact ⟨hm.nodup, hm.life_mem, by rintro _ ⟨⟩ hf; exact hf.elim, by rintro _ ⟨⟩ _; rfl⟩
  | swap o ho hp =>
    have hmark : a.marked = a.cstack := by
      simp [State.marked, accepting_of_owner ho, hp, Phase.accepting,
        hi.taken_nil ho (Or.inl hp)]
    rw [hmark] at hm
    exact ⟨hm.nodup, hm.life_mem, by rintro _ ⟨⟩ hf; exact hf.elim, by rintro _ ⟨⟩ hf; simp at hf⟩
  | flipAvailable o ho hp hacq hl =>
    simp only [State.marked, accepting_of_owner ho, hp, taken_of_owner ho] at hm
    refine ⟨hm.nodup, hm.life_mem, ?_, by rintro _ ⟨⟩ hf; simp at hf⟩
    rintro _ ⟨⟩ - x hx
    have hq := hi.taken_queue (x := x) (by rwa [taken_of_owner ho])
    simpa [queue_of_queued hacq] using hq
  | flipAdd o q ho hp hacq =>
    simp only [State.marked, accepting_of_owner ho, hp, taken_of_owner ho] at hm
    refine ⟨hm.nodup, hm.life_mem, ?_, by rintro _ ⟨⟩ hf; simp at hf⟩
    rintro _ ⟨⟩ - x hx
    have hq := hi.taken_queue (x := x) (by rwa [taken_of_owner ho])
    simpa [queue_of_available hacq] using hq
  | flipTake o pushed ho hp hacq hpush =>
    simp only [State.marked, accepting_of_owner ho, hp, taken_of_owner ho] at hm
    refine ⟨hm.nodup, hm.life_mem, ?_, by rintro _ ⟨⟩ hf; simp at hf⟩
    rintro _ ⟨⟩ - x hx
    have hq := hi.taken_queue (x := x) (by rwa [taken_of_owner ho])
    rwa [queue_of_queued hacq] at hq
  | flipSkip o ho hp hacq hl =>
    simp only [State.marked, accepting_of_owner ho, hp, taken_of_owner ho] at hm
    refine ⟨hm.nodup, hm.life_mem, ?_, by rintro _ ⟨⟩ hf; simp at hf⟩
    rintro _ ⟨⟩ - x hx
    have hq := hi.taken_queue (x := x) (by rwa [taken_of_owner ho])
    simpa [queue_of_queued hacq] using hq
  | unlink o x taken ho hp ht =>
    have hlink := hm.taken_linked o ho (by simp [hp, Phase.Flipped])
    simp only [State.marked, accepting_of_owner ho, hp, taken_of_owner ho, ht] at hm
    refine ⟨hm.nodup, hm.life_mem, ?_, by rintro _ ⟨⟩ hf; simp at hf⟩
    rintro _ ⟨⟩ - y hy
    have hne : y ≠ x := by
      have hnd : (x :: taken).Nodup := (List.nodup_append.mp hm.nodup).2.1
      rintro rfl
      exact (List.nodup_cons.mp hnd).1 hy
    exact (List.mem_erase_of_ne hne).mpr (hlink y (by simp [ht, hy]))
  | accept o x ho hp =>
    have hlink := hm.taken_linked o ho (by simp [hp, Phase.Flipped])
    have hnd := hm.nodup
    have hlife := hm.life_mem
    simp only [State.marked, accepting_of_owner ho, hp, Phase.accepting, taken_of_owner ho]
      at hnd hlife
    simp only [State.marked, State.accepting, State.taken, Phase.accepting]
    refine ⟨by grind, ?_, ?_, by rintro _ ⟨⟩ hf; simp at hf⟩
    · intro y hy
      have hne : y ≠ x := by
        rintro rfl
        grind
      rw [Function.update_of_ne hne]
      exact hlife y (by grind)
    · rintro _ ⟨⟩ - y hy
      exact hlink y hy
  | cancelled o ho hp ht =>
    have hmark : a.marked = a.cstack := by
      simp [State.marked, accepting_of_owner ho, hp, Phase.accepting, taken_of_owner ho, ht]
    rw [hmark] at hm
    refine ⟨?_, ?_, by rintro _ ⟨⟩ -; simp [ht], by rintro _ ⟨⟩ -; exact ht⟩
    · simpa [State.marked, State.accepting, State.taken, Phase.accepting, ht] using hm.nodup
    · simpa [State.marked, State.accepting, State.taken, Phase.accepting, ht] using hm.life_mem
  | grant o x linked n ho hp hl hx hr hn =>
    have ht := hm.taken_nil o ho (by simp [hp])
    have := hm.outside (x := x) (l := .finished false) (by simp [hx])
    simp only [State.marked, accepting_of_owner ho, taken_of_owner ho] at this
    exact ⟨this.nodup, this.life_mem, by rintro _ ⟨⟩ -; simp [ht], by rintro _ ⟨⟩ -; exact ht⟩
  | fail o x linked ho hp hl hx hr =>
    have ht := hm.taken_nil o ho (by simp [hp])
    have := hm.outside (x := x) (l := .finished true) (by simp [hx])
    refine ⟨this.nodup, this.life_mem, ?_, hm.taken_nil⟩
    intro o' ho'
    obtain rfl : o' = o := Option.some.inj (ho'.symm.trans ho)
    simp [ht]
  | stop o ho hp hb =>
    have ht := hm.taken_nil o ho (by simp [hp])
    simp only [State.marked, accepting_of_owner ho, hp, taken_of_owner ho] at hm
    exact ⟨hm.nodup, hm.life_mem, by rintro _ ⟨⟩ -; simp [ht], by rintro _ ⟨⟩ -; exact ht⟩
  | relock o q ho hp hrel =>
    have ht := hm.taken_nil o ho (by simp [hp])
    simp only [State.marked, accepting_of_owner ho, hp, taken_of_owner ho] at hm
    exact ⟨hm.nodup, hm.life_mem, by rintro _ ⟨⟩ -; simp [ht], by rintro _ ⟨⟩ -; exact ht⟩
  | unlock o after ho hp hrel hr =>
    have ht := hm.taken_nil o ho (by simp [hp])
    simp only [State.marked, accepting_of_owner ho, hp, taken_of_owner ho, ht] at hm
    exact ⟨hm.nodup, hm.life_mem, by simp, by simp⟩
  | _ => exact hm

namespace HoldsOk

variable {role : ι → Role ω} {life : ω → Life} {marked marked' : List ω} {t : ι} {x : ω}
  {l : Life} {r : Role ω}

omit [DecidableEq ι] [DecidableEq ω] in
theorem not_holds (h : HoldsOk role life marked) (hx₁ : life x ≠ .cancelling)
    (hx₂ : life x ≠ .cancelled) (t : ι) : (role t).holds ≠ some x := fun ht =>
  (h.life_of t x ht).elim hx₁ hx₂

omit [DecidableEq ι] in
/-- A waiter that no thread cancels changes its life. -/
theorem outside (h : HoldsOk role life marked) (hx : ∀ t, (role t).holds ≠ some x)
    (hl : l ≠ .cancelling) : HoldsOk role (update life x l) marked where
  unique := h.unique
  held y hy := by
    by_cases hyx : y = x
    · subst hyx; exact absurd (by simpa using hy) hl
    · exact h.held y (by rwa [Function.update_of_ne hyx] at hy)
  life_of u y hu := by
    rw [Function.update_of_ne (by rintro rfl; exact hx u hu)]
    exact h.life_of u y hu
  cancelling u y hu := by
    rw [Function.update_of_ne (by rintro rfl; exact hx u (by simp [hu, Role.holds]))]
    exact h.cancelling u y hu
  mem_marked u y hu hne hy := by
    rw [Function.update_of_ne (by rintro rfl; exact hx u hu)] at hy
    exact h.mem_marked u y hu hne hy

omit [DecidableEq ι] [DecidableEq ω] in
theorem congr_marked (h : HoldsOk role life marked) (hm : ∀ y, y ∈ marked' ↔ y ∈ marked) :
    HoldsOk role life marked' where
  unique := h.unique
  held := h.held
  life_of := h.life_of
  cancelling u y hu := by rw [hm]; exact h.cancelling u y hu
  mem_marked u y hu hne hy := by rw [hm]; exact h.mem_marked u y hu hne hy

omit [DecidableEq ω] in
theorem set_role (h : HoldsOk role life marked) (hr : r.holds = (role t).holds)
    (ht : ∀ y, role t ≠ .cancelling y) (hr' : ∀ y, r ≠ .cancelling y) :
    HoldsOk (update role t r) life marked := by
  have holds_eq (u : ι) : (update role t r u).holds = (role u).holds := by
    by_cases hu : u = t
    · subst hu; simp [hr]
    · simp [hu]
  constructor
  · intro u v y hu hv
    exact h.unique u v y (holds_eq u ▸ hu) (holds_eq v ▸ hv)
  · intro y hy
    obtain ⟨u, hu⟩ := h.held y hy
    exact ⟨u, (holds_eq u).trans hu⟩
  · intro u y hu
    exact h.life_of u y (holds_eq u ▸ hu)
  · intro u y hu
    by_cases hut : u = t
    · subst hut; exact absurd (by simpa using hu) (hr' y)
    · exact h.cancelling u y (by simpa [hut] using hu)
  · intro u y hu hne hy
    by_cases hut : u = t
    · subst hut
      exact h.mem_marked u y (holds_eq u ▸ hu) (ht y) hy
    · exact h.mem_marked u y (holds_eq u ▸ hu) (by simpa [hut] using hne) hy

omit [DecidableEq ω] in
theorem set_quiet (h : HoldsOk role life marked) (ht : role t = .quiet)
    (hr : r.holds = none) : HoldsOk (update role t r) life marked :=
  h.set_role (by rw [hr, ht]; rfl) (by simp [ht]) (by rintro y rfl; cases hr)

theorem start_cancel (h : HoldsOk role life marked) (ht : role t = .quiet)
    (hx : life x = .queued) (hm : x ∉ marked) :
    HoldsOk (update role t (.cancelling x)) (update life x .cancelling) marked := by
  have hno := h.not_holds (x := x) (by simp [hx]) (by simp [hx])
  have cases_role (u : ι) (y : ω) (hu : (update role t (.cancelling x) u).holds = some y) :
      u = t ∧ y = x ∨ u ≠ t ∧ y ≠ x ∧ (role u).holds = some y := by
    by_cases hut : u = t
    · subst hut
      exact Or.inl ⟨rfl, by simpa [Role.holds, eq_comm] using hu⟩
    · have hu' : (role u).holds = some y := by simpa [hut] using hu
      exact Or.inr ⟨hut, by rintro rfl; exact hno u hu', hu'⟩
  constructor
  · intro u v y hu hv
    rcases cases_role u y hu with ⟨rfl, rfl⟩ | ⟨-, hy, hu⟩
    · rcases cases_role v y hv with ⟨rfl, -⟩ | ⟨-, hy, -⟩
      · rfl
      · exact absurd rfl hy
    · rcases cases_role v y hv with ⟨-, rfl⟩ | ⟨-, -, hv⟩
      · exact absurd rfl hy
      · exact h.unique u v y hu hv
  · intro y hy
    by_cases hyx : y = x
    · subst hyx; exact ⟨t, by simp [Role.holds]⟩
    · obtain ⟨u, hu⟩ := h.held y (by simpa [hyx] using hy)
      have hut : u ≠ t := by rintro rfl; simp [ht, Role.holds] at hu
      exact ⟨u, by simpa [hut] using hu⟩
  · intro u y hu
    rcases cases_role u y hu with ⟨-, rfl⟩ | ⟨-, hy, hu⟩
    · simp
    · simpa [hy] using h.life_of u y hu
  · intro u y hu
    rcases cases_role u y (by rw [hu]; rfl) with ⟨-, rfl⟩ | ⟨hut, hy, -⟩
    · exact ⟨by simp, hm⟩
    · simpa [hy] using h.cancelling u y (by simpa [hut] using hu)
  · intro u y hu hne hy
    rcases cases_role u y hu with ⟨rfl, rfl⟩ | ⟨hut, hyx, hu⟩
    · simp at hne
    · exact h.mem_marked u y hu (by simpa [hut] using hne) (by simpa [hyx] using hy)

omit [DecidableEq ω] in
theorem push_cancel (h : HoldsOk role life marked) (ht : role t = .cancelling x)
    (hr : r.holds = some x) (hr' : ∀ y, r ≠ .cancelling y) :
    HoldsOk (update role t r) life (x :: marked) := by
  have holds_eq (u : ι) : (update role t r u).holds = (role u).holds := by
    by_cases hu : u = t
    · subst hu; rw [Function.update_self, hr, ht]; rfl
    · simp [hu]
  constructor
  · intro u v y hu hv
    exact h.unique u v y (holds_eq u ▸ hu) (holds_eq v ▸ hv)
  · intro y hy
    obtain ⟨u, hu⟩ := h.held y hy
    exact ⟨u, (holds_eq u).trans hu⟩
  · intro u y hu
    exact h.life_of u y (holds_eq u ▸ hu)
  · intro u y hu
    by_cases hut : u = t
    · subst hut; exact absurd (by simpa using hu) (hr' y)
    · have hu' : role u = .cancelling y := by simpa [hut] using hu
      obtain ⟨hy, hym⟩ := h.cancelling u y hu'
      have hne : y ≠ x := by
        rintro rfl
        exact hut (h.unique u t y (by rw [hu']; rfl) (by rw [ht]; rfl))
      exact ⟨hy, by simp [hne, hym]⟩
  · intro u y hu hne hy
    by_cases hut : u = t
    · subst hut
      simp only [Function.update_self, hr, Option.some.injEq] at hu
      simp [hu]
    · have := h.mem_marked u y (holds_eq u ▸ hu) (by simpa [hut] using hne) hy
      simp [this]

omit [DecidableEq ω] in
/-- A wait ends once the cancellation is accepted. -/
theorem waited (h : HoldsOk role life marked) (ht : role t = .waiting x)
    (hx : life x = .cancelled) : HoldsOk (update role t .quiet) life marked := by
  have holds_of (u : ι) (y : ω) (hu : (update role t .quiet u).holds = some y) :
      u ≠ t ∧ (role u).holds = some y := by
    by_cases hut : u = t
    · subst hut; simp [Role.holds] at hu
    · exact ⟨hut, by simpa [hut] using hu⟩
  constructor
  · intro u v y hu hv
    exact h.unique u v y (holds_of u y hu).2 (holds_of v y hv).2
  · intro y hy
    obtain ⟨u, hu⟩ := h.held y hy
    have hut : u ≠ t := by
      rintro rfl
      simp only [ht, Role.holds, Option.some.injEq] at hu
      simp [← hu, hx] at hy
    exact ⟨u, by simpa [hut] using hu⟩
  · intro u y hu
    exact h.life_of u y (holds_of u y hu).2
  · intro u y hu
    obtain ⟨hut, -⟩ := holds_of u y (by rw [hu]; rfl)
    exact h.cancelling u y (by simpa [hut] using hu)
  · intro u y hu hne hy
    obtain ⟨hut, hu⟩ := holds_of u y hu
    exact h.mem_marked u y hu (by simpa [hut] using hne) hy

omit [DecidableEq ι] in
theorem accept (h : HoldsOk role life marked) (hm : x ∈ marked)
    (hm' : ∀ y, y ∈ marked' ↔ y ∈ marked ∧ y ≠ x) :
    HoldsOk role (update life x .cancelled) marked' where
  unique := h.unique
  held y hy := by
    by_cases hyx : y = x
    · subst hyx; simp at hy
    · exact h.held y (by simpa [hyx] using hy)
  life_of u y hu := by
    by_cases hyx : y = x
    · subst hyx; simp
    · simpa [hyx] using h.life_of u y hu
  cancelling u y hu := by
    obtain ⟨hy, hym⟩ := h.cancelling u y hu
    have hyx : y ≠ x := by rintro rfl; exact hym hm
    exact ⟨by simpa [hyx] using hy, fun hy' => hym ((hm' y).mp hy').1⟩
  mem_marked u y hu hne hy := by
    by_cases hyx : y = x
    · subst hyx; simp at hy
    · exact (hm' y).mpr ⟨h.mem_marked u y hu hne (by simpa [hyx] using hy), hyx⟩

end HoldsOk

omit [DecidableEq ω] in
theorem Role.after_ne_cancelling (k : Option ω) (y : ω) : Role.after k ≠ .cancelling y := by
  cases k <;> simp [Role.after]

theorem Inv.holds_step (h : Step cap a b) (hi : Inv a) : HoldsOk b.role b.life b.marked := by
  have hh := hi.holds
  cases h with
  | create x n hx => exact hh.outside (hh.not_holds (by simp [hx]) (by simp [hx])) (by simp)
  | free x hx hr => exact hh.outside hr (by simp)
  | retire x hx => exact hh.outside (hh.not_holds (by simp [hx]) (by simp [hx])) (by simp)
  | fastPoll x m hacq hx hn =>
    exact hh.outside (hh.not_holds (by simp [hx]) (by simp [hx])) (by simp)
  | enter t x n pushed hr hx hacq =>
    exact (hh.outside (hh.not_holds (by simp [hx]) (by simp [hx])) (by simp)).set_quiet hr rfl
  | release t n hr => exact hh.set_quiet hr rfl
  | poison t n hr hn => exact hh.set_quiet hr rfl
  | dropGuard t n hr hn => exact hh.set_quiet hr rfl
  | claim x p hx => exact hh.outside (hh.not_holds (by simp [hx]) (by simp [hx])) (by simp)
  | giveBack t x hr hx =>
    exact (hh.outside (hh.not_holds (by simp [hx]) (by simp [hx])) (by simp)).set_quiet hr rfl
  | startCancel t x hr hx =>
    exact hh.start_cancel hr hx fun hm => by simp [hi.marked.life_mem x hm] at hx
  | pushCancel t x hr => exact hh.push_cancel hr rfl (by simp)
  | waited t x hr hx => exact hh.waited hr hx
  | lock t p q after hr hrel =>
    have ho : a.owner = none := hi.lock.owner_none.mpr ⟨q, hrel⟩
    refine
      (hh.set_role (r := .owning after) (by rw [hr]; rfl) (by simp [hr]) (by simp)).congr_marked
      fun y => ?_
    simp [State.marked, State.accepting, State.taken, ho, Phase.accepting]
  | deferLocked t p after hr hrel =>
    exact hh.set_role (by rw [hr, Role.holds_after]; rfl) (by simp [hr])
      (Role.after_ne_cancelling _)
  | deferDirty t p q after hr hrel =>
    exact hh.set_role (by rw [hr, Role.holds_after]; rfl) (by simp [hr])
      (Role.after_ne_cancelling _)
  | swap o ho hp =>
    refine hh.congr_marked fun y => ?_
    simp [State.marked, State.accepting, State.taken, ho, hp, Phase.accepting,
      hi.marked.taken_nil o ho (by simp [hp])]
  | flipAvailable o ho hp hacq hl =>
    refine hh.congr_marked fun y => ?_
    simp [State.marked, State.accepting, State.taken, ho, hp, Phase.accepting]
  | flipAdd o q ho hp hacq =>
    refine hh.congr_marked fun y => ?_
    simp [State.marked, State.accepting, State.taken, ho, hp, Phase.accepting]
  | flipTake o pushed ho hp hacq hpush =>
    refine hh.congr_marked fun y => ?_
    simp [State.marked, State.accepting, State.taken, ho, hp, Phase.accepting]
  | flipSkip o ho hp hacq hl =>
    refine hh.congr_marked fun y => ?_
    simp [State.marked, State.accepting, State.taken, ho, hp, Phase.accepting]
  | unlink o x taken ho hp ht =>
    refine hh.congr_marked fun y => ?_
    simp [State.marked, State.accepting, State.taken, ho, hp, Phase.accepting, ht]
  | accept o x ho hp =>
    have hnd := hi.marked.nodup
    simp only [State.marked, accepting_of_owner ho, hp, Phase.accepting, taken_of_owner ho] at hnd
    refine hh.accept (x := x) ?_ fun y => ?_
    · simp [State.marked, accepting_of_owner ho, hp, Phase.accepting]
    · simp only [State.marked, State.accepting, State.taken, ho, hp, Phase.accepting]
      grind
  | cancelled o ho hp ht =>
    refine hh.congr_marked fun y => ?_
    simp [State.marked, State.accepting, State.taken, ho, hp, Phase.accepting]
  | grant o x linked n ho hp hl hx hr hn =>
    refine (hh.outside (x := x) (hh.not_holds (by simp [hx]) (by simp [hx]))
      (by simp)).congr_marked fun y => ?_
    simp [State.marked, State.accepting, State.taken, ho, hp, Phase.accepting]
  | fail o x linked ho hp hl hx hr =>
    exact hh.outside (hh.not_holds (by simp [hx]) (by simp [hx])) (by simp)
  | stop o ho hp hb =>
    refine hh.congr_marked fun y => ?_
    simp [State.marked, State.accepting, State.taken, ho, hp, Phase.accepting]
  | relock o q ho hp hrel =>
    refine hh.congr_marked fun y => ?_
    simp [State.marked, State.accepting, State.taken, ho, hp, Phase.accepting]
  | unlock o after ho hp hrel hr =>
    refine (hh.set_role (t := o.thread) (r := .after after)
      (by rw [hr, Role.holds_after]; rfl)
      (by simp [hr]) (Role.after_ne_cancelling _)).congr_marked fun y => ?_
    simp [State.marked, State.accepting, State.taken, ho, hp, Phase.accepting,
      hi.marked.taken_nil o ho (by simp [hp])]
  | _ => exact hh

namespace DutyOk

variable {pushed pushed' cstack : List ω} {rel : Rel} {owner : Option (Owner ι ω)}
  {role : ι → Role ω} {t : ι} {r : Role ω} {o o' : Owner ι ω}

omit [DecidableEq ω] in
/-- A thread takes a role that is not a wait, leaving one that is not a release. -/
theorem set_role (h : DutyOk pushed cstack rel owner role) (ht : ∀ p k, role t ≠ .releasing p k)
    (hr : ∀ x, r ≠ .waiting x) (hr' : ∀ k, r ≠ .owning k) :
    DutyOk pushed cstack rel owner (update role t r) where
  pushed hne := by
    rcases h.pushed hne with ⟨u, p, k, hu⟩ | h
    · have hut : u ≠ t := by rintro rfl; exact ht p k hu
      exact Or.inl ⟨u, p, k, by simpa [hut] using hu⟩
    · exact Or.inr h
  cstack u x hu hx := by
    by_cases hut : u = t
    · subst hut
      simp only [Function.update_self] at hu
      exact (hu.elim (hr x) (hr' _)).elim
    · exact h.cstack u x (by simpa [hut] using hu) hx

omit [DecidableEq ι] [DecidableEq ω] in
theorem set_owner (h : DutyOk pushed cstack rel owner role) (o' : Owner ι ω)
    (ho : owner = some o) (hp : o.phase ≠ .swap) (hf : o.phase.Flipped ∨ pushed = []) :
    DutyOk pushed cstack rel (some o') role where
  pushed hne := by
    rcases h.pushed hne with h | ⟨o₁, ho₁, hf₁⟩ | h
    · exact Or.inl h
    · obtain rfl : o₁ = o := Option.some.inj (ho₁.symm.trans ho)
      rcases hf with hf | hf
      · exact absurd hf hf₁
      · exact absurd hf hne
    · exact Or.inr (Or.inr h)
  cstack u x hu hx := by
    rcases h.cstack u x hu hx with ⟨o₁, ho₁, hp₁⟩ | h
    · obtain rfl : o₁ = o := Option.some.inj (ho₁.symm.trans ho)
      exact absurd hp₁ hp
    · exact Or.inr h

omit [DecidableEq ι] [DecidableEq ω] in
theorem of_dirty {p : Tally} : DutyOk pushed cstack (.lockedDirty p) owner role :=
  ⟨fun _ => Or.inr (Or.inr ⟨p, rfl⟩), fun _ _ _ _ => Or.inr ⟨p, rfl⟩⟩

omit [DecidableEq ι] [DecidableEq ω] in
theorem of_swap (ho : owner = some o) (hp : o.phase = .swap) :
    DutyOk pushed cstack rel owner role :=
  ⟨fun _ => Or.inr (Or.inl ⟨o, ho, by simp [hp, Phase.Flipped]⟩),
    fun _ _ _ _ => Or.inl ⟨o, ho, hp⟩⟩

end DutyOk

theorem Inv.duty_step (h : Step cap a b) (hi : Inv a) :
    DutyOk b.pushed b.cstack b.rel b.owner b.role := by
  have hd := hi.duty
  cases h with
  | fast n m hacq hn => exact ⟨fun h => absurd rfl h, hd.cstack⟩
  | fastPoll x m hacq hx hn => exact ⟨fun h => absurd rfl h, hd.cstack⟩
  | enter t x n pushed hr hx hacq =>
    have := hd.set_role (t := t) (r := .releasing (some n) none) (by simp [hr]) (by simp) (by simp)
    exact ⟨fun _ => Or.inl ⟨t, some n, none, by simp⟩, this.cstack⟩
  | release t n hr => exact hd.set_role (by simp [hr]) (by simp) (by simp)
  | poison t n hr hn => exact hd.set_role (by simp [hr]) (by simp) (by simp)
  | dropGuard t n hr hn => exact hd.set_role (by simp [hr]) (by simp) (by simp)
  | giveBack t x hr hx => exact hd.set_role (by simp [hr]) (by simp) (by simp)
  | startCancel t x hr hx => exact hd.set_role (by simp [hr]) (by simp) (by simp)
  | pushCancel t x hr =>
    have := hd.set_role (t := t) (r := .releasing (some 0) (some x)) (by simp [hr]) (by simp)
      (by simp)
    refine ⟨this.pushed, fun u y hu hy => ?_⟩
    rcases List.mem_cons.mp hy with rfl | hy
    · have hut : u ≠ t := by rintro rfl; simp at hu
      have hu' : (a.role u).holds = some y := by
        simp only [Function.update_of_ne hut] at hu
        rcases hu with hu | hu <;> rw [hu] <;> rfl
      exact absurd (hi.holds.unique u t y hu' (by rw [hr]; rfl)) hut
    · exact this.cstack u y hu hy
  | waited t x hr hx => exact hd.set_role (by simp [hr]) (by simp) (by simp)
  | lock t p q after hr hrel => exact .of_swap rfl rfl
  | deferLocked t p after hr hrel => exact .of_dirty
  | deferDirty t p q after hr hrel => exact .of_dirty
  | swap o ho hp =>
    exact ⟨fun _ => Or.inr (Or.inl ⟨_, rfl, by simp [Phase.Flipped]⟩), by simp⟩
  | flipAvailable o ho hp hacq hl =>
    have := hd.set_owner { o with phase := .cancel, releasable := some 0 } ho (by simp [hp])
      (Or.inr (by simp [State.pushed, hacq]))
    exact ⟨fun h => absurd rfl h, this.cstack⟩
  | flipAdd o q ho hp hacq =>
    have := hd.set_owner { o with phase := .cancel, releasable := some 0 } ho (by simp [hp])
      (Or.inr (by simp [State.pushed, hacq]))
    exact ⟨fun h => absurd rfl h, this.cstack⟩
  | flipTake o pushed ho hp hacq hpush =>
    refine ⟨fun h => absurd rfl h, fun u y hu hy => ?_⟩
    rcases hd.cstack u y hu hy with ⟨o₁, ho₁, hp₁⟩ | h
    · obtain rfl : o₁ = o := Option.some.inj (ho₁.symm.trans ho)
      simp [hp] at hp₁
    · exact Or.inr h
  | flipSkip o ho hp hacq hl =>
    exact hd.set_owner _ ho (by simp [hp]) (Or.inr (by simp [State.pushed, hacq]))
  | unlink o x taken ho hp ht =>
    exact hd.set_owner _ ho (by simp [hp]) (Or.inl (by simp [hp, Phase.Flipped]))
  | accept o x ho hp =>
    exact hd.set_owner _ ho (by simp [hp]) (Or.inl (by simp [hp, Phase.Flipped]))
  | cancelled o ho hp ht =>
    exact hd.set_owner _ ho (by simp [hp]) (Or.inl (by simp [hp, Phase.Flipped]))
  | grant o x linked n ho hp hl hx hr hn =>
    exact hd.set_owner _ ho (by simp [hp]) (Or.inl (by simp [hp, Phase.Flipped]))
  | stop o ho hp hb => exact hd.set_owner _ ho (by simp [hp]) (Or.inl (by simp [hp, Phase.Flipped]))
  | relock o q ho hp hrel => exact .of_swap rfl rfl
  | unlock o after ho hp hrel hr =>
    have hclean : ¬ ∃ p, a.rel = .lockedDirty p := by simp [hrel]
    refine ⟨fun hne => ?_, fun u y hu hy => ?_⟩
    · rcases hd.pushed hne with ⟨u, p, k, hu⟩ | ⟨o₁, ho₁, hf₁⟩ | h
      · have hut : u ≠ o.thread := by rintro rfl; simp [hr] at hu
        exact Or.inl ⟨u, p, k, by simpa [hut] using hu⟩
      · obtain rfl : o₁ = o := Option.some.inj (ho₁.symm.trans ho)
        simp [hp, Phase.Flipped] at hf₁
      · exact absurd h hclean
    · have hu' : a.role u = .waiting y ∨ a.role u = .owning (some y) := by
        by_cases hut : u = o.thread
        · subst hut
          rw [hr]
          cases after with
          | none => simp [Role.after] at hu
          | some z => simpa [Role.after] using hu
        · simpa [hut] using hu
      rcases hd.cstack u y hu' hy with ⟨o₁, ho₁, hp₁⟩ | h
      · obtain rfl : o₁ = o := Option.some.inj (ho₁.symm.trans ho)
        simp [hp] at hp₁
      · exact absurd h hclean
  | _ => exact hd

omit [DecidableEq ι] [DecidableEq ω] in
/-- Other threads cannot unblock the front of the queue. -/
theorem State.Blocked.frame {r : Tally} (h : a.Blocked r) (hl : b.linked = a.linked)
    (hlife : ∀ x ∈ a.linked, a.life x = .cancelling → b.life x = .cancelling)
    (ham : ∀ x ∈ a.linked, b.amount x = a.amount x) : b.Blocked r := by
  unfold State.Blocked at h ⊢
  rw [hl]
  cases hll : a.linked with
  | nil => trivial
  | cons x l =>
    rw [hll] at h
    refine Or.imp (hlife x (by simp [hll])) ?_ h
    rw [ham x (by simp [hll])]
    exact id

omit [DecidableEq ι] [DecidableEq ω] in
theorem BlockedOk.frame (h : BlockedOk a) (ho : b.owner = a.owner) (hrel : b.rel = a.rel)
    (hl : b.linked = a.linked)
    (hlife : ∀ x ∈ a.linked, a.life x = .cancelling → b.life x = .cancelling)
    (ham : ∀ x ∈ a.linked, b.amount x = a.amount x) : BlockedOk b where
  unlock o ho' hp := (h.unlock o (ho ▸ ho') hp).frame hl hlife ham
  unlocked r hr := (h.unlocked r (hrel ▸ hr)).frame hl hlife ham

omit [DecidableEq ι] [DecidableEq ω] in
/-- While the owner works no promise is due. -/
theorem BlockedOk.working {o : Owner ι ω} (ho : b.owner = some o) (hp : o.phase ≠ .unlock)
    (hrel : ∀ r, b.rel ≠ .unlocked r) : BlockedOk b where
  unlock o' ho' hp' := by
    obtain rfl : o' = o := Option.some.inj (ho'.symm.trans ho)
    exact absurd hp' hp
  unlocked r hr := absurd hr (hrel r)

omit [DecidableEq ι] [DecidableEq ω] in
theorem Inv.linked_queue (hi : Inv a) {x : ω} (hx : x ∈ a.linked) :
    a.life x = .queued ∨ a.life x = .cancelling :=
  hi.queue.life_mem x (by simp [State.queue, hx])

omit [DecidableEq ι] [DecidableEq ω] in
theorem Inv.rel_of_owner (hi : Inv a) {o : Owner ι ω} (ho : a.owner = some o) (r : Tally) :
    a.rel ≠ .unlocked r := fun hr => by
  simp [hi.lock.owner_none.mpr ⟨r, hr⟩] at ho

theorem Inv.blocked_step (h : Step cap a b) (hi : Inv a) : BlockedOk b := by
  have hb := hi.blocked
  have other {x : ω} {l : Life} (hx : a.life x ≠ .cancelling) (y : ω) (_ : y ∈ a.linked)
      (hy : a.life y = .cancelling) : update a.life x l y = .cancelling :=
    life_update_of_eq hx hy
  cases h with
  | create x n hx =>
    refine hb.frame rfl rfl rfl (other (by simp [hx])) fun y hy => ?_
    exact Function.update_of_ne (by rintro rfl; simpa [hx] using hi.linked_queue hy) _ _
  | free x hx hr =>
    exact hb.frame rfl rfl rfl (other (by rintro h; simp [h] at hx)) fun _ _ => rfl
  | retire x hx => exact hb.frame rfl rfl rfl (other (by simp [hx])) fun _ _ => rfl
  | fastPoll x m hacq hx hn => exact hb.frame rfl rfl rfl (other (by simp [hx])) fun _ _ => rfl
  | enter t x n pushed hr hx hacq =>
    exact hb.frame rfl rfl rfl (other (by simp [hx])) fun _ _ => rfl
  | claim x p hx => exact hb.frame rfl rfl rfl (other (by simp [hx])) fun _ _ => rfl
  | giveBack t x hr hx => exact hb.frame rfl rfl rfl (other (by simp [hx])) fun _ _ => rfl
  | startCancel t x hr hx => exact hb.frame rfl rfl rfl (other (by simp [hx])) fun _ _ => rfl
  | lock t p q after hr hrel => exact .working rfl (by simp) (by simp)
  | deferLocked t p after hr hrel =>
    exact ⟨fun o ho hp => (hb.unlock o ho hp).frame rfl (fun _ _ h => h) fun _ _ => rfl, by simp⟩
  | deferDirty t p q after hr hrel =>
    exact ⟨fun o ho hp => (hb.unlock o ho hp).frame rfl (fun _ _ h => h) fun _ _ => rfl, by simp⟩
  | swap o ho hp => exact .working rfl (by simp) (hi.rel_of_owner ho)
  | flipAvailable o ho hp hacq hl => exact .working rfl (by simp) (hi.rel_of_owner ho)
  | flipAdd o q ho hp hacq => exact .working rfl (by simp) (hi.rel_of_owner ho)
  | flipTake o pushed ho hp hacq hpush => exact .working rfl (by simp) (hi.rel_of_owner ho)
  | flipSkip o ho hp hacq hl => exact .working rfl (by simp) (hi.rel_of_owner ho)
  | unlink o x taken ho hp ht => exact .working rfl (by simp) (hi.rel_of_owner ho)
  | accept o x ho hp => exact .working rfl (by simp) (hi.rel_of_owner ho)
  | cancelled o ho hp ht => exact .working rfl (by simp) (hi.rel_of_owner ho)
  | grant o x linked n ho hp hl hx hr hn =>
    exact .working rfl (by simp [hp]) (hi.rel_of_owner ho)
  | fail o x linked ho hp hl hx hr => exact .working ho (by simp [hp]) (hi.rel_of_owner ho)
  | stop o ho hp hbl =>
    refine ⟨?_, fun r hr => absurd hr (hi.rel_of_owner ho r)⟩
    rintro _ ⟨⟩ -
    exact hbl
  | relock o q ho hp hrel => exact .working rfl (by simp) (by simp)
  | unlock o after ho hp hrel hr =>
    refine ⟨by simp, ?_⟩
    rintro _ ⟨⟩
    exact hb.unlock o ho hp
  | _ => exact hb.frame rfl rfl rfl (fun _ _ h => h) fun _ _ => rfl

theorem Inv.step (h : Step cap a b) (hi : Inv a) : Inv b where
  queue := hi.queue_step h
  live := hi.live_step h
  lock := hi.lock_step h
  available := hi.available_step h
  marked := hi.marked_step h
  holds := hi.holds_step h
  duty := hi.duty_step h
  blocked := hi.blocked_step h

end WeightedSemaphore.Protocol
