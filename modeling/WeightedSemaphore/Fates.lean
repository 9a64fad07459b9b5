import WeightedSemaphore.Quiescence

/-!
# What becomes of a waiter

The events about one waiter. It is installed at most once, and then either finished, or cancelled:
its cancellation begins, it is unlinked, and the cancellation is accepted. Nothing happens twice,
and nothing happens to a waiter that has come to its end.
-/

namespace WeightedSemaphore

open Function (update update_self update_of_ne)
open Protocol (Inv HistOk)

def History.tale (h : History) (u : ℕ) : List Event := h.filter fun e => e.uid = some u

namespace History

variable {h : History} {e : Event} {u : ℕ}

theorem tale_cons_self (he : e.uid = some u) : tale (e :: h) u = e :: tale h u :=
  List.filter_cons_of_pos (by simpa using he)

theorem tale_cons_of_ne (he : e.uid ≠ some u) : tale (e :: h) u = tale h u :=
  List.filter_cons_of_neg (by simpa using he)

def Ended (u : ℕ) (l : List Event) : Prop :=
  l = [] ∨ (∃ p, l = [.finished u p, .installed u]) ∨
    l = [.cancelled u, .unlinked u, .cancelling u, .installed u]

/-- What can have happened to a waiter so far. -/
def Fate (u : ℕ) (l : List Event) : Prop :=
  (∃ p, l <:+ [.finished u p, .installed u]) ∨
    l <:+ [.cancelled u, .unlinked u, .cancelling u, .installed u]

theorem Ended.fate {l : List Event} (hl : Ended u l) : Fate u l := by
  rcases hl with rfl | ⟨p, rfl⟩ | rfl
  · exact Or.inr (List.nil_suffix ..)
  · exact Or.inl ⟨p, List.suffix_refl _⟩
  · exact Or.inr (List.suffix_refl _)

end History

namespace Protocol

variable {ι ω : Type} {a b : State ι ω} {e : Event} {x : ω} {l : Life}

/-- What has happened to a waiter `u`, by its life. Of a cancelling one, the queue tells more. -/
def Life.Tells (u : ℕ) : Life → List Event → Prop
  | absent, _ => True
  | entering, h => h = []
  | queued, h => h = [.installed u]
  | cancelling, _ => True
  | cancelled, h => h = [.cancelled u, .unlinked u, .cancelling u, .installed u]
  | finished p, h => h = [.finished u p, .installed u]
  | done, h => h = [] ∨ ∃ p, h = [.finished u p, .installed u]

structure Tales (a : State ι ω) : Prop where
  told : ∀ x, (a.life x).Tells (a.uid x) (a.hist.tale (a.uid x))
  cancelling : ∀ x ∈ a.queue, a.life x = .cancelling →
    a.hist.tale (a.uid x) = [.cancelling (a.uid x), .installed (a.uid x)]
  accepting : ∀ x ∈ a.accepting,
    a.hist.tale (a.uid x) = [.unlinked (a.uid x), .cancelling (a.uid x), .installed (a.uid x)]
  ended : ∀ u, (∀ x, a.life x ≠ .absent → a.uid x ≠ u) → History.Ended u (a.hist.tale u)

theorem Tales.init (cap initial : ℕ) : Tales (State.init cap initial : State ι ω) where
  told x := trivial
  cancelling x hx := by simp [State.init, State.queue, State.pushed] at hx
  accepting x hx := by simp [State.init, State.accepting] at hx
  ended u _ := Or.inl rfl

theorem Life.Tells.ended {u : ℕ} {h : List Event} (ht : l.Tells u h)
    (hl : l = .entering ∨ l = .done ∨ l = .cancelled ∨ l = .finished true) :
    History.Ended u h := by
  rcases hl with rfl | rfl | rfl | rfl
  · exact Or.inl ht
  · exact ht.imp id Or.inl
  · exact Or.inr (Or.inr ht)
  · exact Or.inr (Or.inl ⟨true, ht⟩)

namespace Tales

theorem frame (h : Tales a) (htale : ∀ u, b.hist.tale u = a.hist.tale u) (huid : b.uid = a.uid)
    (habsent : ∀ x, a.life x ≠ .absent → b.life x ≠ .absent)
    (htold : ∀ x u h, (a.life x).Tells u h → (b.life x).Tells u h)
    (hcan : ∀ x ∈ b.queue, b.life x = .cancelling → x ∈ a.queue ∧ a.life x = .cancelling)
    (hacc : ∀ x ∈ b.accepting, x ∈ a.accepting) : Tales b where
  told x := by
    rw [htale, huid]
    exact htold x _ _ (h.told x)
  cancelling x hx hl := by
    obtain ⟨hx, hl⟩ := hcan x hx hl
    rw [htale, huid]
    exact h.cancelling x hx hl
  accepting x hx := by
    rw [htale, huid]
    exact h.accepting x (hacc x hx)
  ended u hu := by
    rw [htale]
    exact h.ended u fun x hx => huid ▸ hu x (habsent x hx)

/-- Nothing happens to a waiter, and the lives stay as they are. -/
theorem same (h : Tales a) (htale : ∀ u, b.hist.tale u = a.hist.tale u) (huid : b.uid = a.uid)
    (hlife : b.life = a.life) (hq : b.queue = a.queue)
    (hacc : ∀ x ∈ b.accepting, x ∈ a.accepting) : Tales b :=
  h.frame htale huid (fun _ hx => hlife ▸ hx) (fun _ _ _ hx => hlife ▸ hx)
    (fun _ hx hl => ⟨hq ▸ hx, hlife ▸ hl⟩) hacc

variable [DecidableEq ω]

/-- A waiter outside of the queue goes on to a life that tells as much. -/
theorem set_life (h : Tales a) (htale : ∀ u, b.hist.tale u = a.hist.tale u) (huid : b.uid = a.uid)
    (hlife : b.life = update a.life x l) (hl : l ≠ .absent) (hl' : l ≠ .cancelling)
    (htold : ∀ u h, (a.life x).Tells u h → l.Tells u h) (hq : b.queue = a.queue)
    (hacc : ∀ x ∈ b.accepting, x ∈ a.accepting) : Tales b := by
  refine h.frame htale huid (fun y hy => ?_) (fun y u h hy => ?_) (fun y hy hc => ?_) hacc
  all_goals rw [hlife] at *
  all_goals by_cases hyx : y = x
  · rw [hyx, update_self]
    exact hl
  · rw [update_of_ne hyx]
    exact hy
  · subst hyx
    rw [update_self]
    exact htold u h hy
  · rw [update_of_ne hyx]
    exact hy
  · subst hyx
    exact absurd (by simpa using hc) hl'
  · rw [update_of_ne hyx] at hc
    exact ⟨hq ▸ hy, hc⟩

theorem log (h : Tales a) (hi : Inv a) (hh : HistOk a) (hx : a.life x ≠ .absent)
    (he : e.uid = some (a.uid x)) (hhist : b.hist = e :: a.hist) (huid : b.uid = a.uid)
    (hlife : b.life = update a.life x l)
    (hl : l ≠ .absent) (htold : l.Tells (a.uid x) (e :: a.hist.tale (a.uid x)))
    (hcan : ∀ y ∈ b.queue, y ≠ x → a.life y = .cancelling → y ∈ a.queue)
    (hcan' : x ∈ b.queue → l = .cancelling →
      e :: a.hist.tale (a.uid x) = [.cancelling (a.uid x), .installed (a.uid x)])
    (hacc : ∀ y ∈ b.accepting, y ≠ x → y ∈ a.accepting)
    (hacc' : x ∈ b.accepting → e :: a.hist.tale (a.uid x) =
      [.unlinked (a.uid x), .cancelling (a.uid x), .installed (a.uid x)]) : Tales b := by
  have hself : b.hist.tale (a.uid x) = e :: a.hist.tale (a.uid x) := by
    rw [hhist, History.tale_cons_self he]
  have hother {u : ℕ} (hu : u ≠ a.uid x) : b.hist.tale u = a.hist.tale u := by
    rw [hhist, History.tale_cons_of_ne (by rw [he]; simpa using hu.symm)]
  have hne {y : ω} (hyx : y ≠ x) (hy : a.life y ≠ .absent) : a.uid y ≠ a.uid x := fun heq =>
    hyx (hh.uid_inj y x hy hx heq)
  constructor
  case told =>
    intro y
    rw [huid, hlife]
    by_cases hyx : y = x
    · subst hyx
      rw [update_self, hself]
      exact htold
    · rw [update_of_ne hyx]
      by_cases hy : a.life y = .absent
      · rw [hy]
        trivial
      · rw [hother (hne hyx hy)]
        exact h.told y
  case cancelling =>
    intro y hy hc
    rw [hlife] at hc
    rw [huid]
    by_cases hyx : y = x
    · subst hyx
      rw [update_self] at hc
      rw [hself]
      exact hcan' hy hc
    · rw [update_of_ne hyx] at hc
      rw [hother (hne hyx (by simp [hc]))]
      exact h.cancelling y (hcan y hy hyx hc) hc
  case accepting =>
    intro y hy
    rw [huid]
    by_cases hyx : y = x
    · subst hyx
      rw [hself]
      exact hacc' hy
    · have hy' := hacc y hy hyx
      rw [hother (hne hyx (by simp [hi.accepting_life hy']))]
      exact h.accepting y hy'
  case ended =>
    intro u hu
    have hux : u ≠ a.uid x := fun heq =>
      hu x (by rw [hlife, update_self]; exact hl) (by rw [huid, heq])
    rw [hother hux]
    refine h.ended u fun y hy => ?_
    rw [← huid]
    refine hu y ?_
    rw [hlife]
    by_cases hyx : y = x
    · rw [hyx, update_self]
      exact hl
    · rw [update_of_ne hyx]
      exact hy

theorem create (h : Tales a) (hh : HistOk a) (hx : a.life x = .absent)
    (hq : ∀ y ∈ a.queue, a.life y ≠ .absent) (hacc : ∀ y ∈ a.accepting, a.life y ≠ .absent)
    (hhist : b.hist = a.hist) (huid : b.uid = update a.uid x a.nextUid)
    (hlife : b.life = update a.life x .entering) (hqueue : b.queue = a.queue)
    (haccepting : b.accepting = a.accepting) : Tales b := by
  have hne {y : ω} (hy : a.life y ≠ .absent) : y ≠ x := fun hyx => hy (hyx ▸ hx)
  constructor
  case told =>
    intro y
    rw [hhist, huid, hlife]
    by_cases hyx : y = x
    · subst hyx
      rw [update_self, update_self]
      refine List.filter_eq_nil_iff.mpr fun e he heq => ?_
      exact absurd (hh.known e he a.nextUid (by simpa using heq)) (Nat.lt_irrefl _)
    · rw [update_of_ne hyx, update_of_ne hyx]
      exact h.told y
  case cancelling =>
    intro y hy hc
    rw [hqueue] at hy
    have hyx := hne (hq y hy)
    rw [hlife, update_of_ne hyx] at hc
    rw [hhist, huid, update_of_ne hyx]
    exact h.cancelling y hy hc
  case accepting =>
    intro y hy
    rw [haccepting] at hy
    rw [hhist, huid, update_of_ne (hne (hacc y hy))]
    exact h.accepting y hy
  case ended =>
    intro u hu
    rw [hhist]
    refine h.ended u fun y hy => ?_
    have hyx := hne hy
    have huy := hu y (by rw [hlife, update_of_ne hyx]; exact hy)
    rwa [huid, update_of_ne hyx] at huy

/-- A waiter that has come to its end is freed. -/
theorem free (h : Tales a)
    (hx : a.life x = .entering ∨ a.life x = .done ∨ a.life x = .cancelled ∨
      a.life x = .finished true)
    (hhist : b.hist = a.hist) (huid : b.uid = a.uid) (hlife : b.life = update a.life x .absent)
    (hqueue : b.queue = a.queue) (haccepting : b.accepting = a.accepting) : Tales b := by
  constructor
  case told =>
    intro y
    rw [hhist, huid, hlife]
    by_cases hyx : y = x
    · rw [hyx, update_self]
      trivial
    · rw [update_of_ne hyx]
      exact h.told y
  case cancelling =>
    intro y hy hc
    have hyx : y ≠ x := by
      rintro rfl
      simp [hlife] at hc
    rw [hlife, update_of_ne hyx] at hc
    rw [hhist, huid]
    exact h.cancelling y (hqueue ▸ hy) hc
  case accepting =>
    intro y hy
    rw [hhist, huid]
    exact h.accepting y (haccepting ▸ hy)
  case ended =>
    intro u hu
    rw [hhist]
    by_cases hux : u = a.uid x
    · rw [hux]
      exact (h.told x).ended hx
    · refine h.ended u fun y hy heq => ?_
      have hyx : y ≠ x := fun hyx => hux (by rw [← heq, hyx])
      exact hu y (by rw [hlife, update_of_ne hyx]; exact hy) (by rw [huid, heq])

variable [DecidableEq ι] {cap : ℕ}

theorem step (h : Tales a) (hi : Inv a) (hh : HistOk a) (hs : Step cap a b) : Tales b := by
  have hother {e : Event} (he : e.uid = none) (u : ℕ) :
      History.tale (e :: a.hist) u = a.hist.tale u := History.tale_cons_of_ne (by simp [he])
  have hacc {c : State ι ω} {o o' : Owner ι ω} (ho : a.owner = some o) (hc : c.owner = some o')
      (hp : o'.phase.accepting = []) (x : ω) (hx : x ∈ c.accepting) : x ∈ a.accepting := by
    rw [accepting_of_owner hc, hp] at hx
    cases hx
  have hpop {x y : ω} {linked : List ω} (hl : a.linked = x :: linked)
      (hy : y ∈ linked ++ a.pushed.reverse) : y ∈ a.queue := by
    rw [State.queue, hl]
    exact List.mem_cons_of_mem x hy
  cases hs with
  | create x n hx =>
    exact h.create hh hx (fun y hy => hi.queue_ne_absent hy)
      (fun y hy => by simp [hi.accepting_life hy]) rfl rfl rfl rfl rfl
  | free x hx hr => exact h.free hx rfl rfl rfl rfl rfl
  | retire x hx =>
    refine h.set_life (fun _ => rfl) rfl rfl (by simp) (by simp) (fun u l hl => ?_) rfl
      fun _ hy => hy
    rw [hx] at hl
    exact Or.inl hl
  | fast n m hacq hn =>
    exact h.same (hother rfl) rfl rfl
      ((queue_of_available rfl).trans (queue_of_available hacq).symm) fun _ hy => hy
  | fastPoll x m hacq hx hn =>
    refine h.set_life (hother rfl) rfl rfl (by simp) (by simp) (fun u l hl => ?_)
      ((queue_of_available rfl).trans (queue_of_available hacq).symm) fun _ hy => hy
    rw [hx] at hl
    exact Or.inl hl
  | enter t x n pushed hr hx hacq =>
    have hpush : a.pushed = pushed := by
      rcases hacq with ⟨h, -, rfl⟩ | ⟨h, -⟩ <;> simp [State.pushed, h]
    have hq : State.queue { a with acq := .queued (x :: pushed) } = a.queue ++ [x] := by
      rw [queue_of_queued rfl, State.queue, hpush, List.reverse_cons, List.append_assoc]
    have hnil : a.hist.tale (a.uid x) = [] := by simpa [hx, Life.Tells] using h.told x
    refine h.log hi hh (x := x) (l := .queued) (by simp [hx]) (e := .installed (a.uid x))
      rfl rfl rfl
      rfl (by simp) (congrArg _ hnil) (fun y hy hyx _ => ?_) (by simp) (fun y hy _ => hy)
      fun hx' => ?_
    · refine (List.mem_append.mp (hq ▸ hy : y ∈ a.queue ++ [x])).resolve_right ?_
      simpa using hyx
    · have := hi.accepting_life hx'
      simp [hx] at this
  | release t n hr => exact h.same (hother rfl) rfl rfl rfl fun _ hy => hy
  | poison t n hr hn => exact h.same (hother rfl) rfl rfl rfl fun _ hy => hy
  | dropGuard t n hr hn => exact h.same (fun _ => rfl) rfl rfl rfl fun _ hy => hy
  | forget n hn => exact h.same (hother rfl) rfl rfl rfl fun _ hy => hy
  | claim x p hx =>
    refine h.set_life (fun _ => rfl) rfl rfl (by simp) (by simp) (fun u l hl => ?_) rfl
      fun _ hy => hy
    rw [hx] at hl
    exact Or.inr ⟨p, hl⟩
  | giveBack t x hr hx =>
    refine h.set_life (fun _ => rfl) rfl rfl (by simp) (by simp) (fun u l hl => ?_) rfl
      fun _ hy => hy
    rw [hx] at hl
    exact Or.inr ⟨false, hl⟩
  | startCancel t x hr hx =>
    have hold : a.hist.tale (a.uid x) = [.installed (a.uid x)] := by
      simpa [hx, Life.Tells] using h.told x
    refine h.log hi hh (x := x) (l := .cancelling) (by simp [hx]) (e := .cancelling (a.uid x)) rfl
      rfl rfl rfl (by simp) trivial (fun y hy _ _ => hy) (fun _ _ => congrArg _ hold)
      (fun y hy _ => hy) fun hx' => ?_
    have := hi.accepting_life hx'
    simp [hx] at this
  | lock t p q after hr hrel =>
    exact h.same (fun _ => rfl) rfl rfl rfl fun x hx => by
      rw [accepting_of_owner rfl] at hx
      cases hx
  | flipAvailable o ho hp hacq hl =>
    refine h.same (fun _ => rfl) rfl rfl ?_ (hacc ho rfl rfl)
    rw [queue_of_available rfl, queue_of_queued hacq]
    simp
  | flipAdd o q ho hp hacq =>
    exact h.same (fun _ => rfl) rfl rfl
      ((queue_of_available rfl).trans (queue_of_available hacq).symm) (hacc ho rfl rfl)
  | flipTake o pushed ho hp hacq hpush =>
    refine h.same (fun _ => rfl) rfl rfl ?_ (hacc ho rfl rfl)
    rw [queue_of_queued rfl, queue_of_queued hacq]
    simp
  | unlink o x taken ho hp ht =>
    have hx : x ∈ a.taken := by simp [taken_of_owner ho, ht]
    have hlife := hi.taken_life hx
    have hmem : x ∈ a.linked :=
      hi.marked.taken_linked o ho (by simp [hp, Phase.Flipped]) x (by simp [ht])
    have hold := h.cancelling x (hi.taken_queue hx) hlife
    have hq : State.queue { a with linked := a.linked.erase x } = a.queue.erase x :=
      (List.erase_append_left _ hmem).symm
    refine h.log hi hh (x := x) (l := a.life x) (by simp [hlife]) (e := .unlinked (a.uid x)) rfl rfl
      rfl (Function.update_eq_self x a.life).symm (by simp [hlife]) (by rw [hlife]; trivial)
      (fun y hy _ _ => List.mem_of_mem_erase (hq ▸ hy : y ∈ a.queue.erase x)) (fun hx' => ?_)
      (fun y hy hyx => ?_) fun _ => congrArg _ hold
    · have hnd := (List.nodup_append.mp hi.queue.nodup).1
      exact absurd (hq ▸ hx' : x ∈ a.queue.erase x) hnd.not_mem_erase
    · rw [accepting_of_owner rfl] at hy
      exact absurd (List.mem_singleton.mp hy) hyx
  | accept o x ho hp =>
    have hx : x ∈ a.accepting := by simp [accepting_of_owner ho, hp, Phase.accepting]
    have hold := h.accepting x hx
    have hnil (y : ω) (hy : y ∈ Phase.accepting (.cancel : Phase ω)) : y ∈ a.accepting := by
      cases hy
    exact h.log hi hh (x := x) (l := .cancelled) (by simp [hi.accepting_life hx])
      (e := .cancelled (a.uid x)) rfl rfl rfl rfl (by simp) (congrArg _ hold)
      (fun y hy _ _ => hy) (by simp) (fun y hy _ => hnil y hy) fun hy => by cases hy
  | grant o x linked n ho hp hl hx hr hn =>
    have hold : a.hist.tale (a.uid x) = [.installed (a.uid x)] := by
      simpa [hx, Life.Tells] using h.told x
    refine h.log hi hh (x := x) (l := .finished false) (by simp [hx])
      (e := .finished (a.uid x) false) rfl rfl rfl rfl (by simp) (congrArg _ hold)
      (fun y hy _ _ => hpop hl hy) (by simp) (fun y hy _ => ?_) fun hy => ?_
    all_goals
      rw [accepting_of_owner rfl, hp] at hy
      cases hy
  | fail o x linked ho hp hl hx hr =>
    have hold : a.hist.tale (a.uid x) = [.installed (a.uid x)] := by
      simpa [hx, Life.Tells] using h.told x
    refine h.log hi hh (x := x) (l := .finished true) (by simp [hx])
      (e := .finished (a.uid x) true) rfl rfl rfl rfl (by simp) (congrArg _ hold)
      (fun y hy _ _ => hpop hl hy) (by simp) (fun y hy _ => hy) fun hy => ?_
    have := hi.accepting_life hy
    simp [hx] at this
  | relock o q ho hp hrel =>
    exact h.same (fun _ => rfl) rfl rfl rfl (hacc ho rfl rfl)
  | unlock o after ho hp hrel hr =>
    exact h.same (fun _ => rfl) rfl rfl rfl fun x hx => by simp [State.accepting] at hx
  | pushCancel t x hr => exact h.same (fun _ => rfl) rfl rfl rfl fun _ hy => hy
  | waited t x hr hx => exact h.same (fun _ => rfl) rfl rfl rfl fun _ hy => hy
  | deferLocked t p after hr hrel =>
    exact h.same (fun _ => rfl) rfl rfl rfl fun _ hy => hy
  | deferDirty t p q after hr hrel =>
    exact h.same (fun _ => rfl) rfl rfl rfl fun _ hy => hy
  | _ o ho =>
    exact h.same (fun _ => rfl) rfl rfl rfl (hacc ho rfl rfl)

end Tales

/-- By the waiter's life, what has happened to it. -/
theorem Tales.fate (h : Tales a) (hi : Inv a) (u : ℕ) :
    History.Ended u (a.hist.tale u) ∨
      (∃ x, a.life x = .queued ∧ a.uid x = u ∧ a.hist.tale u = [.installed u]) ∨
      ∃ x, a.life x = .cancelling ∧
        (a.hist.tale u = [.cancelling u, .installed u] ∨
          a.hist.tale u = [.unlinked u, .cancelling u, .installed u]) := by
  by_cases hu : ∀ x, a.life x ≠ .absent → a.uid x ≠ u
  · exact Or.inl (h.ended u hu)
  push Not at hu
  obtain ⟨x, hx, rfl⟩ := hu
  have htold := h.told x
  cases hl : a.life x with
  | absent => exact absurd hl hx
  | queued =>
    rw [hl] at htold
    exact Or.inr (Or.inl ⟨x, hl, rfl, htold⟩)
  | cancelling =>
    refine Or.inr (Or.inr ⟨x, hl, ?_⟩)
    rcases List.mem_append.mp (hi.queue.cancelling_mem x hl) with hq | hacc
    · exact Or.inl (h.cancelling x hq hl)
    · exact Or.inr (h.accepting x hacc)
  | finished p =>
    rw [hl] at htold
    exact Or.inl (Or.inr (Or.inl ⟨p, htold⟩))
  | _ => exact Or.inl (htold.ended (by simp [hl]))

end Protocol

section

variable [Usize] {ι : Type} [DecidableEq ι] {s : Sys ι} {initial : ℕ}

theorem Reachable.tales (h : Reachable initial s) : ∃ a, Represents s a ∧ Protocol.Tales a :=
  kept_of_run (fun _ _ _ _ hr htales hstep => htales.step hr.inv hr.hist hstep)
    (.init maxAvailable initial) h

/-- In every run, each waiter that was installed is finished once, or else cancelled in three steps,
and nothing else happens to it. At rest, it has come to its end unless it still waits. -/
theorem one_fate (h : Reachable initial s) (u : ℕ) :
    History.Fate u (s.ghost.hist.tale u) ∧
      (s.Quiescent → History.Ended u (s.ghost.hist.tale u) ∨
        s.ghost.hist.tale u = [.installed u] ∧ ∃ x, s.Waits x ∧ s.ghost.uid x = u) := by
  obtain ⟨a, hr, htales⟩ := h.tales
  rw [← hr.sim.view.hist]
  rcases htales.fate hr.inv u with hend | ⟨x, hx, rfl, htale⟩ | ⟨x, hx, htale⟩
  · exact ⟨hend.fate, fun _ => Or.inl hend⟩
  · refine ⟨Or.inr ?_, fun _ => Or.inr ⟨htale, x, ?_, ?_⟩⟩
    · rw [htale]
      exact ⟨[.cancelled _, .unlinked _, .cancelling _], rfl⟩
    · exact (hr.sim.view.waits_iff hr.sim.loc).mpr (Or.inl hx)
    · rw [hr.sim.view.uid]
  · refine ⟨Or.inr ?_, fun hq => ?_⟩
    · rcases htale with htale | htale
      · rw [htale]
        exact ⟨[.cancelled _, .unlinked _], rfl⟩
      · rw [htale]
        exact ⟨[.cancelled _], rfl⟩
    · -- nobody is left who could have begun the cancellation
      obtain ⟨t, ht⟩ := hr.inv.holds.held x hx
      rw [hr.sim.view.role, Frame.role_idle (hq t)] at ht
      cases ht

end

attribute [local instance] usize64

/-- The first waiter is granted its permit, and the second one gives up while it waits. -/
def parted : Sys Bool :=
  Runs.final Sys.next
    ([.acquire (usize64.ptr 0) 1, .call false (.poll (usize64.ptr 0))] ++ Act.steps false 20 ++
      [.acquire (usize64.ptr 1) 2, .call true (.poll (usize64.ptr 1))] ++ Act.steps true 20 ++
      [.call false (.release 2)] ++ Act.steps false 16 ++
      [.call true (.dropFuture (usize64.ptr 1))] ++ Act.steps true 19)
    (Sys.init 0) (by decide +kernel)

theorem one_fate_parted :
    parted.ghost.hist.tale 1 = [.cancelled 1, .unlinked 1, .cancelling 1, .installed 1] ∧
      History.Fate 0 (parted.ghost.hist.tale 0) ∧
      (parted.Quiescent → History.Ended 0 (parted.ghost.hist.tale 0) ∨
        parted.ghost.hist.tale 0 = [.installed 0] ∧
          ∃ x, parted.Waits x ∧ parted.ghost.uid x = 0) :=
  ⟨by decide +kernel, one_fate (s := parted) (Runs.reaches_final _) 0⟩

end WeightedSemaphore
