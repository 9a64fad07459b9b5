import Mathlib.Data.List.Nodup
import Mathlib.Logic.Function.Basic

/-!
# Linked lists in a field-per-array memory

A pointer field is a function from nodes to nodes, and `null` is a distinguished node. `Path` says
that following one field from a pointer visits exactly the nodes of a list and then reaches `null`.
`Seg` is a doubly linked segment between two given neighbours, and `Queue` a whole doubly linked
queue with its two end pointers. The operations are splicing, unlinking and appending. `Walk` is the
loop that turns a stack into a doubly linked segment.
-/

namespace Links

variable {α : Type*} {next prev next' prev' : α → α} {p q x y null : α} {l l₁ l₂ : List α}

def first (l : List α) (q : α) : α :=
  match l with
  | [] => q
  | x :: _ => x

def last (p : α) : List α → α
  | [] => p
  | x :: l => last x l

@[simp] theorem first_nil : first [] q = q := rfl
@[simp] theorem first_cons : first (x :: l) q = x := rfl
@[simp] theorem last_nil : last p [] = p := rfl
@[simp] theorem last_cons : last p (x :: l) = last x l := rfl

theorem first_append : first (l₁ ++ l₂) q = first l₁ (first l₂ q) := by
  cases l₁ <;> rfl

theorem last_append : last p (l₁ ++ l₂) = last (last p l₁) l₂ := by
  induction l₁ generalizing p with
  | nil => rfl
  | cons x l ih => simp [ih]

theorem first_mem_or (l : List α) (q : α) : first l q ∈ l ∨ l = [] ∧ first l q = q := by
  cases l <;> simp

theorem last_mem_or (p : α) (l : List α) : last p l ∈ l ∨ l = [] ∧ last p l = p := by
  induction l generalizing p with
  | nil => simp
  | cons x l ih =>
    left
    rcases ih x with h | ⟨rfl, h⟩
    · exact List.mem_cons_of_mem _ h
    · simp

theorem first_eq_null_iff (hl : ∀ x ∈ l, x ≠ null) : first l null = null ↔ l = [] := by
  cases l with
  | nil => simp
  | cons x l => simpa using hl x (by simp)

theorem last_eq_null_iff (hl : ∀ x ∈ l, x ≠ null) : last null l = null ↔ l = [] := by
  rcases last_mem_or null l with h | ⟨rfl, -⟩
  · have hne : l ≠ [] := List.ne_nil_of_mem h
    simp [hne, hl _ h]
  · simp

/-- Following `f` from `p` visits the nodes of `l` and ends in `null`. -/
def Path (null : α) (f : α → α) : α → List α → Prop
  | p, [] => p = null
  | p, x :: l => p = x ∧ x ≠ null ∧ Path null f (f x) l

theorem Path.congr {f g : α → α} (h : Path null f p l) (hfg : ∀ x ∈ l, g x = f x) :
    Path null g p l := by
  induction l generalizing p with
  | nil => exact h
  | cons x l ih =>
    obtain ⟨hp, hx, hl⟩ := h
    refine ⟨hp, hx, ?_⟩
    rw [hfg x (by simp)]
    exact ih hl fun y hy => hfg y (by simp [hy])

theorem Path.ne_null {f : α → α} (h : Path null f p l) : ∀ x ∈ l, x ≠ null := by
  induction l generalizing p with
  | nil => simp
  | cons x l ih =>
    obtain ⟨-, hx, hl⟩ := h
    intro y hy
    rcases List.mem_cons.mp hy with rfl | hy
    · exact hx
    · exact ih hl y hy

theorem Path.head_eq {f : α → α} (h : Path null f p l) : p = first l null := by
  cases l with
  | nil => exact h
  | cons x l => exact h.1

theorem Path.eq_nil_iff {f : α → α} (h : Path null f p l) : l = [] ↔ p = null := by
  rw [h.head_eq, first_eq_null_iff h.ne_null]

/-- A pointer determines the nodes on its path. -/
theorem Path.unique {f : α → α} (h₁ : Path null f p l₁) (h₂ : Path null f p l₂) : l₁ = l₂ := by
  induction l₁ generalizing p l₂ with
  | nil => exact ((h₂.eq_nil_iff).mpr h₁).symm
  | cons x l ih =>
    obtain ⟨rfl, hx, hl⟩ := h₁
    cases l₂ with
    | nil => exact absurd h₂ hx
    | cons y l' =>
      obtain ⟨rfl, -, hl'⟩ := h₂
      rw [ih hl hl']

theorem Path.suffix {f : α → α} (h : Path null f p (l₁ ++ x :: l₂)) : Path null f x (x :: l₂) := by
  induction l₁ generalizing p with
  | nil =>
    obtain ⟨-, hx, hl⟩ := h
    exact ⟨rfl, hx, hl⟩
  | cons y l ih => exact ih h.2.2

/-- A path that ends does not come by a node twice. -/
theorem Path.nodup {f : α → α} (h : Path null f p l) : l.Nodup := by
  induction l generalizing p with
  | nil => exact List.nodup_nil
  | cons x l ih =>
    obtain ⟨-, hx, hl⟩ := h
    refine List.nodup_cons.mpr ⟨fun hm => ?_, ih hl⟩
    obtain ⟨l₁, l₂, rfl⟩ := List.append_of_mem hm
    have hwhole : Path null f x (x :: (l₁ ++ x :: l₂)) := ⟨rfl, hx, hl⟩
    have hlen := congrArg List.length ((Path.suffix hl).unique hwhole)
    simp only [List.length_cons, List.length_append] at hlen
    omega

theorem Path.last_eq_null {f : α → α} (h : Path null f p l) (hl : l ≠ []) :
    f (l.getLast hl) = null := by
  induction l generalizing p with
  | nil => exact absurd rfl hl
  | cons x l ih =>
    cases l with
    | nil => exact h.2.2
    | cons y l => exact ih h.2.2 (by simp)

/-- Doubly linked nodes `l` whose neighbours on the two sides are `p` and `q`. -/
def Seg (next prev : α → α) : α → List α → α → Prop
  | _, [], _ => True
  | p, x :: l, q => prev x = p ∧ next x = first l q ∧ Seg next prev x l q

theorem Seg.congr (h : Seg next prev p l q)
    (heq : ∀ x ∈ l, next' x = next x ∧ prev' x = prev x) : Seg next' prev' p l q := by
  induction l generalizing p with
  | nil => trivial
  | cons x l ih =>
    obtain ⟨hp, hn, hl⟩ := h
    obtain ⟨hnx, hpx⟩ := heq x (by simp)
    exact ⟨hpx.trans hp, hnx.trans hn, ih hl fun y hy => heq y (by simp [hy])⟩

theorem seg_append : Seg next prev p (l₁ ++ l₂) q ↔
    Seg next prev p l₁ (first l₂ q) ∧ Seg next prev (last p l₁) l₂ q := by
  induction l₁ generalizing p with
  | nil => simp [Seg]
  | cons x l ih => simp only [List.cons_append, Seg, ih, first_append, last_cons, and_assoc]

theorem Seg.path_next (h : Seg next prev p l null) (hl : ∀ x ∈ l, x ≠ null) :
    Path null next (first l null) l := by
  induction l generalizing p with
  | nil => rfl
  | cons x l ih =>
    obtain ⟨-, hn, hs⟩ := h
    refine ⟨rfl, hl x (by simp), ?_⟩
    rw [hn]
    exact ih hs fun y hy => hl y (by simp [hy])

section Update

variable [DecidableEq α]

theorem Seg.set_next (h : Seg next prev p l q) (hl : l.Nodup) (q' : α) :
    Seg (Function.update next (last p l) q') prev p l q' := by
  induction l generalizing p with
  | nil => trivial
  | cons x l ih =>
    obtain ⟨hp, hn, hs⟩ := h
    obtain ⟨hx, hl⟩ := List.nodup_cons.mp hl
    refine ⟨hp, ?_, ih hs hl⟩
    cases l with
    | nil => simp
    | cons y l =>
      have hne : x ≠ last x (y :: l) := by
        rcases last_mem_or x (y :: l) with hm | ⟨hm, -⟩
        · exact fun he => hx (he ▸ hm)
        · simp at hm
      rw [last_cons, Function.update_of_ne hne]
      exact hn

theorem Seg.set_prev (h : Seg next prev p l q) (hl : l.Nodup) (p' : α) :
    Seg next (Function.update prev (first l q) p') p' l q := by
  cases l with
  | nil => trivial
  | cons x l =>
    obtain ⟨-, hn, hs⟩ := h
    refine ⟨by simp, hn, hs.congr fun y hy => ⟨rfl, ?_⟩⟩
    rw [first_cons, Function.update_of_ne]
    rintro rfl
    exact (List.nodup_cons.mp hl).1 hy

/-- Writes to nodes outside a segment leave it alone. -/
theorem Seg.frame_next (h : Seg next prev p l q) (hx : x ∉ l) (v : α) :
    Seg (Function.update next x v) prev p l q :=
  h.congr fun y hy => ⟨Function.update_of_ne (by rintro rfl; exact hx hy) .., rfl⟩

theorem Seg.frame_prev (h : Seg next prev p l q) (hx : x ∉ l) (v : α) :
    Seg next (Function.update prev x v) p l q :=
  h.congr fun y hy => ⟨rfl, Function.update_of_ne (by rintro rfl; exact hx hy) ..⟩

end Update

structure Queue (null : α) (next prev : α → α) (front back : α) (l : List α) : Prop where
  front_eq : front = first l null
  back_eq : back = last null l
  seg : Seg next prev null l null

namespace Queue

variable {front back : α}

theorem congr (h : Queue null next prev front back l)
    (heq : ∀ x ∈ l, next' x = next x ∧ prev' x = prev x) :
    Queue null next' prev' front back l :=
  ⟨h.front_eq, h.back_eq, h.seg.congr heq⟩

theorem front_eq_null_iff (h : Queue null next prev front back l) (hl : ∀ x ∈ l, x ≠ null) :
    front = null ↔ l = [] := by
  rw [h.front_eq, first_eq_null_iff hl]

theorem back_eq_null_iff (h : Queue null next prev front back l) (hl : ∀ x ∈ l, x ≠ null) :
    back = null ↔ l = [] := by
  rw [h.back_eq, last_eq_null_iff hl]

theorem neighbours (h : Queue null next prev front back (l₁ ++ x :: l₂)) :
    prev x = last null l₁ ∧ next x = first l₂ null := by
  obtain ⟨-, hp, hn, -⟩ := seg_append.mp h.seg
  exact ⟨hp, hn⟩

/-- The two fields agree about which nodes are adjacent. -/
theorem next_eq_iff (h : Queue null next prev front back l) (hl : ∀ z ∈ l, z ≠ null) (hx : x ∈ l)
    (hy : y ∈ l) : next x = y ↔ prev y = x := by
  constructor
  · rintro hn
    obtain ⟨l₁, l₂, rfl⟩ := List.append_of_mem hx
    obtain ⟨-, hnext⟩ := h.neighbours
    rcases first_mem_or l₂ null with hm | ⟨-, he⟩
    · obtain ⟨z, l₃, rfl⟩ := List.exists_cons_of_ne_nil (List.ne_nil_of_mem hm)
      obtain rfl : y = z := hn.symm.trans hnext
      rw [List.append_cons] at h
      rw [h.neighbours.1, last_append]
      rfl
    · exact absurd (hn.symm.trans (hnext.trans he)) (hl y hy)
  · rintro hp
    obtain ⟨l₁, l₂, rfl⟩ := List.append_of_mem hy
    obtain ⟨hprev, -⟩ := h.neighbours
    rcases last_mem_or null l₁ with hm | ⟨-, he⟩
    · obtain ⟨l₃, z, rfl⟩ := (List.eq_nil_or_concat' l₁).resolve_left (List.ne_nil_of_mem hm)
      rw [last_append] at hprev
      obtain rfl : x = z := hp.symm.trans hprev
      rw [List.append_assoc] at h
      exact h.neighbours.2
    · exact absurd (hp.symm.trans (hprev.trans he)) (hl x hx)

theorem last_eq (h : Queue null next prev front back l) (hl : l ≠ []) : l.getLast hl = back := by
  obtain ⟨l₁, z, rfl⟩ := (List.eq_nil_or_concat' l).resolve_left hl
  rw [h.back_eq, last_append]
  simp

theorem of_seg (hs : Seg next prev null (x :: l) null) :
    Queue null next prev x (last x l) (x :: l) :=
  ⟨rfl, rfl, hs⟩

/-- A node outside of a queue is not linked from it. -/
theorem not_linked (h : Queue null next prev front back l) (hx : x ∉ l) (hne : x ≠ null) :
    front ≠ x ∧ back ≠ x ∧ ∀ y ∈ l, next y ≠ x ∧ prev y ≠ x := by
  have hfirst (m : List α) (hm : ∀ y ∈ m, y ∈ l) : first m null ≠ x := by
    rcases first_mem_or m null with hmem | ⟨-, he⟩
    · exact fun he => hx (he ▸ hm _ hmem)
    · exact fun he' => hne (he'.symm.trans he)
  have hlast (m : List α) (hm : ∀ y ∈ m, y ∈ l) : last null m ≠ x := by
    rcases last_mem_or null m with hmem | ⟨-, he⟩
    · exact fun he => hx (he ▸ hm _ hmem)
    · exact fun he' => hne (he'.symm.trans he)
  refine ⟨?_, ?_, fun y hy => ?_⟩
  · rw [h.front_eq]
    exact hfirst l fun y hy => hy
  · rw [h.back_eq]
    exact hlast l fun y hy => hy
  · obtain ⟨l₁, l₂, rfl⟩ := List.append_of_mem hy
    obtain ⟨hp, hn⟩ := h.neighbours
    rw [hp, hn]
    exact ⟨hfirst l₂ fun z hz => by simp [hz], hlast l₁ fun z hz => by simp [hz]⟩

variable [DecidableEq α]

/-- Redirecting both neighbours of `x` around it, with the end pointers taking the place of a
missing neighbour, removes exactly `x`. -/
theorem unlink (h : Queue null next prev front back (l₁ ++ x :: l₂))
    (hnd : (l₁ ++ x :: l₂).Nodup) (hne : ∀ y ∈ l₁ ++ x :: l₂, y ≠ null) :
    Queue null
      (if prev x = null then next else Function.update next (prev x) (next x))
      (if next x = null then prev else Function.update prev (next x) (prev x))
      (if prev x = null then next x else front)
      (if next x = null then prev x else back) (l₁ ++ l₂) := by
  obtain ⟨hs₁, hpx, hnx, hs₂⟩ := seg_append.mp h.seg
  obtain ⟨hnd₁, hnd₂, hdisj⟩ := List.nodup_append.mp hnd
  obtain ⟨hx₂, hnd₂⟩ := List.nodup_cons.mp hnd₂
  have hdisj₂ : ∀ y ∈ l₂, y ∉ l₁ := fun y hy hy₁ => hdisj y hy₁ y (by simp [hy]) rfl
  have hprev : prev x = null ↔ l₁ = [] := by
    rw [hpx]; exact last_eq_null_iff fun y hy => hne y (by simp [hy])
  have hnext : next x = null ↔ l₂ = [] := by
    rw [hnx]; exact first_eq_null_iff fun y hy => hne y (by simp [hy])
  have hfront := h.front_eq
  have hback := h.back_eq
  rw [first_append, first_cons] at hfront
  rw [last_append, last_cons] at hback
  refine ⟨?_, ?_, seg_append.mpr ⟨?_, ?_⟩⟩
  · split_ifs with hp
    · rw [hprev.mp hp, hnx]; rfl
    · obtain ⟨y, l, rfl⟩ := List.exists_cons_of_ne_nil fun he => hp (hprev.mpr he)
      exact hfront
  · split_ifs with hn
    · rw [hnext.mp hn, hpx]; simp
    · obtain ⟨y, l, rfl⟩ := List.exists_cons_of_ne_nil fun he => hn (hnext.mpr he)
      rw [hback, last_append]; rfl
  · have hs : Seg (if prev x = null then next else Function.update next (prev x) (next x)) prev
        null l₁ (first l₂ null) := by
      split_ifs with hp
      · rw [hprev.mp hp]; trivial
      · rw [hpx, ← hnx]; exact hs₁.set_next hnd₁ _
    by_cases hn : next x = null
    · rw [if_pos hn]; exact hs
    · rw [if_neg hn]
      refine hs.frame_prev ?_ _
      rw [hnx]
      rcases first_mem_or l₂ null with hm | ⟨he, -⟩
      · exact hdisj₂ _ hm
      · exact absurd (hnext.mpr he) hn
  · have hs : Seg next (if next x = null then prev else Function.update prev (next x) (prev x))
        (last null l₁) l₂ null := by
      split_ifs with hn
      · rw [hnext.mp hn]; trivial
      · rw [hnx, hpx]; exact hs₂.set_prev hnd₂ _
    by_cases hp : prev x = null
    · rw [if_pos hp]; exact hs
    · rw [if_neg hp]
      refine hs.frame_next ?_ _
      rw [hpx]
      rcases last_mem_or null l₁ with hm | ⟨he, -⟩
      · exact fun hm₂ => hdisj₂ _ hm₂ hm
      · exact absurd (hprev.mpr he) hp

theorem unlink_erase (h : Queue null next prev front back l) (hnd : l.Nodup)
    (hne : ∀ y ∈ l, y ≠ null) (hx : x ∈ l) :
    Queue null
      (if prev x = null then next else Function.update next (prev x) (next x))
      (if next x = null then prev else Function.update prev (next x) (prev x))
      (if prev x = null then next x else front)
      (if next x = null then prev x else back) (l.erase x) := by
  obtain ⟨l₁, l₂, rfl⟩ := List.append_of_mem hx
  have hx₁ : x ∉ l₁ := fun hm => (List.nodup_append.mp hnd).2.2 x hm x (by simp) rfl
  rw [List.erase_append_right _ hx₁, List.erase_cons_head]
  exact h.unlink hnd hne

/-- Hooking a segment that starts with `x` behind the last node of a queue. -/
theorem append (h : Queue null next prev front back l₁) (hl : l₁ ≠ [])
    (hs : Seg next prev p (x :: l₂) null) (hnd : (l₁ ++ x :: l₂).Nodup) :
    Queue null (Function.update next back x) (Function.update prev x back) front
      (last x l₂) (l₁ ++ x :: l₂) := by
  obtain ⟨hnd₁, hnd₂, hdisj⟩ := List.nodup_append.mp hnd
  have hx : x ∉ l₁ := fun hm => hdisj x hm x (by simp) rfl
  have hback : back ∈ l₁ := by
    rw [h.back_eq]
    exact (last_mem_or null l₁).resolve_right fun he => hl he.1
  have hb : back ∉ x :: l₂ := fun hm => hdisj back hback back hm rfl
  refine ⟨?_, ?_, seg_append.mpr ⟨?_, ?_⟩⟩
  · obtain ⟨y, l, rfl⟩ := List.exists_cons_of_ne_nil hl
    exact h.front_eq
  · rw [last_append, last_cons]
  · refine Seg.frame_prev ?_ hx _
    rw [h.back_eq]
    exact h.seg.set_next hnd₁ _
  · refine Seg.frame_next ?_ hb _
    rw [← h.back_eq]
    exact hs.set_prev hnd₂ _

end Queue

/-- Adding next edges to a stack that is linked by `prev` alone, from its newest node down: the
nodes of `done` have theirs, `waiter` is up, those of `rest` are to come, and all of them go behind
the queue `old`. -/
structure Walk (null : α) (next prev : α → α) (front back : α) (old : List α) (waiter : α)
    (rest done : List α) : Prop where
  queue : Queue null next prev front back old
  nodup : (old ++ (rest.reverse ++ waiter :: done)).Nodup
  old_ne_null : ∀ x ∈ old, x ≠ null
  ne_null : waiter ≠ null
  path : Path null prev (prev waiter) rest
  next_eq : next waiter = first done null
  seg : Seg next prev waiter done null

namespace Walk

variable {front back older waiter : α} {old rest done : List α}

/-- The walk begins at the newest node, which has no next edge. -/
theorem start (hq : Queue null next prev front back old) (hold : ∀ x ∈ old, x ≠ null)
    (hpath : Path null prev x (waiter :: rest)) (hnext : next waiter = null)
    (hnd : (old ++ (waiter :: rest).reverse).Nodup) :
    Walk null next prev front back old waiter rest [] := by
  obtain ⟨-, hne, hrest⟩ := hpath
  refine ⟨hq, ?_, hold, hne, hrest, hnext, trivial⟩
  rwa [List.reverse_cons] at hnd

theorem prev_eq (h : Walk null next prev front back old waiter (older :: rest) done) :
    prev waiter = older ∧ older ≠ null :=
  ⟨h.path.1, h.path.2.1⟩

theorem prev_eq_null_iff (h : Walk null next prev front back old waiter rest done) :
    prev waiter = null ↔ rest = [] :=
  h.path.eq_nil_iff.symm

theorem back_eq_null_iff (h : Walk null next prev front back old waiter rest done) :
    back = null ↔ old = [] :=
  h.queue.back_eq_null_iff h.old_ne_null

theorem back_mem (h : Walk null next prev front back old waiter rest done) (hold : old ≠ []) :
    back ∈ old := by
  rw [h.queue.back_eq]
  exact (last_mem_or null old).resolve_right fun he => hold he.1

/-- The stack was empty before: it becomes the queue. -/
theorem whole (h : Walk null next prev front back [] waiter [] done) :
    Queue null next prev waiter (last waiter done) (waiter :: done) :=
  Queue.of_seg ⟨h.prev_eq_null_iff.mpr rfl, h.next_eq, h.seg⟩

variable [DecidableEq α]

theorem link (h : Walk null next prev front back old waiter (older :: rest) done) :
    Walk null (Function.update next older waiter) prev front back old older rest
      (waiter :: done) := by
  obtain ⟨holder, hne, hrest⟩ := h.path
  have hnd := h.nodup
  rw [List.reverse_cons, List.append_assoc, List.singleton_append] at hnd
  have hold : older ∉ old := fun hm =>
    (List.nodup_append.mp hnd).2.2 older hm older (by simp) rfl
  obtain ⟨hw, -⟩ := List.nodup_cons.mp
    (List.nodup_append.mp (List.nodup_append.mp hnd).2.1).2.1
  rw [List.mem_cons, not_or] at hw
  obtain ⟨hwaiter, hdone⟩ := hw
  refine ⟨?_, hnd, h.old_ne_null, hne, hrest, Function.update_self .., ?_⟩
  · exact h.queue.congr fun y hy =>
      ⟨Function.update_of_ne (by rintro rfl; exact hold hy) .., rfl⟩
  · refine ⟨holder, ?_, h.seg.frame_next hdone _⟩
    exact (Function.update_of_ne (Ne.symm hwaiter) ..).trans h.next_eq

/-- The oldest node is spliced behind the last node of the queue. -/
theorem splice (h : Walk null next prev front back old waiter [] done) (hold : old ≠ []) :
    Queue null (Function.update next back waiter) (Function.update prev waiter back) front
      (last waiter done) (old ++ waiter :: done) := by
  have hseg : Seg next prev null (waiter :: done) null :=
    ⟨h.prev_eq_null_iff.mpr rfl, h.next_eq, h.seg⟩
  exact h.queue.append hold hseg h.nodup

end Walk

end Links
