import WeightedSemaphore.Refinement
import WeightedSemaphore.WakerWords

/-!
# The registered waker

Which waker a waiter registered last, and which waker `finish` wakes. The two words of a waker are
loaded after the state and before the exchange that finishes the waiter; in between, the sequence
number of the state counts the polls that returned `Pending`.
-/

namespace WeightedSemaphore

open AtomicWaker (PollPc PollResult FinishPc FinishResult)
open Function (update update_self update_of_ne)
open Waker (State Kind)
open Protocol (Inv)

namespace Tokens

variable {u v tok d : ℕ} {e : TokenEvent} {l : List TokenEvent}

def last (u : ℕ) : List TokenEvent → Option ℕ
  | [] => none
  | .registered v tok :: l => if v = u then some tok else last u l
  | _ :: l => last u l

/-- The polls of `u` that returned `Pending` since `finish` last read its state. -/
def since (u : ℕ) : List TokenEvent → ℕ
  | [] => 0
  | .observed v :: l => if v = u then 0 else since u l
  | .registered v _ :: l => if v = u then since u l + 1 else since u l
  | _ :: l => since u l

def Woken (u : ℕ) (l : List TokenEvent) : Prop :=
  ∃ tok l₁ l₂, l = l₁ ++ .registered u tok :: l₂ ∧ (∀ tok', .registered u tok' ∉ l₁) ∧
    .woken tok tok ∈ l₁

theorem last_eq_none (h : ∀ tok, .registered u tok ∉ l) : last u l = none := by
  induction l with
  | nil => rfl
  | cons e l ih =>
    have hl : last u l = none := ih fun tok ht => h tok (List.mem_cons_of_mem _ ht)
    cases e with
    | registered v tok =>
      have hv : v ≠ u := by
        rintro rfl
        exact h tok (by simp)
      rw [last, if_neg hv]
      exact hl
    | _ => exact hl

theorem last_eq_some (h : last u l = some tok) :
    ∃ l₁ l₂, l = l₁ ++ .registered u tok :: l₂ ∧ ∀ tok', .registered u tok' ∉ l₁ := by
  have skip {e : TokenEvent} {l : List TokenEvent} (he : ∀ tok', .registered u tok' ≠ e)
      (hl : ∃ l₁ l₂, l = l₁ ++ .registered u tok :: l₂ ∧ ∀ tok', .registered u tok' ∉ l₁) :
      ∃ l₁ l₂, e :: l = l₁ ++ .registered u tok :: l₂ ∧ ∀ tok', .registered u tok' ∉ l₁ := by
    obtain ⟨l₁, l₂, rfl, hn⟩ := hl
    exact ⟨e :: l₁, l₂, rfl, fun tok' ht => (List.mem_cons.mp ht).elim (he tok') (hn tok')⟩
  induction l with
  | nil => cases h
  | cons e l ih =>
    cases e with
    | registered v tok' =>
      by_cases hv : v = u
      · subst hv
        rw [last, if_pos rfl] at h
        obtain rfl := Option.some.inj h
        exact ⟨[], l, rfl, by simp⟩
      · rw [last, if_neg hv] at h
        refine skip (fun tok'' he => hv ?_) (ih h)
        exact (TokenEvent.registered.inj he).1.symm
    | _ => exact skip (by simp) (ih h)

theorem last_registered_of_ne (h : v ≠ u) : last u (.registered v tok :: l) = last u l := if_neg h

@[simp] theorem last_registered : last u (.registered u tok :: l) = some tok := if_pos rfl

@[simp] theorem since_registered : since u (.registered u tok :: l) = since u l + 1 := if_pos rfl

theorem since_registered_of_ne (h : v ≠ u) : since u (.registered v tok :: l) = since u l :=
    if_neg h

@[simp] theorem since_observed : since u (.observed u :: l) = 0 := if_pos rfl

theorem Woken.cons (h : Woken u l) (he : ∀ tok, .registered u tok ≠ e) : Woken u (e :: l) := by
  obtain ⟨tok, l₁, l₂, rfl, hn, hw⟩ := h
  exact ⟨tok, e :: l₁, l₂, rfl, fun tok' ht => (List.mem_cons.mp ht).elim (he tok') (hn tok'),
    List.mem_cons_of_mem _ hw⟩

theorem Woken.of_last (h : last u l = some tok) : Woken u (.woken tok tok :: l) := by
  obtain ⟨l₁, l₂, rfl, hn⟩ := last_eq_some h
  exact ⟨tok, .woken tok tok :: l₁, l₂, rfl, by simpa using hn, by simp⟩

/-- Nothing was observed, registered or woken. -/
structure Same (l l' : List TokenEvent) : Prop where
  last : ∀ u, last u l' = last u l
  since : ∀ u, since u l' = since u l
  woken : ∀ u, Woken u l → Woken u l'
  registered : ∀ u tok, .registered u tok ∈ l' → .registered u tok ∈ l

theorem Same.refl (l : List TokenEvent) : Same l l :=
  ⟨fun _ => rfl, fun _ => rfl, fun _ => id, fun _ _ => id⟩

theorem Same.dropped (l : List TokenEvent) (d v : ℕ) : Same l (.dropped d v :: l) :=
  ⟨fun _ => rfl, fun _ => rfl, fun _ h => h.cons (by simp), fun _ _ h => by simpa using h⟩

end Tokens

variable [Usize] {ι : Type}

def Frame.Tracked (waker : Ptr → AtomicWaker ι) (uid : Ptr → ℕ) (tokens : List TokenEvent) :
    Frame ι → Prop
  | pollEnter a (.poll _ _ _ tok pc) => pc.Stored (waker a) tok
  | pollEnter a (.push _ _ _) => Tokens.last (uid a) tokens ≠ none
  | pollWaiting a tok pc => pc.Stored (waker a) tok
  | release _ _ (.finish pop pc) => pc.Saw (waker pop.front) (Tokens.since (uid pop.front) tokens)
  | _ => True

/-- The frame is about to wake a waker, or a poll of `x` that has begun to store another one. -/
def Frame.Notifies (x : Ptr) : Frame ι → Prop
  | pollWaiting y _ pc => y = x ∧ pc.Stores
  | release _ _ (.wake _ _ _) => True
  | _ => False

/-- The waker registered last for `u` was woken, or is being woken. Or a poll is replacing it, which
will find that its waiter is finished. -/
def Notified (frames : ι → Frame ι) (tokens : List TokenEvent) (x : Ptr) (u : ℕ) : Prop :=
  (∃ t tok pc, frames t = .pollWaiting x tok pc ∧ pc.Stores) ∨
    (∃ t r ret pop tok, frames t = .release r ret (.wake pop tok tok) ∧
      Tokens.last u tokens = some tok) ∨
    Tokens.Woken u tokens

structure Tracks (s : Sys ι) : Prop where
  known : ∀ u tok, .registered u tok ∈ s.ghost.tokens → u < s.ghost.nextUid
  current : ∀ x ∈ s.live, (s.mem.waker x).kind = .pending →
    ∀ tok, Tokens.last (s.ghost.uid x) s.ghost.tokens = some tok →
      (s.mem.waker x).data = tok ∧ (s.mem.waker x).vtable = tok
  waiting : ∀ x ∈ s.live, s.mem.step x = .waiting →
    Tokens.last (s.ghost.uid x) s.ghost.tokens ≠ none
  frames : ∀ t, (s.frames t).Tracked s.mem.waker s.ghost.uid s.ghost.tokens
  finished : ∀ x ∈ s.live, s.mem.step x = .waiting → s.ghost.claimed x = false →
    ∀ p, (s.mem.waker x).kind = .finished p →
      Notified s.frames s.ghost.tokens x (s.ghost.uid x)

theorem Tracks.init (initial : ℕ) : Tracks (Sys.init initial : Sys ι) := by
  constructor <;> simp [Sys.init, Frame.Tracked]

/-- A frame keeps what it knows if the waker of its own waiter is left alone and still registered,
and `finish` is still right about what it has read. -/
theorem Frame.Tracked.mono {waker waker' : Ptr → AtomicWaker ι} {uid uid' : Ptr → ℕ}
    {tokens tokens' : List TokenEvent} {f : Frame ι} (h : f.Tracked waker uid tokens)
    (hw : ∀ y, f.uses = some y → (waker y).Unmoved (waker' y))
    (hl : ∀ y, f.uses = some y → Tokens.last (uid y) tokens ≠ none →
      Tokens.last (uid' y) tokens' ≠ none)
    (hsaw : ∀ r ret pop pc, f = .release r ret (.finish pop pc) →
      pc.Saw (waker pop.front) (Tokens.since (uid pop.front) tokens) →
      pc.Saw (waker' pop.front) (Tokens.since (uid' pop.front) tokens')) :
    f.Tracked waker' uid' tokens' := by
  cases f with
  | pollEnter y pc =>
    cases pc with
    | poll current available back tok pc => exact (hw y rfl).stored h
    | push current available back => exact hl y rfl h
    | _ => trivial
  | pollWaiting y tok pc => exact (hw y rfl).stored h
  | release r ret pc =>
    cases pc with
    | finish pop pc => exact hsaw r ret pop pc rfl h
    | _ => trivial
  | _ => trivial

theorem Frame.Tracked.congr {waker waker' : Ptr → AtomicWaker ι} {uid : Ptr → ℕ}
    {tokens tokens' : List TokenEvent} {f : Frame ι} (h : f.Tracked waker uid tokens)
    (hw : ∀ x, (waker x).Unmoved (waker' x)) (ht : Tokens.Same tokens tokens') :
    f.Tracked waker' uid tokens' := by
  refine h.mono (fun y _ => hw y) (fun y _ hy => by rwa [ht.last]) fun r ret pop pc _ hpc => ?_
  rw [ht.since]
  exact (hw pop.front).saw hpc

/-- What a waker method drops is no registration. -/
theorem Sys.runWaker_tokens {π ρ : Type} (s : Sys ι) (x : Ptr) (r : AtomicWaker.Step ι π ρ) :
    Tokens.Same s.ghost.tokens (s.runWaker x r).ghost.tokens := by
  simp only [Sys.runWaker]
  cases r.dropped with
  | none => exact .refl _
  | some p => exact .dropped _ _ _

section Identities

variable {s : Sys ι} {a : Protocol.State ι Ptr} {x y : Ptr}

theorem Sim.life_ne_absent (hs : Sim s a) (hi : Inv a) (hx : x ∈ s.live) : a.life x ≠ .absent :=
  (hi.live x).mp (hs.view.live ▸ hx)

theorem Sim.uid_lt (hs : Sim s a) (hi : Inv a) (hh : Protocol.HistOk a) (hx : x ∈ s.live) :
    s.ghost.uid x < s.ghost.nextUid := by
  have hlt := hh.uid_lt x (hs.life_ne_absent hi hx)
  rwa [hs.view.uid, hs.view.nextUid] at hlt

theorem Sim.uid_inj (hs : Sim s a) (hi : Inv a) (hh : Protocol.HistOk a) (hx : x ∈ s.live)
    (hy : y ∈ s.live) (he : s.ghost.uid x = s.ghost.uid y) : x = y :=
  hh.uid_inj x y (hs.life_ne_absent hi hx) (hs.life_ne_absent hi hy) (by rw [hs.view.uid, he])

/-- The front of the queue is a live waiter. -/
theorem Sim.finish_live (hs : Sim s a) (hi : Inv a) {t : ι} {r : Permits} {ret : Cont} {pop : Pop}
    {pc : FinishPc} (hf : s.frames t = .release r ret (.finish pop pc)) : pop.front ∈ s.live := by
  obtain ⟨o, ho, -, -, -, hphase, -, hpop, -⟩ := hs.owner_of hi hf rfl
  obtain ⟨rest, hl⟩ := hpop.1
  have hmem : pop.front ∈ a.linked := by rw [hl]; simp
  have hlife : a.life pop.front ≠ .absent := by
    rcases hi.linked_queue hmem with hq | hq <;> simp [hq]
  rw [← hs.view.live]
  exact (hi.live _).mpr hlife

end Identities

variable [DecidableEq ι] {s s' : Sys ι} {a : Protocol.State ι Ptr} {t : ι} {f : Frame ι} {x : Ptr}
  {spurious : Bool}

/-- The others go on with what they have begun. -/
theorem Notified.frame {frames : ι → Frame ι} {tokens tokens' : List TokenEvent} {u : ℕ}
    (h : Notified frames tokens x u)
    (hn : (frames t).Notifies x → ∃ tok pc, f = .pollWaiting x tok pc ∧ pc.Stores)
    (hl : Tokens.last u tokens' = Tokens.last u tokens)
    (hw : Tokens.Woken u tokens → Tokens.Woken u tokens') :
    Notified (update frames t f) tokens' x u := by
  by_cases ht : (frames t).Notifies x
  · obtain ⟨tok, pc, rfl, hpc⟩ := hn ht
    exact Or.inl ⟨t, tok, pc, update_self .., hpc⟩
  · rcases h with ⟨t', tok, pc, hf, hpc⟩ | ⟨t', r, ret, pop, tok, hf, hlast⟩ | h
    · have htt : t' ≠ t := by
        rintro rfl
        exact ht (by rw [hf]; exact ⟨rfl, hpc⟩)
      exact Or.inl ⟨t', tok, pc, by rw [update_of_ne htt, hf], hpc⟩
    · have htt : t' ≠ t := by
        rintro rfl
        exact ht (by rw [hf]; trivial)
      exact Or.inr (Or.inl ⟨t', r, ret, pop, tok, by rw [update_of_ne htt, hf], hl.trans hlast⟩)
    · exact Or.inr (Or.inr (hw h))

namespace Tracks

/-- Steps that neither store, observe nor wake a waker. -/
theorem keep (h : Tracks s) (hframes : s'.frames = update s.frames t f)
    (hn : ∀ x ∈ s'.live, s'.mem.step x = .waiting → ¬ (s.frames t).Notifies x)
    (hf : f.Tracked s.mem.waker s.ghost.uid s.ghost.tokens)
    (hw : ∀ x, (s.mem.waker x).Unmoved (s'.mem.waker x))
    (hfin : ∀ x ∈ s'.live, ∀ p, (s'.mem.waker x).kind = .finished p →
      (s.mem.waker x).kind = .finished p ∨ Notified s'.frames s'.ghost.tokens x (s.ghost.uid x))
    (ht : Tokens.Same s.ghost.tokens s'.ghost.tokens) (hlive : ∀ x ∈ s'.live, x ∈ s.live)
    (hstep : ∀ x ∈ s'.live, s'.mem.step x = .waiting → s.mem.step x = .waiting ∨
      Tokens.last (s.ghost.uid x) s.ghost.tokens ≠ none ∧ (s.mem.waker x).kind = .pending)
    (hclaim : ∀ x, s'.ghost.claimed x = false → s.ghost.claimed x = false)
    (huid : s'.ghost.uid = s.ghost.uid) (hnext : s'.ghost.nextUid = s.ghost.nextUid) :
    Tracks s' where
  known u tok hu := by
    rw [hnext]
    exact h.known u tok (ht.registered u tok hu)
  current x hx hk tok hl := by
    rw [huid, ht.last] at hl
    obtain ⟨hd, hv⟩ := h.current x (hlive x hx) ((hw x).pending hk) tok hl
    exact ⟨(hw x).1.trans hd, (hw x).2.1.trans hv⟩
  waiting x hx hst := by
    rw [huid, ht.last]
    exact (hstep x hx hst).elim (h.waiting x (hlive x hx)) And.left
  frames u := by
    rw [hframes, huid]
    by_cases hu : u = t
    · subst hu
      rw [update_self]
      exact hf.congr hw ht
    · rw [update_of_ne hu]
      exact (h.frames u).congr hw ht
  finished x hx hst hc p hk := by
    rw [huid]
    refine (hfin x hx p hk).elim (fun hk' => ?_) id
    have hst' : s.mem.step x = .waiting := by
      refine (hstep x hx hst).resolve_right ?_
      rintro ⟨-, hp⟩
      cases hk'.symm.trans hp
    rw [hframes]
    exact (h.finished x (hlive x hx) hst' (hclaim x hc) p hk').frame
      (fun hx' => absurd hx' (hn x hx hst)) (ht.last _) (ht.woken _)

/-- As `keep`, where no memory changes. -/
theorem goto (h : Tracks s) (hframes : s'.frames = update s.frames t f)
    (hn : ∀ x, ¬ (s.frames t).Notifies x)
    (hf : f.Tracked s.mem.waker s.ghost.uid s.ghost.tokens) (hw : s'.mem.waker = s.mem.waker)
    (hstep : s'.mem.step = s.mem.step) (hlive : s'.live = s.live)
    (hclaim : s'.ghost.claimed = s.ghost.claimed) (htok : s'.ghost.tokens = s.ghost.tokens)
    (huid : s'.ghost.uid = s.ghost.uid) (hnext : s'.ghost.nextUid = s.ghost.nextUid) :
    Tracks s' :=
  h.keep hframes (fun x _ _ => hn x) hf (fun x => by rw [hw]; exact .refl _)
    (fun x _ p hk => Or.inl (by rwa [hw] at hk)) (by rw [htok]; exact .refl _)
    (fun x hx => hlive ▸ hx) (fun x _ hx => Or.inl (by rwa [hstep] at hx))
    (fun x hx => by rwa [hclaim] at hx) huid hnext

/-- A step by the thread that polls `x`, which touches the waker of `x` only. -/
theorem store (h : Tracks s) (hs : Sim s a) (hu : (s.frames t).uses = some x)
    {w : AtomicWaker ι} (hframes : s'.frames = update s.frames t f)
    (hwaker : s'.mem.waker = update s.mem.waker x w)
    (ht : Tokens.Same s.ghost.tokens s'.ghost.tokens) (hlive : s'.live = s.live)
    (hstep : s'.mem.step = s.mem.step) (hclaim : s'.ghost.claimed = s.ghost.claimed)
    (huid : s'.ghost.uid = s.ghost.uid) (hnext : s'.ghost.nextUid = s.ghost.nextUid)
    (hn : ∀ y, (s.frames t).Notifies y → ∃ tok pc, f = .pollWaiting y tok pc ∧ pc.Stores)
    (hf : f.Tracked s'.mem.waker s.ghost.uid s.ghost.tokens)
    (hpend : w.kind = .pending → w = s.mem.waker x)
    (hfin : ∀ p, w.kind = .finished p → (s.mem.waker x).kind = .finished p)
    (hahead : ∀ q m, (s.mem.waker x).Ahead q m → w.Ahead q m) : Tracks s' := by
  have hwx : s'.mem.waker x = w := by rw [hwaker, update_self]
  have hwy {y : Ptr} (hy : y ≠ x) : s'.mem.waker y = s.mem.waker y := by
    rw [hwaker, update_of_ne hy]
  have hsaw {y : Ptr} {m : ℕ} {pc : FinishPc} (hpc : pc.Saw (s.mem.waker y) m) :
      pc.Saw (s'.mem.waker y) m := by
    by_cases hy : y = x
    · subst hy
      rw [hwx]
      exact hpc.stored hpend hahead
    · rw [hwy hy]
      exact hpc
  constructor
  case known =>
    rw [hnext]
    exact fun u tok hu => h.known u tok (ht.registered u tok hu)
  case current =>
    intro y hy hk tok hl
    rw [hlive] at hy
    rw [huid, ht.last] at hl
    by_cases hyx : y = x
    · subst hyx
      rw [hwx] at hk ⊢
      have hw := hpend hk
      rw [hw] at hk ⊢
      exact h.current y hy hk tok hl
    · rw [hwy hyx] at hk ⊢
      exact h.current y hy hk tok hl
  case waiting =>
    rw [hlive, hstep, huid]
    exact fun y hy hst => (ht.last _).symm ▸ h.waiting y hy hst
  case frames =>
    intro u
    rw [hframes, huid]
    by_cases hut : u = t
    · subst hut
      rw [update_self]
      exact hf.congr (fun y => .refl _) ht
    · rw [update_of_ne hut]
      have hother {y : Ptr} (hy : (s.frames u).uses = some y) : y ≠ x :=
        fun hyx => hut (hs.loc.user_eq (hyx ▸ hy) hu)
      refine (h.frames u).mono (fun y hy => ?_) (fun y _ hl => by rwa [ht.last])
        fun r ret pop pc _ hpc => ?_
      · rw [hwy (hother hy)]
        exact .refl _
      · rw [ht.since]
        exact hsaw hpc
  case finished =>
    intro y hy hst hc p hk
    rw [hlive] at hy
    rw [hstep] at hst
    rw [hclaim] at hc
    have hk' : (s.mem.waker y).kind = .finished p := by
      by_cases hyx : y = x
      · subst hyx
        rw [hwx] at hk
        exact hfin p hk
      · rwa [hwy hyx] at hk
    rw [hframes, huid]
    exact (h.finished y hy hst hc p hk').frame (hn y) (ht.last _) (ht.woken _)

theorem registered (h : Tracks s) (hs : Sim s a) (hi : Inv a) (hhist : Protocol.HistOk a)
    (hu : (s.frames t).uses = some x) {w : AtomicWaker ι} {tok : ℕ}
    (hframes : s'.frames = update s.frames t f) (hwaker : s'.mem.waker = update s.mem.waker x w)
    (htok : s'.ghost.tokens = .registered (s.ghost.uid x) tok :: s.ghost.tokens)
    (hlive : s'.live = s.live) (hstep : s'.mem.step = s.mem.step)
    (hclaim : s'.ghost.claimed = s.ghost.claimed) (huid : s'.ghost.uid = s.ghost.uid)
    (hnext : s'.ghost.nextUid = s.ghost.nextUid)
    (hn : ∀ y, (s.frames t).Notifies y → y = x) (hk : w.kind = .pending)
    (hf : f.Tracked s'.mem.waker s'.ghost.uid s'.ghost.tokens) (hd : w.data = tok)
    (hv : w.vtable = tok) (hahead : ∀ q m, (s.mem.waker x).Ahead q m → w.Ahead q (m + 1)) :
    Tracks s' := by
  have hx : x ∈ s.live := (hs.borrowed rfl hu).1
  have hwx : s'.mem.waker x = w := by rw [hwaker, update_self]
  have hwy {y : Ptr} (hy : y ≠ x) : s'.mem.waker y = s.mem.waker y := by
    rw [hwaker, update_of_ne hy]
  have hne {y : Ptr} (hy : y ∈ s.live) (hyx : y ≠ x) : s.ghost.uid x ≠ s.ghost.uid y :=
    fun he => hyx (hs.uid_inj hi hhist hx hy he).symm
  have hlast {y : Ptr} (hl : Tokens.last (s.ghost.uid y) s.ghost.tokens ≠ none) :
      Tokens.last (s.ghost.uid y) s'.ghost.tokens ≠ none := by
    rw [htok]
    by_cases he : s.ghost.uid x = s.ghost.uid y
    · rw [he, Tokens.last_registered]
      simp
    · rwa [Tokens.last_registered_of_ne he]
  constructor
  case known =>
    intro u tok' hu
    rw [hnext]
    rw [htok] at hu
    rcases List.mem_cons.mp hu with he | hu
    · obtain ⟨rfl, -⟩ := TokenEvent.registered.inj he
      exact hs.uid_lt hi hhist hx
    · exact h.known u tok' hu
  case current =>
    intro y hy hky tok' hl
    rw [hlive] at hy
    rw [huid, htok] at hl
    by_cases hyx : y = x
    · subst hyx
      rw [Tokens.last_registered] at hl
      obtain rfl := Option.some.inj hl
      rw [hwx]
      exact ⟨hd, hv⟩
    · rw [hwy hyx] at hky ⊢
      rw [Tokens.last_registered_of_ne (hne hy hyx)] at hl
      exact h.current y hy hky tok' hl
  case waiting =>
    intro y hy hst
    rw [hlive] at hy
    rw [hstep] at hst
    rw [huid]
    exact hlast (h.waiting y hy hst)
  case frames =>
    intro u
    rw [hframes]
    by_cases hut : u = t
    · subst hut
      rw [update_self]
      exact hf
    · rw [update_of_ne hut, huid]
      have hother {y : Ptr} (hy : (s.frames u).uses = some y) : y ≠ x :=
        fun hyx => hut (hs.loc.user_eq (hyx ▸ hy) hu)
      refine (h.frames u).mono (fun y hy => ?_) (fun y _ => hlast) fun r ret pop pc hfu hsaw => ?_
      · rw [hwy (hother hy)]
        exact .refl _
      · rw [htok]
        by_cases hyx : pop.front = x
        · rw [hyx] at hsaw ⊢
          rw [hwx, Tokens.since_registered]
          exact hsaw.registered hahead
        · rwa [hwy hyx, Tokens.since_registered_of_ne (hne (hs.finish_live hi hfu) hyx)]
  case finished =>
    intro y hy hst hc p hky
    rw [hlive] at hy
    rw [hstep] at hst
    rw [hclaim] at hc
    have hyx : y ≠ x := by
      rintro rfl
      rw [hwx, hk] at hky
      cases hky
    rw [hwy hyx] at hky
    rw [hframes, huid, htok]
    refine (h.finished y hy hst hc p hky).frame (fun hn' => absurd (hn y hn') hyx)
      (Tokens.last_registered_of_ne (hne hy hyx)) fun hw => hw.cons fun tok' he => ?_
    exact hne hy hyx (TokenEvent.registered.inj he).1.symm

theorem observed (h : Tracks s) (hs : Sim s a) (hi : Inv a) {r : Permits} {ret : Cont} {pop : Pop}
    {pc : FinishPc} (hf : s.frames t = .release r ret (.finish pop pc))
    (hframes : s'.frames = update s.frames t
      (.release r ret (.finish pop (.test (s.mem.waker pop.front).state.load))))
    (hw : s'.mem.waker = s.mem.waker)
    (htok : s'.ghost.tokens = .observed (s.ghost.uid pop.front) :: s.ghost.tokens)
    (hstep : s'.mem.step = s.mem.step) (hlive : s'.live = s.live)
    (hclaim : s'.ghost.claimed = s.ghost.claimed) (huid : s'.ghost.uid = s.ghost.uid)
    (hnext : s'.ghost.nextUid = s.ghost.nextUid) : Tracks s' where
  known u tok hu := by
    rw [htok] at hu
    rw [hnext]
    exact h.known u tok (by simpa using hu)
  current x hx hk tok hl := by
    rw [hlive] at hx
    rw [hw] at hk ⊢
    rw [huid, htok] at hl
    exact h.current x hx hk tok hl
  waiting x hx hst := by
    rw [hlive] at hx
    rw [hstep] at hst
    rw [huid, htok]
    exact h.waiting x hx hst
  frames u := by
    rw [hframes, huid, hw, htok]
    by_cases hut : u = t
    · subst hut
      rw [update_self]
      change FinishPc.Saw _ _ (.test _)
      rw [Tokens.since_observed]
      cases hload : (s.mem.waker pop.front).state.load with
      | pending q => exact .load hload
      | _ => trivial
    · rw [update_of_ne hut]
      refine (h.frames u).mono (fun y _ => .refl _) (fun y _ hl => hl)
        fun r' ret' pop' pc' hfu _ => absurd ?_ hut
      -- only the lock owner is in `finish`
      obtain ⟨o, ho, hot, -⟩ := hs.owner_of hi hf rfl
      obtain ⟨o', ho', hot', -⟩ := hs.owner_of hi hfu rfl
      obtain rfl : o = o' := Option.some.inj (ho.symm.trans ho')
      exact hot'.symm.trans hot
  finished x hx hst hc p hk := by
    rw [hlive] at hx
    rw [hstep] at hst
    rw [hclaim] at hc
    rw [hw] at hk
    rw [hframes, huid, htok]
    exact (h.finished x hx hst hc p hk).frame (by rw [hf]; exact False.elim) rfl
      fun hw => hw.cons (by simp)

/-- The lock owner wakes the waker it has. -/
theorem wake (h : Tracks s) {r : Permits} {ret : Cont} {pop : Pop} {data vtable : ℕ}
    (hf : s.frames t = .release r ret (.wake pop data vtable)) :
    Tracks ((s.logToken (.woken data vtable)).goto t (.release r ret (.relink pop))) where
  known u tok hu := h.known u tok (by simpa [Sys.goto, Sys.logToken] using hu)
  current := h.current
  waiting := h.waiting
  frames u := by
    change Frame.Tracked _ _ _ (update s.frames t _ u)
    by_cases hut : u = t
    · subst hut
      rw [update_self]
      trivial
    · rw [update_of_ne hut]
      exact (h.frames u).mono (fun y _ => .refl _) (fun y _ hl => hl)
        fun r' ret' pop' pc' _ hpc => hpc
  finished x hx hst hc p hk := by
    rcases h.finished x hx hst hc p hk with ⟨u, tok, pc, hfu, hpc⟩ |
      ⟨u, r', ret', pop', tok, hfu, hlast⟩ | hw
    · refine Or.inl ⟨u, tok, pc, ?_, hpc⟩
      exact (update_of_ne (by rintro rfl; cases hf.symm.trans hfu) _ _).trans hfu
    · by_cases hut : u = t
      · subst hut
        cases hf.symm.trans hfu
        exact Or.inr (Or.inr (.of_last hlast))
      · exact Or.inr (Or.inl ⟨u, r', ret', pop', tok, (update_of_ne hut _ _).trans hfu, hlast⟩)
    · exact Or.inr (Or.inr (hw.cons (by simp)))

omit [DecidableEq ι] in
theorem create (h : Tracks s) (hs : Sim s a) (hi : Inv a) {amount : ℕ}
    (hn : s.acquire x amount = some s') : Tracks s' := by
  simp only [Sys.acquire] at hn
  split_ifs at hn with hx
  obtain rfl := Option.some.inj hn
  have hne {y : Ptr} (hy : y ∈ s.live) : y ≠ x := by
    rintro rfl
    exact hx.1 hy
  have hfresh : Tokens.last s.ghost.nextUid s.ghost.tokens = none :=
    Tokens.last_eq_none fun tok ht => absurd (h.known _ _ ht) (Nat.lt_irrefl _)
  constructor
  case known => exact fun u tok hu => Nat.lt_succ_of_lt (h.known u tok hu)
  case current =>
    intro y hy hk tok hl
    dsimp only at hy hk hl ⊢
    by_cases hyx : y = x
    · subst hyx
      rw [update_self, hfresh] at hl
      cases hl
    · rw [update_of_ne hyx] at hk hl ⊢
      exact h.current y ((Finset.mem_insert.mp hy).resolve_left hyx) hk tok hl
  case waiting =>
    intro y hy hst
    dsimp only at hy hst ⊢
    by_cases hyx : y = x
    · subst hyx
      rw [update_self] at hst
      cases hst
    · rw [update_of_ne hyx] at hst ⊢
      exact h.waiting y ((Finset.mem_insert.mp hy).resolve_left hyx) hst
  case frames =>
    intro u
    have hother {y : Ptr} (hy : (s.frames u).uses = some y) : y ≠ x := hne (hs.borrowed rfl hy).1
    refine (h.frames u).mono (fun y hy => ?_) (fun y hy hl => ?_) fun r ret pop pc hfu hpc => ?_
    · dsimp only
      rw [update_of_ne (hother hy)]
      exact .refl _
    · dsimp only
      rwa [update_of_ne (hother hy)]
    · have hy := hne (hs.finish_live hi hfu)
      dsimp only
      rwa [update_of_ne hy, update_of_ne hy]
  case finished =>
    intro y hy hst hc p hk
    dsimp only at hy hst hc hk ⊢
    by_cases hyx : y = x
    · subst hyx
      rw [update_self] at hst
      cases hst
    · rw [update_of_ne hyx] at hst hc hk ⊢
      exact h.finished y ((Finset.mem_insert.mp hy).resolve_left hyx) hst hc p hk

end Tracks

end WeightedSemaphore
