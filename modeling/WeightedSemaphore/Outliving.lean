import WeightedSemaphore.CountedSteps
import WeightedSemaphore.GuardLedger

/-!
# The semaphore outlives its users, but for one destructor

Whatever accesses the semaphore does so while the strong count is at least 1, except for the
destructor of an `AcquireFutureArc`: its field `arc` is dropped before `inner`, which may still have
to give up a waiter. If the reference in `arc` was the last one, the semaphore is freed by then.
-/

namespace WeightedSemaphore

open Function (update update_self update_of_ne)

section

variable [Usize] {ι : Type}

theorem Frame.uses_of_dropping {f : Frame ι} {a : Ptr} (h : f.dropping = some a) :
    f.uses = some a := by
  cases f with
  | dropFuture b pc => exact h
  | release r ret pc => cases ret <;> first | exact h | cases h
  | _ => cases h

/-- The next step drops the reference that the method owns. -/
def ArcOp.drops : ArcOp → Bool
  | dropClone _ => true
  | dropSemaphore => true
  | _ => false

variable [DecidableEq ι]

namespace Counted

variable {initial : ℕ} {s s' : Counted ι} {t : ι} {op : ArcOp} {b : Bool}

def Act.drops (s : Counted ι) : Act ι → Prop
  | .dropClone _ => True
  | .dropFuture _ _ => True
  | .extend _ _ => True
  | .forget _ => True
  | .step t _ => (s.ops t).drops = true
  | _ => False

/-- The last reference is not dropped while the destructor of an acquire future is going to access
the semaphore, nor by the destructor of a future that is waiting and not poisoned. -/
def Keeps (s : Counted ι) (act : Act ι) : Prop :=
  act.drops s → s.strong = 1 →
    (∀ t, ¬ (s.sys.frames t).Lingers s.sys.mem) ∧
      ∀ t a, act = .dropFuture t a → s.sys.mem.step a = .waiting →
        (s.sys.mem.waker a).state.load = .finished true

namespace Ok

theorem guards (h : Counts initial s) {gs : List (SemaphoreGuardArc Unit)} {k : ℕ}
    (hheld : ∀ guard ∈ gs, guard.semaphore = some ())
    (hk : k + s.guards.length = s.strong + gs.length) :
    Counts initial { s with strong := k, guards := gs } := by
  obtain ⟨n, hn, hs⟩ := h.strong
  refine { h with strong := ⟨n, hn, ?_⟩, held := hheld }
  change k = s.clones.card + s.futures.card + gs.length + n
  omega

theorem takeClone (h : Counts initial s) {c : ℕ} (hn : s.takeClone c = some s') :
    Counts initial { s' with strong := s.strong - 1 } ∧ 1 ≤ s.strong ∧ s'.strong = s.strong ∧
      s'.sys = s.sys ∧ s'.ops = s.ops := by
  obtain ⟨n, hloc, hs⟩ := h.strong
  simp only [Counted.takeClone] at hn
  split_ifs at hn with hc
  obtain rfl := Option.some.inj hn
  have hpos : 1 ≤ s.clones.card := Finset.card_pos.mpr ⟨c, hc.1⟩
  have hcard : (s.clones.erase c).card = s.clones.card - 1 := Finset.card_erase_of_mem hc.1
  refine ⟨{ h with strong := ⟨n, hloc, ?_⟩, borrows := ?_, fresh := ?_ }, by omega, rfl, rfl, rfl⟩
  · change s.strong - 1 = (s.clones.erase c).card + s.futures.card + s.guards.length + n
    omega
  · exact h.borrows.erase hc.2
  · exact fun d hd => h.fresh d (Finset.mem_of_mem_erase hd)

theorem clone (h : Counts initial s) {c : ℕ} (hn : s.next (.clone c) = some s') :
    Counts initial s' := by
  obtain ⟨n, hloc, hs⟩ := h.strong
  simp only [Counted.next] at hn
  split_ifs at hn with hc
  obtain rfl := Option.some.inj hn
  have hnot : s.nextClone ∉ s.clones := fun hm => lt_irrefl _ (h.fresh _ hm)
  refine { h with strong := ⟨n, hloc, ?_⟩, borrows := ?_, fresh := ?_ }
  · change s.strong + 1 =
      (insert s.nextClone s.clones).card + s.futures.card + s.guards.length + n
    rw [Finset.card_insert_of_notMem hnot]
    omega
  · exact h.borrows.mono fun d hd => Finset.mem_insert_of_mem hd
  · intro d hd
    change d < s.nextClone + 1
    rcases Finset.mem_insert.mp hd with rfl | hd
    · exact Nat.lt_succ_self _
    · exact Nat.lt_succ_of_lt (h.fresh d hd)

theorem onClone (h : Ok initial s) {c : ℕ} {call : Call} (hn : s.onClone t c op call = some s')
    (hop : op.clone = some c) (hpoll : op.polling = none) (howns : op.owns = false)
    (hcalls : op.Calls) (hc : ∀ a, call ≠ .dropFuture a) : Ok initial s' ∧ 1 ≤ s'.strong := by
  obtain ⟨n, hloc, hs⟩ := h.strong
  simp only [Counted.onClone] at hn
  split_ifs at hn with hidle
  have hpos : 1 ≤ s.clones.card := Finset.card_pos.mpr ⟨c, hidle.2⟩
  have hself : ((s.borrow t c).goto t op).ops t = op := update_self ..
  have hother : ∀ u, u ≠ t → (((s.borrow t c).goto t op).ops u).Frames (s.sys.frames u) := by
    intro u hu
    have hsame : ((s.borrow t c).goto t op).ops u = s.ops u := update_of_ne hu _ _
    rw [hsame]
    exact h.frames u
  have hnot : ∀ a, ((s.borrow t c).goto t op).ops t ≠ .dropInner a := by
    intro a ha
    rw [hself] at ha
    rw [ha] at hop
    cases hop
  obtain ⟨hok, -, -, -, -, hstrong⟩ := inner_call (h.borrow hidle.1 hidle.2 hop hpoll howns) hother
    (by rw [hself]; exact hcalls) hnot hc hn
  have hsame : s'.strong = s.strong := hstrong
  exact ⟨hok, by omega⟩

/-- A thread that is busy but not in the destructor of a future has a reference. -/
theorem holds (h : Counts initial s) (hidle : s.ops t ≠ .idle)
    (hdrop : ∀ a, s.ops t ≠ .dropInner a) : 1 ≤ s.strong := by
  obtain ⟨n, hloc, hs⟩ := h.strong
  have hclone (c : ℕ) (hc : (s.ops t).clone = some c) : 1 ≤ s.clones.card :=
    Finset.card_pos.mpr ⟨c, h.borrows.borrowed t c (h.borrows.borrows t c hc)⟩
  have hpoll (a : Ptr) (ha : (s.ops t).polling = some a) : 1 ≤ s.futures.card :=
    Finset.card_pos.mpr ⟨a, h.polls.polled t a (h.polls.polls t a ha)⟩
  have hown (ho : (s.ops t).owns = true) : 1 ≤ n := hloc.pos ho
  cases hop : s.ops t with
  | idle => exact absurd hop hidle
  | dropInner a => exact absurd hop (hdrop a)
  | borrow c => have := hclone c (by rw [hop]; rfl); omega
  | tryAcquire c amount => have := hclone c (by rw [hop]; rfl); omega
  | cloneSelf c amount => have := hclone c (by rw [hop]; rfl); omega
  | poll a => have := hpoll a (by rw [hop]; rfl); omega
  | cloneArc a guard => have := hpoll a (by rw [hop]; rfl); omega
  | dropClone a => have := hown (by rw [hop]; rfl); omega
  | dropGuard => have := hown (by rw [hop]; rfl); omega
  | dropSemaphore => have := hown (by rw [hop]; rfl); omega

end Ok

def Outlived (s : Counted ι) : Prop :=
  s.strong = 0 → ∀ t, ¬ (s.sys.frames t).Lingers s.sys.mem

structure Advances (initial : ℕ) (s : Counted ι) (act : Act ι) (s' : Counted ι) : Prop where
  ok : Ok initial s'
  outlived : s.Outlived → s.Keeps act → s'.Outlived

namespace Advances

variable {act : Act ι}

theorem of_pos (h : Ok initial s') (hpos : 1 ≤ s'.strong) : Advances initial s act s' :=
  ⟨h, fun _ _ hzero => by omega⟩

/-- A reference is dropped, and the semaphore is left alone. -/
theorem of_drop (h : Ok initial s') (hact : act.drops s) (hpos : 1 ≤ s.strong)
    (hstrong : s'.strong = s.strong - 1) (hsys : s'.sys = s.sys) : Advances initial s act s' := by
  refine ⟨h, fun _ hkeeps hzero => ?_⟩
  rw [hsys]
  exact (hkeeps hact (by omega)).1

end Advances

namespace Ok

theorem dropFuture (h : Ok initial s) {a : Ptr} (hn : s.next (.dropFuture t a) = some s') :
    Advances initial s (.dropFuture t a) s' := by
  obtain ⟨n, hloc, hs⟩ := h.strong
  simp only [Counted.next] at hn
  split_ifs at hn with hidle
  obtain ⟨hop, ha, hpoller⟩ := hidle
  have hpos : 1 ≤ s.futures.card := Finset.card_pos.mpr ⟨a, ha⟩
  have hcard : (s.futures.erase a).card = s.futures.card - 1 := Finset.card_erase_of_mem ha
  have hself : (update s.ops t (.dropInner a)) t = .dropInner a := update_self ..
  have hcounts : Counts initial
      ({ s.decr with futures := s.futures.erase a }.goto t (.dropInner a)) := by
    refine { h with strong := ⟨n, ?_, ?_⟩, borrows := ?_, polls := ?_, live := ?_ }
    · exact hloc.still (by rw [hop]; rfl)
    · change s.strong - 1 = s.clones.card + (s.futures.erase a).card + s.guards.length + n
      omega
    · exact h.borrows.still (by rw [hop]; rfl)
    · exact (h.polls.erase hpoller).still (by rw [hop]; rfl)
    · exact fun x hx => h.live x (Finset.mem_of_mem_erase hx)
  have hother : ∀ u, u ≠ t → (update s.ops t (.dropInner a) u).Frames (s.sys.frames u) := by
    intro u hu
    rw [update_of_ne hu]
    exact h.frames u
  obtain ⟨hok, f, hf, hmem, hstrong, hlingers⟩ :=
    inner_dropFuture hcounts hother hself (Finset.notMem_erase a _) hn
  refine ⟨hok, fun _ hkeeps hzero u => ?_⟩
  rw [hstrong] at hzero
  have hlast : s.strong = 1 := by
    have : s.strong - 1 = 0 := hzero
    omega
  obtain ⟨hquiet, hdone⟩ := hkeeps trivial hlast
  rw [hf, hmem]
  by_cases hut : u = t
  · rw [hut, update_self]
    intro hl
    obtain ⟨hwait, hpending⟩ := hlingers hl
    exact hpending (hdone t a rfl hwait)
  · rw [update_of_ne hut]
    exact hquiet u

theorem step_advances (h : Ok initial s) (hn : s.step t b = some s') :
    Advances initial s (.step t b) s' := by
  have hok := h.step hn
  have hinner (hcalls : (s.ops t).Calls) (hn : s.inner t (.step t b) = some s') :
      Advances initial s (.step t b) s' := by
    obtain ⟨-, sys, hsys, hframes, hmem, hstrong⟩ := h.inner_step hcalls hn
    refine ⟨hok, fun hout _ hzero u => ?_⟩
    rw [hstrong] at hzero
    have hdrop : ∃ a, s.ops t = .dropInner a := by
      by_contra hnot
      rw [not_exists] at hnot
      have hpos := holds h.toCounts (fun hi => by rw [hi] at hcalls; exact hcalls) hnot
      omega
    obtain ⟨a, ha⟩ := hdrop
    have hframe := h.frames t
    rw [ha] at hframe
    obtain ⟨hself, hother⟩ := Sys.step_not_lingers h.loc hsys hframe (hout hzero t)
    rw [hframes, hmem]
    by_cases hut : u = t
    · rw [hut]
      exact hself
    · obtain ⟨f, hf⟩ := Sys.step_frames hsys
      have hu := hout hzero u
      rw [hf, update_of_ne hut]
      intro hl
      obtain ⟨x, hx⟩ := hl.dropping
      -- `u` drops another future than `t`
      have hne : x ≠ a := by
        rintro rfl
        exact hut (h.loc.user_eq (Frame.uses_of_dropping hx) (Frame.uses_of_dropping hframe))
      refine hu ?_
      generalize s.sys.frames u = g at hl hx
      cases g with
      | dropFuture y pc =>
        obtain rfl : y = x := Option.some.inj hx
        cases pc with
        | startCancel pc =>
          have hl' : (sys.mem.waker y).state.load ≠ .finished true := hl
          rw [hother y hne] at hl'
          exact hl'
        | loadCancel => trivial
        | pushCancel current => trivial
        | _ => exact hl.elim
      | release r ret pc => cases ret <;> exact hl
      | _ => exact hl.elim
  cases hop : s.ops t with
  | idle => simp [Counted.step, hop] at hn
  | cloneSelf c amount =>
    simp only [Counted.step, hop] at hn
    obtain rfl := Option.some.inj hn
    exact .of_pos hok (Nat.le_add_left 1 s.strong)
  | cloneArc a guard =>
    cases guard with
    | some amount =>
      simp only [Counted.step, hop] at hn
      obtain rfl := Option.some.inj hn
      exact .of_pos hok (Nat.le_add_left 1 s.strong)
    | none =>
      simp only [Counted.step, hop] at hn
      obtain rfl := Option.some.inj hn
      exact .of_pos hok (Nat.le_add_left 1 s.strong)
  | dropClone a =>
    have hpos := holds h.toCounts (t := t) (by simp [hop]) (by simp [hop])
    simp only [Counted.step, hop] at hn
    obtain rfl := Option.some.inj hn
    exact .of_drop hok (by simp [Act.drops, hop, ArcOp.drops]) hpos rfl rfl
  | dropSemaphore =>
    have hpos := holds h.toCounts (t := t) (by simp [hop]) (by simp [hop])
    simp only [Counted.step, hop] at hn
    obtain rfl := Option.some.inj hn
    exact .of_drop hok (by simp [Act.drops, hop, ArcOp.drops]) hpos rfl rfl
  | borrow c => exact hinner (by rw [hop]; trivial) (by simpa only [Counted.step, hop] using hn)
  | tryAcquire c amount =>
    exact hinner (by rw [hop]; trivial) (by simpa only [Counted.step, hop] using hn)
  | poll a => exact hinner (by rw [hop]; trivial) (by simpa only [Counted.step, hop] using hn)
  | dropInner a => exact hinner (by rw [hop]; trivial) (by simpa only [Counted.step, hop] using hn)
  | dropGuard => exact hinner (by rw [hop]; trivial) (by simpa only [Counted.step, hop] using hn)

theorem acquireArc (h : Ok initial s) {c : ℕ} {a : Ptr} {amount : ℕ}
    (hn : s.next (.acquireArc c a amount) = some s') :
    Advances initial s (.acquireArc c a amount) s' := by
  obtain ⟨n, hloc, hs⟩ := h.strong
  simp only [Counted.next] at hn
  split_ifs at hn
  obtain ⟨sys, hsys, rfl⟩ := Option.map_eq_some_iff.mp hn
  have hreach : Reachable initial sys := h.reachable.tail (.acquire a amount) trivial hsys
  simp only [Sys.next, Sys.acquire] at hsys
  split_ifs at hsys with ha
  obtain rfl := Option.some.inj hsys
  have hnew : a ∉ s.futures := fun hm => ha.1 (h.live a hm).1
  refine .of_pos ⟨{ h with
    reachable := hreach
    strong := ⟨n, hloc, ?_⟩
    polls := h.polls.create hnew
    live := fun x hx => ?_ }, h.frames⟩ (Nat.le_add_left 1 s.strong)
  · change s.strong + 1 = s.clones.card + (insert a s.futures).card + s.guards.length + n
    rw [Finset.card_insert_of_notMem hnew]
    omega
  · rcases Finset.mem_insert.mp hx with rfl | hx
    · refine ⟨Finset.mem_insert_self .., fun t hd => ?_⟩
      have huser := (h.loc.users t x).mp (Frame.uses_of_dropping hd)
      exact ha.1 (h.loc.user_live t x huser)
    · exact ⟨Finset.mem_insert_of_mem (h.live x hx).1, (h.live x hx).2⟩

theorem poll (h : Ok initial s) {a : Ptr} (hn : s.next (.poll t a) = some s') :
    Advances initial s (.poll t a) s' := by
  obtain ⟨n, hloc, hs⟩ := h.strong
  simp only [Counted.next] at hn
  split_ifs at hn with hidle
  obtain ⟨hop, ha, hnone⟩ := hidle
  have hpos : 1 ≤ s.futures.card := Finset.card_pos.mpr ⟨a, ha⟩
  have hself : ((s.setPoller a (some t)).goto t (.poll a)).ops t = .poll a := update_self ..
  have hother : ∀ u, u ≠ t →
      (((s.setPoller a (some t)).goto t (.poll a)).ops u).Frames (s.sys.frames u) := by
    intro u hu
    have hsame : ((s.setPoller a (some t)).goto t (.poll a)).ops u = s.ops u :=
      update_of_ne hu _ _
    rw [hsame]
    exact h.frames u
  obtain ⟨hok, -, -, -, -, hstrong⟩ := inner_call (h.toCounts.poll hop ha hnone) hother
    (by rw [hself]; trivial) (by simp [hself]) (by simp) hn
  have hsame : s'.strong = s.strong := hstrong
  exact .of_pos hok (by omega)

theorem newGuard (h : Ok initial s) {c amount : ℕ} (hn : s.next (.newGuard t c amount) = some s') :
    Advances initial s (.newGuard t c amount) s' := by
  obtain ⟨s₁, hs₁, rfl⟩ := Option.map_eq_some_iff.mp hn
  obtain ⟨hcounts, hpos, hstrong, hsys, hops⟩ := takeClone h.toCounts hs₁
  have hnew := hcounts.newGuard (t := t) amount
  have hsame : s₁.newGuard t amount =
      { s₁ with strong := s.strong - 1 }.incr.newGuard t amount := by
    have hs₁' : s₁.strong = s.strong - 1 + 1 := by omega
    simp only [Counted.newGuard, Counted.incr, ← hs₁']
  rw [← hsame] at hnew
  refine .of_pos ⟨hnew, fun u => ?_⟩ (hstrong ▸ hpos)
  change (s₁.ops u).Frames (s₁.sys.frames u)
  rw [hops, hsys]
  exact h.frames u

theorem split (h : Ok initial s) {i permits : ℕ} (hn : s.next (.split i permits) = some s') :
    Advances initial s (.split i permits) s' := by
  obtain ⟨n, hloc, hs⟩ := h.strong
  obtain ⟨guard, hi, rfl⟩ := Option.map_eq_some_iff.mp hn
  have hg := h.held guard (List.mem_of_getElem? hi)
  have hset : ∀ g : SemaphoreGuardArc Unit, g.semaphore = some () →
      ∀ g' ∈ s.guards.set i g, g'.semaphore = some () := by
    intro g hsem g' hg'
    rcases List.mem_or_eq_of_mem_set hg' with hg' | rfl
    · exact h.held g' hg'
    · exact hsem
  by_cases hp : permits ≤ guard.amount
  · rw [SemaphoreGuardArc.split_ok hp]
    refine .of_pos ⟨guards h.toCounts (fun g hmem => ?_) ?_, h.frames⟩
      (Nat.le_add_left 1 s.strong)
    · rcases List.mem_cons.mp hmem with rfl | hmem
      · exact hg
      · exact hset ⟨guard.semaphore, guard.amount - permits, guard.panicking⟩ hg g hmem
    · change s.strong + 1 + s.guards.length = s.strong + ((s.guards.set i _).length + 1)
      rw [List.length_set]
      omega
  · rw [SemaphoreGuardArc.split_underflow (Nat.lt_of_not_le hp)]
    have hpos : 1 ≤ s.guards.length := by
      obtain ⟨hlt, -⟩ := List.getElem?_eq_some_iff.mp hi
      omega
    have hstrong : 1 ≤ s.strong := by omega
    refine .of_pos ⟨guards h.toCounts (hset _ hg) ?_, h.frames⟩ hstrong
    rw [List.length_set]

theorem extend (h : Ok initial s) {i j : ℕ} (hn : s.next (.extend i j) = some s') :
    Advances initial s (.extend i j) s' := by
  obtain ⟨n, hloc, hs⟩ := h.strong
  simp only [Counted.next] at hn
  split at hn
  · next guard other hi hj =>
    split_ifs at hn with hij
    have hg := h.held guard (List.mem_of_getElem? hi)
    rw [SemaphoreGuardArc.extend_same hg (h.held other (List.mem_of_getElem? hj))] at hn
    obtain rfl := Option.some.inj hn
    obtain ⟨hlt, -⟩ := List.getElem?_eq_some_iff.mp hj
    have hstrong : 1 ≤ s.strong := by omega
    refine .of_drop ⟨guards h.toCounts (fun g hmem => ?_) ?_, h.frames⟩ trivial hstrong rfl rfl
    · rcases List.mem_or_eq_of_mem_set (List.mem_of_mem_eraseIdx hmem) with hmem | rfl
      · exact h.held g hmem
      · exact hg
    · change s.strong - 1 + s.guards.length = s.strong + ((s.guards.set i _).eraseIdx j).length
      rw [List.length_eraseIdx, List.length_set, if_pos hlt]
      omega
  · cases hn

theorem forget (h : Ok initial s) {i : ℕ} (hn : s.next (.forget i) = some s') :
    Advances initial s (.forget i) s' := by
  obtain ⟨n, hloc, hs⟩ := h.strong
  obtain ⟨guard, hi, rfl⟩ := Option.map_eq_some_iff.mp hn
  obtain ⟨hlt, -⟩ := List.getElem?_eq_some_iff.mp hi
  have hstrong : 1 ≤ s.strong := by omega
  refine .of_drop ⟨guards h.toCounts (fun g hmem => ?_) ?_, h.frames⟩ trivial hstrong rfl rfl
  · exact h.held g (List.mem_of_mem_eraseIdx hmem)
  · change s.strong - 1 + s.guards.length = s.strong + (s.guards.eraseIdx i).length
    rw [List.length_eraseIdx, if_pos hlt]
    omega

theorem dropGuard (h : Ok initial s) {i : ℕ} (hn : s.next (.dropGuard t i) = some s') :
    Advances initial s (.dropGuard t i) s' := by
  obtain ⟨n, hloc, hs⟩ := h.strong
  simp only [Counted.next] at hn
  split_ifs at hn with hop
  obtain ⟨guard, hi, hn⟩ := Option.bind_eq_some_iff.mp hn
  obtain ⟨hlt, -⟩ := List.getElem?_eq_some_iff.mp hi
  have hg := h.held guard (List.mem_of_getElem? hi)
  simp only [SemaphoreGuardArc.drop, hg] at hn
  have hself : (update s.ops t .dropGuard) t = .dropGuard := update_self ..
  have hcounts : Counts initial ({ s with guards := s.guards.eraseIdx i }.goto t .dropGuard) := by
    refine { h with strong := ⟨n + 1, ?_, ?_⟩, borrows := ?_, polls := ?_, held := ?_ }
    · exact hloc.take (by rw [hop]; rfl) rfl
    · change s.strong =
        s.clones.card + s.futures.card + (s.guards.eraseIdx i).length + (n + 1)
      rw [List.length_eraseIdx, if_pos hlt]
      omega
    · exact h.borrows.still (by rw [hop]; rfl)
    · exact h.polls.still (by rw [hop]; rfl)
    · exact fun g hmem => h.held g (List.mem_of_mem_eraseIdx hmem)
  have hother : ∀ u, u ≠ t → (update s.ops t .dropGuard u).Frames (s.sys.frames u) := by
    intro u hu
    rw [update_of_ne hu]
    exact h.frames u
  have hcalls : (update s.ops t ArcOp.dropGuard t).Calls := by
    rw [hself]
    trivial
  have hnot : ∀ a, update s.ops t .dropGuard t ≠ .dropInner a := by simp
  have hcall : ∀ d : GuardDrop, ∀ a, d.call ≠ .dropFuture a := by
    intro d a
    cases d <;> simp [GuardDrop.call]
  obtain ⟨hok, -, -, -, -, hstrong⟩ := inner_call hcounts hother hcalls hnot (hcall _) hn
  have hsame : s'.strong = s.strong := hstrong
  exact .of_pos hok (by omega)

theorem next (h : Ok initial s) {act : Act ι} (hn : s.next act = some s') :
    Advances initial s act s' := by
  cases act with
  | clone c =>
    have hcounts := clone h.toCounts hn
    simp only [Counted.next] at hn
    split_ifs at hn
    obtain rfl := Option.some.inj hn
    exact .of_pos ⟨hcounts, h.frames⟩ (Nat.le_add_left 1 s.strong)
  | dropClone c =>
    obtain ⟨s₁, hs₁, rfl⟩ := Option.map_eq_some_iff.mp hn
    obtain ⟨hcounts, hpos, hstrong, hsys, hops⟩ := takeClone h.toCounts hs₁
    rw [← hstrong] at hcounts
    refine .of_drop ⟨hcounts, ?_⟩ trivial hpos (congrArg (· - 1) hstrong) hsys
    intro t
    change (s₁.ops t).Frames (s₁.sys.frames t)
    rw [hops, hsys]
    exact h.frames t
  | release t c amount =>
    obtain ⟨hok, hpos⟩ := h.onClone hn rfl rfl rfl trivial (by simp)
    exact .of_pos hok hpos
  | poison t c =>
    obtain ⟨hok, hpos⟩ := h.onClone hn rfl rfl rfl trivial (by simp)
    exact .of_pos hok hpos
  | acquireArc c a amount => exact h.acquireArc hn
  | tryAcquireArc t c amount =>
    obtain ⟨hok, hpos⟩ := h.onClone hn rfl rfl rfl trivial (by simp)
    exact .of_pos hok hpos
  | poll t a => exact h.poll hn
  | dropFuture t a => exact h.dropFuture hn
  | newGuard t c amount => exact h.newGuard hn
  | split i permits => exact h.split hn
  | extend i j => exact h.extend hn
  | forget i => exact h.forget hn
  | dropGuard t i => exact h.dropGuard hn
  | setPanicking t panicking =>
    simp only [Counted.next] at hn
    split_ifs at hn
    obtain ⟨sys, hsys, rfl⟩ := Option.map_eq_some_iff.mp hn
    have hreach : Reachable initial sys := h.reachable.tail (.setPanicking t panicking) trivial hsys
    simp only [Sys.next] at hsys
    split_ifs at hsys
    obtain rfl := Option.some.inj hsys
    exact ⟨⟨{ h with reachable := hreach, live := h.live }, h.frames⟩, fun hout _ => hout⟩
  | step t spurious => exact h.step_advances hn

/-- Whoever accesses the semaphore has a reference, but for the destructor of an inner future. -/
theorem accesses_held (h : Ok initial s) (hop : ∀ a, s.ops t ≠ .dropInner a)
    (ha : (s.sys.frames t).Accesses s.sys.mem) : 1 ≤ s.strong := by
  refine holds h.toCounts (fun hidle => ?_) hop
  have hframe := h.frames t
  rw [hidle] at hframe
  exact Frame.not_accesses_of_idle hframe ha

theorem accesses_alive (h : Ok initial s) (hout : s.Outlived)
    (ha : (s.sys.frames t).Accesses s.sys.mem) : 1 ≤ s.strong := by
  by_cases hdrop : ∃ a, s.ops t = .dropInner a
  · obtain ⟨a, hop⟩ := hdrop
    have hframe := h.frames t
    rw [hop] at hframe
    by_contra hnot
    exact hout (by omega) t (Frame.lingers_of_accesses hframe ha)
  · exact h.accesses_held (not_exists.mp hdrop) ha

end Ok

/-- In every run, polls and destructors of guards access a semaphore that is alive. -/
theorem polls_and_guards_alive (h : Runs.Reaches Counted.next (Counted.init initial) s)
    (hop : ∀ a, s.ops t ≠ .dropInner a) (ha : (s.sys.frames t).Accesses s.sys.mem) :
    1 ≤ s.strong := by
  have hok : Ok initial s := h.invariant (fun _ _ _ ht _ hn => (ht.next hn).ok) (.init initial)
  exact hok.accesses_held hop ha

/-- In a run that keeps the last reference, the semaphore is alive whenever it is accessed, and no
step sees it after it is freed. -/
theorem semaphore_outlives_accesses
    (h : Runs.Steps Counted.next Counted.Keeps (Counted.init initial) s) (t : ι) :
    ((s.sys.frames t).Accesses s.sys.mem → 1 ≤ s.strong) ∧
      (s.strong = 0 → ∀ sem b,
        (s.sys.withSem sem).step t b = (s.sys.step t b).map (·.withSem sem)) := by
  have hinv : Ok initial s ∧ s.Outlived := by
    refine h.invariant (I := fun s => Ok initial s ∧ s.Outlived) ?_ ?_
    · rintro s act s' ⟨hok, hout⟩ hkeeps hn
      have hadv := hok.next hn
      exact ⟨hadv.ok, hadv.outlived hout hkeeps⟩
    · exact ⟨.init initial, fun hzero => absurd hzero Nat.one_ne_zero⟩
  have halive := hinv.1.accesses_alive hinv.2 (t := t)
  refine ⟨halive, fun hzero sem b => Sys.withSem_step fun ha => ?_⟩
  have := halive ha
  omega

end Counted

end

attribute [local instance] usize64

def Counted.Act.steps (t : Bool) (n : ℕ) : List (Counted.Act Bool) :=
  List.replicate n (.step t false)

/-- A future that waits is dropped after the last clone. -/
def freed : Counted Bool :=
  Runs.final Counted.next
    ([.acquireArc 0 (usize64.ptr 0) 1, .poll false (usize64.ptr 0)] ++ Counted.Act.steps false 20 ++
      [.dropClone 0, .dropFuture false (usize64.ptr 0)] ++ Counted.Act.steps false 2)
    (Counted.init 0) (by decide +kernel)

/-- Its destructor is about to read the cancellation stack of a freed semaphore. -/
theorem freed_accessed : Runs.Reaches Counted.next (Counted.init 0) freed ∧
    freed.ops false = .dropInner (usize64.ptr 0) ∧
    (freed.sys.frames false).Accesses freed.sys.mem ∧ freed.strong = 0 := by
  have hf : freed.sys.frames false = .dropFuture (usize64.ptr 0) .loadCancel := rfl
  refine ⟨Runs.reaches_final _, by decide +kernel, ?_, by decide +kernel⟩
  rw [hf]
  trivial

/-- A waiter is granted and claimed; its future and the last clone are dropped, and the destructor
of its guard, which has the last reference, owns the lock. -/
def lastGuardSchedule : List (Counted.Act Bool) :=
  [.acquireArc 0 (usize64.ptr 0) 1, .poll false (usize64.ptr 0)] ++ Counted.Act.steps false 20 ++
    [.release true 0 3] ++ Counted.Act.steps true 16 ++ [.poll false (usize64.ptr 0)] ++
    Counted.Act.steps false 3 ++ [.dropFuture true (usize64.ptr 0)] ++ Counted.Act.steps true 1 ++
    [.dropClone 0, .dropGuard false 0] ++ Counted.Act.steps false 2

def lastGuard : Counted Bool :=
  Runs.final Counted.next lastGuardSchedule (Counted.init 0) (by decide +kernel)

/-- A test that is stronger than `Counted.Keeps`: the last reference is not dropped at all. -/
def sparesLast (s : Counted Bool) (act : Counted.Act Bool) : Bool :=
  decide (s.strong ≠ 1) ||
    match act with
    | .dropClone _ => false
    | .dropFuture _ _ => false
    | .extend _ _ => false
    | .forget _ => false
    | .step t _ => !(s.ops t).drops
    | _ => true

theorem keeps_of_sparesLast {s : Counted Bool} {act : Counted.Act Bool}
    (h : sparesLast s act = true) : s.Keeps act := by
  intro hdrops hlast
  simp only [sparesLast, hlast, ne_eq, not_true_eq_false, decide_false, Bool.false_or] at h
  cases act with
  | step t spurious =>
    have hop : (s.ops t).drops = true := hdrops
    simp [hop] at h
  | dropClone c => cases h
  | dropFuture t a => cases h
  | extend i j => cases h
  | forget i => cases h
  | _ => exact hdrops.elim

theorem semaphore_outlives_accesses_lastGuard :
    lastGuard.ops false = .dropGuard ∧ lastGuard.clones = ∅ ∧ lastGuard.futures = ∅ ∧
      (lastGuard.sys.frames false).Accesses lastGuard.sys.mem ∧ 1 ≤ lastGuard.strong := by
  have hexec : Runs.exec Counted.next lastGuardSchedule (Counted.init 0) = some lastGuard :=
    Runs.exec_final _
  have hrun : Runs.Steps Counted.next (fun s act => sparesLast s act = true) (Counted.init 0)
      lastGuard := Runs.steps_of_admits hexec (by decide +kernel)
  have hf : lastGuard.sys.frames false = .release (Permits.new 3) .caller .swapCancel := rfl
  have haccess : (lastGuard.sys.frames false).Accesses lastGuard.sys.mem := by
    rw [hf]
    trivial
  have halive :=
    Counted.semaphore_outlives_accesses (hrun.mono fun _ _ => keeps_of_sparesLast) false
  exact ⟨by decide +kernel, by decide +kernel, by decide +kernel, haccess, halive.1 haccess⟩

end WeightedSemaphore
