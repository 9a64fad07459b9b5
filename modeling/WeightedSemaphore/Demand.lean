import WeightedSemaphore.Limit

/-!
# What users ask for is what guards hold

The amount of a guard is one that a user has asked for. So users who agree on the amounts that they
ask for can rely on the amounts of all guards, and users who neither release nor forget put no
permits in or out.
-/

namespace WeightedSemaphore

open Function (update update_self update_of_ne)

variable [Usize] {ι : Type} [DecidableEq ι] {s s' : Sys ι} {t : ι} {spurious : Bool} {a : Ptr}

structure Sys.Serves (s : Sys ι) (t : ι) (s' : Sys ι) : Prop where
  amount : s'.mem.amount = s.mem.amount
  live : s'.live ⊆ s.live
  guards : ∃ gs, s'.guards = gs ++ s.guards ∧ ∀ g ∈ gs,
    (∃ pc, s.frames t = .tryAcquire g.amount pc) ∨
      ∃ a, (s.frames t).uses = some a ∧ g.amount = s.mem.amount a
  given : s'.ghost.hist.given = s.ghost.hist.given
  forgotten : s'.ghost.hist.forgotten = s.ghost.hist.forgotten

namespace Sys

omit [DecidableEq ι] in
theorem Serves.same (hamount : s'.mem.amount = s.mem.amount) (hlive : s'.live ⊆ s.live)
    (hguards : s'.guards = s.guards) (hgiven : s'.ghost.hist.given = s.ghost.hist.given)
    (hforgotten : s'.ghost.hist.forgotten = s.ghost.hist.forgotten) : s.Serves t s' :=
  ⟨hamount, hlive, ⟨[], hguards, by simp⟩, hgiven, hforgotten⟩

omit [DecidableEq ι] in
theorem Serves.plain (hamount : s'.mem.amount = s.mem.amount) (hlive : s'.live = s.live)
    (hguards : s'.guards = s.guards) (hgiven : s'.ghost.hist.given = s.ghost.hist.given)
    (hforgotten : s'.ghost.hist.forgotten = s.ghost.hist.forgotten) : s.Serves t s' :=
  .same hamount hlive.subset hguards hgiven hforgotten

theorem tryAcquire_serves {n : ℕ} {pc : TryAcquirePc} (hf : s.frames t = .tryAcquire n pc) :
    s.Serves t (s.tryAcquire t n spurious pc) := by
  cases pc with
  | load => exact .plain rfl rfl rfl rfl rfl
  | loop current =>
    cases current with
    | queued back => exact .plain rfl rfl rfl rfl rfl
    | available q =>
      simp only [tryAcquire]
      cases q.intoUsize with
      | none => exact .plain rfl rfl rfl rfl rfl
      | some m =>
        dsimp only
        split_ifs
        · exact .plain rfl rfl rfl rfl rfl
        · split
          · refine ⟨rfl, subset_rfl, ⟨[⟨n, s.panicking t⟩], rfl, fun g hg => ?_⟩, rfl, rfl⟩
            obtain rfl := List.mem_singleton.mp hg
            exact Or.inl ⟨_, hf⟩
          · exact .plain rfl rfl rfl rfl rfl

theorem pollEnter_serves {pc : EnterPc} (hf : s.frames t = .pollEnter a pc) :
    s.Serves t (s.pollEnter t a spurious pc) := by
  cases pc with
  | load => exact .plain rfl rfl rfl rfl rfl
  | loop current =>
    cases current with
    | queued back => exact .plain rfl rfl rfl rfl rfl
    | available q =>
      simp only [pollEnter]
      cases q.intoUsize with
      | none => exact .plain rfl rfl rfl rfl rfl
      | some m =>
        dsimp only
        split_ifs
        · split
          · refine ⟨rfl, subset_rfl, ⟨[⟨s.mem.amount a, s.panicking t⟩], rfl, fun g hg => ?_⟩,
              rfl, rfl⟩
            obtain rfl := List.mem_singleton.mp hg
            exact Or.inr ⟨a, by rw [hf]; rfl, rfl⟩
          · exact .plain rfl rfl rfl rfl rfl
        · exact .plain rfl rfl rfl rfl rfl
  | poll current available back tok pc =>
    simp only [pollEnter]
    split <;> exact .plain rfl rfl rfl rfl rfl
  | push current available back =>
    simp only [pollEnter]
    split <;> exact .plain rfl rfl rfl rfl rfl

theorem pollWaiting_serves {tok : ℕ} {pc : AtomicWaker.PollPc}
    (hf : s.frames t = .pollWaiting a tok pc) :
    s.Serves t (s.pollWaiting t a tok spurious pc) := by
  simp only [pollWaiting]
  split
  · exact .plain rfl rfl rfl rfl rfl
  · exact .plain rfl rfl rfl rfl rfl
  · exact .plain rfl rfl rfl rfl rfl
  · refine ⟨rfl, subset_rfl, ⟨[⟨s.mem.amount a, s.panicking t⟩], rfl, fun g hg => ?_⟩, rfl, rfl⟩
    obtain rfl := List.mem_singleton.mp hg
    exact Or.inr ⟨a, by rw [hf]; rfl, rfl⟩
  · exact .plain rfl rfl rfl rfl rfl

theorem release_serves (s : Sys ι) (t : ι) (r : Permits) (ret : Cont) (spurious : Bool)
    (pc : ReleasePc ι) : s.Serves t (s.release t r ret spurious pc) := by
  cases pc with
  | lock current =>
    simp only [release, lockOrElseDefer]
    cases current <;> dsimp only <;> split <;>
      first | exact .plain rfl rfl rfl rfl rfl | (cases ret <;> exact .plain rfl rfl rfl rfl rfl)
  | flip nextCancel current =>
    simp only [release, flip]
    cases current with
    | available q =>
      dsimp only
      split
      · split_ifs <;> exact .plain rfl rfl rfl rfl rfl
      · exact .plain rfl rfl rfl rfl rfl
    | queued back =>
      dsimp only
      split_ifs
      · split <;> exact .plain rfl rfl rfl rfl rfl
      · exact .plain rfl rfl rfl rfl rfl
      · split <;> exact .plain rfl rfl rfl rfl rfl
  | walk nextCancel back waiter =>
    simp only [release, walk]
    split_ifs <;> exact .plain rfl rfl rfl rfl rfl
  | cancel nextCancel =>
    simp only [release, cancel]
    split_ifs <;> exact .plain rfl rfl rfl rfl rfl
  | accept waker nextCancel pc =>
    simp only [release, accept]
    split <;> exact .plain rfl rfl rfl rfl rfl
  | tryPop =>
    simp only [release, tryPop]
    split_ifs
    · exact .plain rfl rfl rfl rfl rfl
    · split
      · split_ifs <;> exact .plain rfl rfl rfl rfl rfl
      · exact .plain rfl rfl rfl rfl rfl
  | finish pop pc =>
    simp only [release, finish]
    split <;> exact .plain rfl rfl rfl rfl rfl
  | unlock current =>
    simp only [release, tryUnlock]
    cases current with
    | unlocked q => exact .plain rfl rfl rfl rfl rfl
    | locked =>
      dsimp only
      split
      · cases ret <;> exact .plain rfl rfl rfl rfl rfl
      · exact .plain rfl rfl rfl rfl rfl
    | lockedDirty q => dsimp only; split <;> exact .plain rfl rfl rfl rfl rfl
  | _ => exact .plain rfl rfl rfl rfl rfl

theorem dropFuture_serves {pc : DropPc} (hn : s.dropFuture t a spurious pc = some s') :
    s.Serves t s' := by
  cases pc with
  | startCancel pc =>
    simp only [dropFuture] at hn
    split at hn <;> obtain rfl := Option.some.inj hn <;> exact .plain rfl rfl rfl rfl rfl
  | loadCancel =>
    obtain rfl := Option.some.inj hn
    exact .plain rfl rfl rfl rfl rfl
  | pushCancel current =>
    simp only [dropFuture] at hn
    split at hn <;> obtain rfl := Option.some.inj hn <;> exact .plain rfl rfl rfl rfl rfl
  | waitCancel pc =>
    cases pc with
    | load =>
      simp only [dropFuture] at hn
      split at hn <;> obtain rfl := Option.some.inj hn <;> exact .plain rfl rfl rfl rfl rfl
    | park =>
      simp only [dropFuture] at hn
      split_ifs at hn
      obtain rfl := Option.some.inj hn
      exact .plain rfl rfl rfl rfl rfl
  | waker =>
    simp only [dropFuture] at hn
    split at hn <;> obtain rfl := Option.some.inj hn
    · exact .plain rfl rfl rfl rfl rfl
    · exact .same rfl (Finset.erase_subset _ _) rfl rfl rfl

theorem step_serves (hn : s.step t spurious = some s') : s.Serves t s' := by
  unfold step at hn
  cases hf : s.frames t with
  | idle r => simp [hf] at hn
  | panicked => simp [hf] at hn
  | tryAcquire n pc =>
    rw [hf] at hn
    obtain rfl := Option.some.inj hn
    exact tryAcquire_serves hf
  | pollEnter a pc =>
    rw [hf] at hn
    obtain rfl := Option.some.inj hn
    exact pollEnter_serves hf
  | pollWaiting a tok pc =>
    rw [hf] at hn
    obtain rfl := Option.some.inj hn
    exact pollWaiting_serves hf
  | release r ret pc =>
    rw [hf] at hn
    obtain rfl := Option.some.inj hn
    exact release_serves s t r ret spurious pc
  | dropFuture a pc =>
    rw [hf] at hn
    exact dropFuture_serves hn

/-- A call of `try_acquire` keeps its amount, and no other call turns into one. -/
theorem step_tryAcquire {n : ℕ} {pc : TryAcquirePc} (hn : s.step t spurious = some s')
    (hf' : s'.frames t = .tryAcquire n pc) : ∃ pc', s.frames t = .tryAcquire n pc' := by
  unfold step at hn
  cases hf : s.frames t with
  | idle r => simp [hf] at hn
  | panicked => simp [hf] at hn
  | tryAcquire m pc₀ =>
    rw [hf] at hn
    obtain rfl := Option.some.inj hn
    obtain ⟨f, hframes, hnext, -⟩ := tryAcquire_next s t m spurious pc₀
    rw [hframes, update_self] at hf'
    subst hf'
    refine ⟨pc₀, ?_⟩
    cases pc₀ <;> simp_all [TryAcquirePc.Next]
  | pollEnter x pc₀ =>
    rw [hf] at hn
    obtain rfl := Option.some.inj hn
    obtain ⟨f, hframes, hnext, -⟩ := pollEnter_next s t x spurious pc₀
    rw [hframes, update_self] at hf'
    subst hf'
    cases pc₀ <;> simp [EnterPc.Next] at hnext
  | pollWaiting x tok pc₀ =>
    rw [hf] at hn
    obtain rfl := Option.some.inj hn
    obtain ⟨f, hframes, hnext⟩ := pollWaiting_next s t x tok spurious pc₀
    rw [hframes, update_self] at hf'
    subst hf'
    simp at hnext
  | release r ret pc₀ =>
    rw [hf] at hn
    obtain rfl := Option.some.inj hn
    obtain ⟨f, hframes, hafter⟩ := release_next s t r ret spurious pc₀
    rw [hframes, update_self] at hf'
    subst hf'
    exact hafter.elim
  | dropFuture x pc₀ =>
    rw [hf] at hn
    obtain ⟨f, hframes, hdrops⟩ := dropFuture_next hn
    rw [hframes, update_self] at hf'
    subst hf'
    exact hdrops.elim

end Sys

/-- A call that begins makes no guard. -/
theorem Sys.call_amounts {c : Call} (hn : s.call t c = some s') :
    s'.mem.amount = s.mem.amount ∧ s'.live = s.live ∧ ∀ g ∈ s'.guards, g ∈ s.guards := by
  cases c with
  | poll x =>
    simp only [call] at hn
    split_ifs at hn
    split at hn <;> obtain rfl := Option.some.inj hn <;> exact ⟨rfl, rfl, fun g hg => hg⟩
  | dropFuture x =>
    simp only [call] at hn
    split_ifs at hn
    split at hn <;> obtain rfl := Option.some.inj hn <;> exact ⟨rfl, rfl, fun g hg => hg⟩
  | dropGuard i =>
    simp only [call] at hn
    split at hn
    · cases hn
    · split_ifs at hn <;> obtain rfl := Option.some.inj hn <;>
        exact ⟨rfl, rfl, fun g hg => List.mem_of_mem_eraseIdx hg⟩
  | _ =>
    obtain rfl := Option.some.inj hn
    exact ⟨rfl, rfl, fun g hg => hg⟩

def Act.Asks (P : ℕ → Prop) : Act ι → Prop
  | .acquire _ n => P n
  | .call _ (.tryAcquire n) => P n
  | _ => True

omit [DecidableEq ι] in
theorem Act.Asks.mono {P Q : ℕ → Prop} {act : Act ι} (h : act.Asks P) (hPQ : ∀ n, P n → Q n) :
    act.Asks Q := by
  cases act with
  | acquire x n => exact hPQ n h
  | call t c =>
    cases c with
    | tryAcquire n => exact hPQ n h
    | _ => trivial
  | _ => trivial

instance (P : ℕ → Prop) [DecidablePred P] : (act : Act ι) → Decidable (act.Asks P)
  | .acquire _ n => inferInstanceAs (Decidable (P n))
  | .call _ (.tryAcquire n) => inferInstanceAs (Decidable (P n))
  | .call _ (.poll _) => isTrue trivial
  | .call _ (.dropFuture _) => isTrue trivial
  | .call _ (.release _) => isTrue trivial
  | .call _ .poison => isTrue trivial
  | .call _ (.dropGuard _) => isTrue trivial
  | .step _ _ => isTrue trivial
  | .forget _ => isTrue trivial
  | .setPanicking _ _ => isTrue trivial

structure Sys.Asks (P : ℕ → Prop) (s : Sys ι) : Prop where
  futures : ∀ x ∈ s.live, P (s.mem.amount x)
  calls : ∀ t n pc, s.frames t = .tryAcquire n pc → P n
  guards : ∀ g ∈ s.guards, P g.amount

namespace Sys.Asks

variable {P : ℕ → Prop}

theorem step (h : s.Asks P) (hloc : Local s) (hn : s.step t spurious = some s') : s'.Asks P := by
  obtain ⟨f, hframes⟩ := step_frames hn
  obtain ⟨hamount, hlive, ⟨gs, hguards, hgs⟩, -, -⟩ := step_serves hn
  constructor
  case futures =>
    intro x hx
    rw [hamount]
    exact h.futures x (hlive hx)
  case calls =>
    intro u n pc hu
    by_cases hut : u = t
    · subst hut
      obtain ⟨pc', hf⟩ := step_tryAcquire hn hu
      exact h.calls u n pc' hf
    · rw [hframes, update_of_ne hut] at hu
      exact h.calls u n pc hu
  case guards =>
    intro g hg
    rw [hguards, List.mem_append] at hg
    rcases hg with hg | hg
    · rcases hgs g hg with ⟨pc, hf⟩ | ⟨x, hx, hxg⟩
      · exact h.calls t _ pc hf
      · rw [hxg]
        exact h.futures x (hloc.user_live t x ((hloc.users t x).mp hx))
    · exact h.guards g hg

theorem call {c : Call} (h : s.Asks P) (hc : Act.Asks P (.call t c)) (hn : s.call t c = some s') :
    s'.Asks P := by
  obtain ⟨hamount, hlive, hguards⟩ := call_amounts hn
  obtain ⟨f, hframes, hcall⟩ := call_next hn
  refine ⟨fun x hx => ?_, fun u n pc hu => ?_, fun g hg => h.guards g (hguards g hg)⟩
  · rw [hamount]
    exact h.futures x (hlive ▸ hx)
  · by_cases hut : u = t
    · rw [hframes, hut, update_self] at hu
      subst hu
      cases c with
      | tryAcquire m =>
        obtain ⟨rfl, -⟩ := Frame.tryAcquire.inj hcall
        exact hc
      | poll x => simp at hcall
      | dropFuture x => exact hcall.elim
      | _ => simp at hcall
    · rw [hframes, update_of_ne hut] at hu
      exact h.calls u n pc hu

theorem next {act : Act ι} (h : s.Asks P) (hloc : Local s) (hact : act.Asks P)
    (hn : s.next act = some s') : s'.Asks P := by
  cases act with
  | call t c =>
    simp only [Sys.next] at hn
    split_ifs at hn
    exact h.call hact hn
  | step t spurious => exact h.step hloc hn
  | acquire x n =>
    simp only [Sys.next, Sys.acquire] at hn
    split_ifs at hn
    obtain rfl := Option.some.inj hn
    refine ⟨fun y hy => ?_, h.calls, h.guards⟩
    change P (update s.mem.amount x n y)
    by_cases hyx : y = x
    · rw [hyx, update_self]
      exact hact
    · rw [update_of_ne hyx]
      exact h.futures y (Finset.mem_of_mem_insert_of_ne hy hyx)
  | forget i =>
    simp only [Sys.next, Sys.forget] at hn
    split at hn
    · cases hn
    · obtain rfl := Option.some.inj hn
      exact ⟨h.futures, h.calls, fun g hg => h.guards g (List.mem_of_mem_eraseIdx hg)⟩
  | setPanicking t panicking =>
    simp only [Sys.next] at hn
    split_ifs at hn
    obtain rfl := Option.some.inj hn
    exact ⟨h.futures, h.calls, h.guards⟩

omit [DecidableEq ι] in
theorem init (P : ℕ → Prop) (initial : ℕ) : (Sys.init initial : Sys ι).Asks P := by
  constructor <;> simp [Sys.init]

end Sys.Asks

/-- Users give no permits, and take none away, but by guards. -/
def Act.Closed : Act ι → Prop
  | .call _ (.release _) => False
  | .forget _ => False
  | _ => True

theorem Sys.next_closed {act : Act ι} (hact : act.Closed) (hn : s.next act = some s') :
    s'.ghost.hist.given = s.ghost.hist.given ∧
      s'.ghost.hist.forgotten = s.ghost.hist.forgotten := by
  cases act with
  | call t c =>
    simp only [next] at hn
    split_ifs at hn
    cases c with
    | poll x =>
      simp only [call] at hn
      split_ifs at hn
      split at hn <;> obtain rfl := Option.some.inj hn <;> exact ⟨rfl, rfl⟩
    | dropFuture x =>
      simp only [call] at hn
      split_ifs at hn
      split at hn <;> obtain rfl := Option.some.inj hn <;> exact ⟨rfl, rfl⟩
    | release n => exact hact.elim
    | dropGuard i =>
      simp only [call] at hn
      split at hn
      · cases hn
      · split_ifs at hn <;> obtain rfl := Option.some.inj hn <;> exact ⟨rfl, rfl⟩
    | _ =>
      obtain rfl := Option.some.inj hn
      exact ⟨rfl, rfl⟩
  | step t spurious =>
    have hserves := step_serves hn
    exact ⟨hserves.given, hserves.forgotten⟩
  | acquire x n =>
    simp only [next, acquire] at hn
    split_ifs at hn
    obtain rfl := Option.some.inj hn
    exact ⟨rfl, rfl⟩
  | forget i => exact hact.elim
  | setPanicking t panicking =>
    simp only [next] at hn
    split_ifs at hn
    obtain rfl := Option.some.inj hn
    exact ⟨rfl, rfl⟩

/-- What holds in a run whose users ask for amounts in `P` only. -/
theorem asks_of_run {P : ℕ → Prop} {initial : ℕ}
    (h : Runs.Steps Sys.next (fun _ act => act.Asks P) (Sys.init initial) s) : s.Asks P := by
  refine h.invariant_reached (I := Sys.Asks P) (fun s act s' hs hI hact hn => ?_) (.init P initial)
  obtain ⟨a, hr⟩ := Reachable.represents hs.reaches
  exact hI.next hr.sim.loc hact hn

theorem closed_of_run {initial : ℕ}
    (h : Runs.Steps Sys.next (fun _ act => act.Closed) (Sys.init initial) s) :
    s.ghost.hist.given = 0 ∧ s.ghost.hist.forgotten = 0 :=
  h.invariant (I := fun s => s.ghost.hist.given = 0 ∧ s.ghost.hist.forgotten = 0)
    (fun s act s' hI hact hn => by
      obtain ⟨hgiven, hforgotten⟩ := Sys.next_closed hact hn
      rw [hgiven, hforgotten]
      exact hI)
    ⟨rfl, rfl⟩

end WeightedSemaphore
