import WeightedSemaphore.Completion
import WeightedSemaphore.Lib.Sums

/-!
# The exchanges that calls in progress still make

`exchanges` bounds the exchanges that a call can still make with success. A step of the call either
spends some of them, or it `KeepsWords`: it fails an exchange, reads, or writes what only its thread
looks at, and the words of the semaphore stay as they are. A waiter counts the exchanges that finish
or cancel it, and a release word that is dirty those of the pass that its owner has yet to begin.
-/

namespace WeightedSemaphore

open Function (update update_self update_of_ne)
open AtomicWaker (PollPc FinishPc StartCancelPc AcceptCancelPc WaitCancelPc)
open Waker (State Kind)

def Waker.Kind.exchanges : Kind → ℕ
  | pending => 4
  | storing => 4
  | cancelling => 3
  | finished _ => 0
  | cancelled => 0

def Held.exchanges : Held → ℕ
  | dirty => 3
  | _ => 0

variable [Usize] {ι : Type}

def ReleasePc.exchanges : ReleasePc ι → ℕ
  | lockLoad => 8
  | lock _ => 8
  | swapCancel => 7
  | flipLoad _ => 6
  | flip _ _ => 6
  | accept _ _ .load => 3
  | accept _ _ (.exchange _) => 3
  | _ => 5

def DropPc.exchanges : DropPc → ℕ
  | waitCancel _ => 2
  | waker => 1
  | _ => 9

def Frame.exchanges : Frame ι → ℕ
  | idle _ => 0
  | panicked => 0
  | release _ _ pc => pc.exchanges
  | dropFuture _ pc => pc.exchanges
  | _ => 9

theorem ReleasePc.exchanges_le (pc : ReleasePc ι) : pc.exchanges ≤ 8 := by
  cases pc with
  | accept waker nextCancel pc => cases pc <;> simp [exchanges]
  | _ => simp [exchanges]

theorem Frame.Stops.exchanges_lt {f : Frame ι} (h : f.Stops) : f.exchanges < 9 := by
  cases f with
  | release r ret pc => exact Nat.lt_succ_of_le pc.exchanges_le
  | dropFuture a pc => cases pc <;> simp_all [Stops, Ends, exchanges, DropPc.exchanges]
  | _ => simp_all [Stops, Ends, exchanges]

theorem Frame.exchanges_of_not_stops {f : Frame ι} (h : ¬ f.Stops) : f.exchanges = 9 := by
  cases f with
  | dropFuture a pc => cases pc <;> simp_all [Stops, Ends, exchanges, DropPc.exchanges]
  | _ => simp_all [Stops, Ends, exchanges]

theorem Frame.Stops.left_eq {f : Frame ι} (h : f.Stops) (s : Sys ι) : f.left s = 0 := by
  cases f with
  | dropFuture a pc => cases pc <;> simp_all [Stops, Ends, left, DropPc.left]
  | _ => simp_all [Stops, Ends, left]

theorem Frame.Ends.stops {f : Frame ι} (h : f.Ends) : f.Stops := by
  cases f with
  | release r ret pc => trivial
  | _ => exact h

theorem Sys.Turns.stops {s s' : Sys ι} {t : ι} {d : Deed} (h : s.Turns t d s') :
    (s'.frames t).Stops := by
  rcases h.stays with ⟨r, ret, pc, hf⟩ | hend
  · rw [hf]
    trivial
  · exact hend.stops

namespace Sys

def wakerExchanges (s : Sys ι) : ℕ := ∑ a ∈ s.live, (s.mem.waker a).kind.exchanges

def Spends (s : Sys ι) (t : ι) (s' : Sys ι) : Prop :=
  (s'.frames t).exchanges + s'.held.exchanges + s'.wakerExchanges <
    (s.frames t).exchanges + s.held.exchanges + s.wakerExchanges

/-- The step of thread `t` changes no word of the semaphore, and no waker but the one it polls. -/
structure KeepsWords (s : Sys ι) (t : ι) (s' : Sys ι) : Prop where
  acquire : s'.sem.acquire = s.sem.acquire
  release : s'.sem.release = s.sem.release
  nextCancel : s'.sem.nextCancel = s.sem.nextCancel
  live : s'.live = s.live
  exchanges : (s'.frames t).exchanges = (s.frames t).exchanges
  waker : ∀ b, (s.frames t).uses ≠ some b → s'.mem.waker b = s.mem.waker b
  kind : ∀ b, (s'.mem.waker b).kind.exchanges = (s.mem.waker b).kind.exchanges

variable {s s' : Sys ι} {t : ι} {a : Ptr} {f f' : Frame ι}

theorem KeepsWords.held (h : s.KeepsWords t s') : s'.held = s.held := by
  unfold Sys.held
  rw [h.release]

theorem KeepsWords.wakerExchanges (h : s.KeepsWords t s') :
    s'.wakerExchanges = s.wakerExchanges := by
  unfold Sys.wakerExchanges
  rw [h.live]
  exact Finset.sum_congr rfl fun b _ => h.kind b

theorem wakerExchanges_le (hlive : s'.live ⊆ s.live)
    (hkind : ∀ b, (s'.mem.waker b).kind.exchanges ≤ (s.mem.waker b).kind.exchanges) :
    s'.wakerExchanges ≤ s.wakerExchanges := by
  calc s'.wakerExchanges
      ≤ ∑ b ∈ s'.live, (s.mem.waker b).kind.exchanges := Finset.sum_le_sum fun b _ => hkind b
    _ ≤ s.wakerExchanges := Finset.sum_le_sum_of_subset hlive

/-- The exchanges of the call itself, or of the release word, go down. -/
theorem Spends.of_frame (hf : s.frames t = f) (hf' : s'.frames t = f') (hlive : s'.live ⊆ s.live)
    (hkind : ∀ b, (s'.mem.waker b).kind.exchanges ≤ (s.mem.waker b).kind.exchanges)
    (h : f'.exchanges + s'.held.exchanges < f.exchanges + s.held.exchanges) : s.Spends t s' := by
  have hle := wakerExchanges_le hlive hkind
  unfold Spends
  rw [hf, hf']
  omega

theorem Spends.of_waker {w : AtomicWaker ι} (hf : s.frames t = f) (hf' : s'.frames t = f')
    (ha : a ∈ s.live) (hlive : s'.live = s.live) (hheld : s'.held = s.held)
    (hwaker : s'.mem.waker = update s.mem.waker a w)
    (h : f'.exchanges + w.kind.exchanges < f.exchanges + (s.mem.waker a).kind.exchanges) :
    s.Spends t s' := by
  have hchange := Sums.sum_change (f := fun b => (s'.mem.waker b).kind.exchanges)
    (g := fun b => (s.mem.waker b).kind.exchanges) ha fun b _ hb => by rw [hwaker, update_of_ne hb]
  simp only [hwaker, update_self] at hchange
  unfold Spends Sys.wakerExchanges
  rw [hf, hf', hheld, hlive, hwaker]
  omega

theorem KeepsWords.of_waker {w : AtomicWaker ι} (hf : s.frames t = f) (hf' : s'.frames t = f')
    (hacquire : s'.sem.acquire = s.sem.acquire) (hrelease : s'.sem.release = s.sem.release)
    (hnext : s'.sem.nextCancel = s.sem.nextCancel) (hlive : s'.live = s.live)
    (hexch : f'.exchanges = f.exchanges) (hwaker : s'.mem.waker = update s.mem.waker a w)
    (ha : f.uses = some a ∨ w = s.mem.waker a)
    (hkind : w.kind.exchanges = (s.mem.waker a).kind.exchanges) : s.KeepsWords t s' where
  acquire := hacquire
  release := hrelease
  nextCancel := hnext
  live := hlive
  exchanges := by rw [hf, hf', hexch]
  waker b hb := by
    rw [hwaker]
    by_cases hab : b = a
    · subst hab
      rw [hf] at hb
      rw [update_self, ha.resolve_left hb]
    · rw [update_of_ne hab]
  kind b := by
    rw [hwaker]
    by_cases hab : b = a
    · subst hab
      rw [update_self, hkind]
    · rw [update_of_ne hab]

theorem KeepsWords.of_frame (hf : s.frames t = f) (hf' : s'.frames t = f')
    (hacquire : s'.sem.acquire = s.sem.acquire) (hrelease : s'.sem.release = s.sem.release)
    (hnext : s'.sem.nextCancel = s.sem.nextCancel) (hlive : s'.live = s.live)
    (hexch : f'.exchanges = f.exchanges) (hwaker : s'.mem.waker = s.mem.waker) :
    s.KeepsWords t s' where
  acquire := hacquire
  release := hrelease
  nextCancel := hnext
  live := hlive
  exchanges := by rw [hf, hf', hexch]
  waker b _ := by rw [hwaker]
  kind b := by rw [hwaker]

/-- The call returns, or comes to its last steps. -/
theorem Spends.onward (hf : s.frames t = f) (hf' : s'.frames t = f') (hheld : s'.held = s.held)
    (hlive : s'.live ⊆ s.live) (hwaker : s'.mem.waker = s.mem.waker)
    (h : f'.exchanges < f.exchanges) : s.Spends t s' :=
  .of_frame hf hf' hlive (fun b => by rw [hwaker]) (by rw [hheld]; omega)

variable [DecidableEq ι] {spurious : Bool}

theorem tryAcquire_spends {n : ℕ} {pc : TryAcquirePc} (hf : s.frames t = .tryAcquire n pc) :
    s.Spends t (s.tryAcquire t n spurious pc) ∨ s.KeepsWords t (s.tryAcquire t n spurious pc) := by
  cases pc with
  | load => exact Or.inr (.of_frame hf (update_self ..) rfl rfl rfl rfl rfl rfl)
  | loop current =>
    cases current with
    | queued back =>
      exact Or.inl (.onward hf (update_self ..) rfl subset_rfl rfl (Nat.succ_pos _))
    | available q =>
      simp only [tryAcquire]
      cases q.intoUsize with
      | none => exact Or.inl (.onward hf (update_self ..) rfl subset_rfl rfl (Nat.succ_pos _))
      | some m =>
        dsimp only
        split_ifs
        · exact Or.inl (.onward hf (update_self ..) rfl subset_rfl rfl (Nat.succ_pos _))
        · split
          · exact Or.inl (.onward hf (update_self ..) rfl subset_rfl rfl (Nat.succ_pos _))
          · exact Or.inr (.of_frame hf (update_self ..) rfl rfl rfl rfl rfl rfl)

omit [DecidableEq ι] in
/-- A poll of a waker that does not return keeps the waiter's exchanges. -/
theorem poll_exchanges {w : AtomicWaker ι} {tok : ℕ} {pc pc' : PollPc} (hok : pc.Ok w.kind)
    (hflow : (w.poll tok spurious pc).flow = .goto pc') :
    (w.poll tok spurious pc).waker.kind.exchanges = w.kind.exchanges := by
  obtain ⟨-, hspec⟩ := w.poll_spec tok spurious hok
  rw [hflow] at hspec
  obtain ⟨-, hkind | ⟨hpending, hstoring⟩⟩ := hspec
  · rw [hkind]
  · rw [hpending, hstoring]
    rfl

theorem pollWaiting_spends {tok : ℕ} {pc : PollPc} (hf : s.frames t = .pollWaiting a tok pc)
    (hok : pc.Ok (s.mem.waker a).kind) (ha : a ∈ s.live) :
    s.Spends t (s.pollWaiting t a tok spurious pc) ∨
      s.KeepsWords t (s.pollWaiting t a tok spurious pc) := by
  obtain ⟨-, hspec⟩ := (s.mem.waker a).poll_spec tok spurious hok
  simp only [pollWaiting]
  split
  · next pc' hflow =>
    exact Or.inr (.of_waker hf (update_self ..) rfl rfl rfl rfl rfl rfl (Or.inl rfl)
      (poll_exchanges hok hflow))
  · next hflow =>
    rw [hflow] at hspec
    refine Or.inl (.of_waker hf (update_self ..) ha rfl rfl rfl ?_)
    rw [hspec.1, hspec.2]
    simp [Frame.exchanges, Kind.exchanges]
  · next hflow =>
    rw [hflow] at hspec
    refine Or.inl (.of_waker hf (update_self ..) ha rfl rfl rfl ?_)
    rw [hspec.2]
    exact Nat.add_lt_add_right (Nat.succ_pos _) _
  · next hflow =>
    rw [hflow] at hspec
    refine Or.inl (.of_waker hf (update_self ..) ha rfl rfl rfl ?_)
    rw [hspec.2]
    exact Nat.add_lt_add_right (Nat.succ_pos _) _
  · next hflow =>
    rw [hflow] at hspec
    exact hspec.elim

theorem pollEnter_spends {pc : EnterPc} (hf : s.frames t = .pollEnter a pc)
    (hok : pc.Ok (s.mem.amount a) (s.mem.waker a).kind) (ha : a ∈ s.live) :
    s.Spends t (s.pollEnter t a spurious pc) ∨ s.KeepsWords t (s.pollEnter t a spurious pc) := by
  cases pc with
  | load => exact Or.inr (.of_frame hf (update_self ..) rfl rfl rfl rfl rfl rfl)
  | loop current =>
    cases current with
    | queued back => exact Or.inr (.of_frame hf (update_self ..) rfl rfl rfl rfl rfl rfl)
    | available q =>
      simp only [pollEnter]
      cases q.intoUsize with
      | none => exact Or.inl (.onward hf (update_self ..) rfl subset_rfl rfl (Nat.succ_pos _))
      | some m =>
        dsimp only
        split_ifs
        · split
          · exact Or.inl (.onward hf (update_self ..) rfl subset_rfl rfl (Nat.succ_pos _))
          · exact Or.inr (.of_frame hf (update_self ..) rfl rfl rfl rfl rfl rfl)
        · exact Or.inr (.of_frame hf (update_self ..) rfl rfl rfl rfl rfl rfl)
  | poll current available back tok pc =>
    obtain ⟨hpc, -, -⟩ := hok
    obtain ⟨-, hspec⟩ := (s.mem.waker a).poll_spec tok spurious hpc
    simp only [pollEnter]
    split
    · next pc' hflow =>
      exact Or.inr (.of_waker hf (update_self ..) rfl rfl rfl rfl rfl rfl (Or.inl rfl)
        (poll_exchanges hpc hflow))
    · next hflow =>
      rw [hflow] at hspec
      refine Or.inr (.of_waker hf (update_self ..) rfl rfl rfl rfl rfl rfl (Or.inl rfl) ?_)
      rw [hspec.1, hspec.2]
      rfl
    · next hflow =>
      rw [hflow] at hspec
      refine Or.inl (.of_waker hf (update_self ..) ha rfl rfl rfl ?_)
      rw [hspec.2]
      exact Nat.add_lt_add_right (Nat.succ_pos _) _
    · next hflow =>
      rw [hflow] at hspec
      exact hspec.elim
  | push current available back =>
    simp only [pollEnter]
    split
    · refine Or.inl (.onward hf (update_self ..) rfl subset_rfl rfl ?_)
      simp [Frame.exchanges, ReleasePc.exchanges]
    · exact Or.inr (.of_frame hf (update_self ..) rfl rfl rfl rfl rfl rfl)

theorem dropFuture_spends {pc : DropPc} (hf : s.frames t = .dropFuture a pc)
    (hok : pc.Ok s.mem s.ghost.claimed t a) (ha : a ∈ s.live)
    (hn : s.dropFuture t a spurious pc = some s') : s.Spends t s' ∨ s.KeepsWords t s' := by
  cases pc with
  | startCancel pc =>
    obtain ⟨-, -, hpc⟩ := hok
    have hspec := AtomicWaker.startCancel_spec spurious hpc
    simp only [dropFuture] at hn
    split at hn
    · next pc' hflow =>
      obtain rfl := Option.some.inj hn
      rw [hflow] at hspec
      refine Or.inr (.of_waker hf (update_self ..) rfl rfl rfl rfl rfl rfl (Or.inl rfl) ?_)
      rw [hspec.2]
    · next hflow =>
      obtain rfl := Option.some.inj hn
      rw [hflow] at hspec
      refine Or.inl (.of_waker hf (update_self ..) ha rfl rfl rfl ?_)
      rw [hspec.1, hspec.2.1]
      simp [Frame.exchanges, DropPc.exchanges, Kind.exchanges]
    · next hflow =>
      obtain rfl := Option.some.inj hn
      rw [hflow] at hspec
      refine Or.inl (.of_waker hf (update_self ..) ha rfl rfl rfl ?_)
      rw [hspec.2]
      simp [Frame.exchanges, DropPc.exchanges]
    · next hflow =>
      obtain rfl := Option.some.inj hn
      rw [hflow] at hspec
      refine Or.inl (.of_waker hf (update_self ..) ha rfl rfl rfl ?_)
      rw [hspec.2]
      simp [Frame.exchanges, ReleasePc.exchanges, DropPc.exchanges]
    · next hflow =>
      rw [hflow] at hspec
      exact hspec.elim
  | loadCancel =>
    obtain rfl := Option.some.inj hn
    exact Or.inr (.of_frame hf (update_self ..) rfl rfl rfl rfl rfl rfl)
  | pushCancel current =>
    simp only [dropFuture] at hn
    split at hn <;> obtain rfl := Option.some.inj hn
    · refine Or.inl (.onward hf (update_self ..) rfl subset_rfl rfl ?_)
      simp [Frame.exchanges, ReleasePc.exchanges, DropPc.exchanges]
    · exact Or.inr (.of_frame hf (update_self ..) rfl rfl rfl rfl rfl rfl)
  | waitCancel pc =>
    cases pc with
    | load =>
      obtain ⟨-, hkind⟩ := hok
      simp only [dropFuture] at hn
      rcases hkind with hkind | hkind
      · rw [AtomicWaker.waitCancel_cancelling hkind] at hn
        obtain rfl := Option.some.inj hn
        exact Or.inr (.of_waker hf (update_self ..) rfl rfl rfl rfl rfl rfl (Or.inr rfl) rfl)
      · rw [AtomicWaker.waitCancel_cancelled hkind] at hn
        obtain rfl := Option.some.inj hn
        exact Or.inl (.of_waker hf (update_self ..) ha rfl rfl rfl
          (Nat.add_lt_add_right (Nat.lt_succ_self 1) _))
    | park =>
      simp only [dropFuture] at hn
      split_ifs at hn
      obtain rfl := Option.some.inj hn
      exact Or.inr (.of_frame hf (update_self ..) rfl rfl rfl rfl rfl rfl)
  | waker =>
    obtain ⟨hw, hflow⟩ := (s.mem.waker a).drop_spec (s.panicking t) hok.1
    simp only [dropFuture, hflow] at hn
    obtain rfl := Option.some.inj hn
    refine Or.inl (.of_frame hf (update_self ..) (Finset.erase_subset _ _) (fun b => ?_) ?_)
    · simp [goto, setUser, runWaker, hw]
    · exact Nat.add_lt_add_right (Nat.succ_pos _) _

end Sys

end WeightedSemaphore
