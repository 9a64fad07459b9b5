import WeightedSemaphore.ReleaseExchanges

/-!
# The steps of `release` between two exchanges

`Frame.stepsToExchange` counts the steps that a call in `release` can take before it spends an
exchange, given that the words stay as they are: those within a turn of a loop, those up to an
exchange that fails because it is out of date, and the turns of the loop in `flip`, one for each
waiter that lies ahead.
-/

namespace WeightedSemaphore

open Function (update update_self update_of_ne)
open Links (Path)

variable [Usize] {ι : Type}

open Classical in
/-- The number of waiters on a path of `prev` edges. -/
noncomputable def Waiters.ahead (mem : Waiters ι) (x : Ptr) : ℕ :=
  if h : ∃ l, Path null mem.prev x l then h.choose.length else 0

theorem Waiters.ahead_of_path {mem : Waiters ι} {x : Ptr} {l : List Ptr}
    (h : Path null mem.prev x l) : mem.ahead x = l.length := by
  have hex : ∃ l, Path null mem.prev x l := ⟨l, h⟩
  rw [ahead, dif_pos hex, Path.unique hex.choose_spec h]

noncomputable def ReleasePc.ahead (mem : Waiters ι) : ReleasePc ι → ℕ
  | walk _ _ waiter => mem.ahead waiter
  | _ => 0

open Classical in
/-- The next exchange has yet to fail. -/
noncomputable def ReleasePc.stale (s : Sys ι) (pc : ReleasePc ι) : ℕ := if pc.Fresh s then 0 else 12

noncomputable def Frame.stepsToExchange (s : Sys ι) : Frame ι → ℕ
  | release _ _ pc => pc.rank + pc.stale s + 11 * pc.ahead s.mem
  | _ => 0

theorem ReleasePc.three_le_exchanges (pc : ReleasePc ι) : 3 ≤ pc.exchanges := by
  cases pc with
  | accept waker nextCancel pc => cases pc <;> simp [exchanges]
  | _ => simp [exchanges]

theorem Frame.Ends.exchanges_le {f : Frame ι} (h : f.Ends) : f.exchanges ≤ 2 := by
  cases f with
  | dropFuture a pc => cases pc <;> simp_all [Ends, exchanges, DropPc.exchanges]
  | _ => simp_all [Ends, exchanges]

theorem ReleasePc.stale_le {s s' : Sys ι} {pc pc' : ReleasePc ι} (h : pc.Fresh s → pc'.Fresh s') :
    pc'.stale s' ≤ pc.stale s := by
  unfold stale
  split_ifs <;> first | omega | tauto

theorem Frame.stepsToExchange_congr {s s' : Sys ι} {f : Frame ι} (hsem : s'.sem = s.sem)
    (hmem : s'.mem = s.mem) : f.stepsToExchange s' = f.stepsToExchange s := by
  cases f with
  | release r ret pc =>
    have hfresh : pc.Fresh s' ↔ pc.Fresh s := by
      unfold ReleasePc.Fresh
      rw [hsem, hmem]
    simp only [stepsToExchange, hmem]
    rw [le_antisymm (ReleasePc.stale_le hfresh.mpr) (ReleasePc.stale_le hfresh.mp)]
  | _ => rfl

variable [DecidableEq ι] {s s' : Sys ι} {t u : ι} {r r' : Permits} {ret ret' : Cont}
  {pc pc' : ReleasePc ι} {a : Protocol.State ι Ptr}

namespace Sys

/-- Each turn of the loop in `flip` leaves one waiter less. -/
theorem walk_ahead_lt {p back waiter : Ptr} (hr : Represents s a)
    (hf : s.frames t = .release r ret (.walk p back waiter))
    (hs' : s.release t r ret false (.walk p back waiter) = s')
    (hf' : s'.frames t = .release r' ret' pc') :
    pc'.ahead s'.mem < (ReleasePc.walk p back waiter : ReleasePc ι).ahead s.mem := by
  obtain ⟨rest, hpath, -, -⟩ := hr.sim.walk_ahead hr.inv hf
  have hahead : (ReleasePc.walk p back waiter : ReleasePc ι).ahead s.mem = rest.length + 1 :=
    Waiters.ahead_of_path hpath
  rw [hahead]
  cases pc' with
  | walk p' back' next =>
    subst hs'
    obtain ⟨hsame, ⟨hflip, -⟩ | ⟨w, hw, -, rfl⟩⟩ := release_walk hf'
    · cases hflip
    · cases hw
      obtain ⟨-, -, hrest⟩ := hpath
      rw [ReleasePc.ahead, Waiters.ahead_of_path (hrest.congr fun x _ => (hsame x).prev)]
      exact Nat.lt_succ_self _
  | _ => exact Nat.succ_pos _

/-- Outside of the loop in `flip`, a step that spends no exchanges does not lead there. -/
theorem KeepsWakers.ahead_eq {d : Deed} (hl : s.KeepsWakers t d s')
    (hf : s.frames t = .release r ret pc)
    (hs' : s.release t r ret false pc = s') (hf' : s'.frames t = .release r' ret' pc')
    (hpc : ∀ p back waiter, pc ≠ .walk p back waiter) : pc'.ahead s'.mem = 0 := by
  cases pc' with
  | walk p back waiter =>
    subst hs'
    obtain ⟨-, ⟨rfl, -⟩ | ⟨w, rfl, -⟩⟩ := release_walk hf'
    · have hexch := hl.exchanges
      rw [hf, hf'] at hexch
      exact absurd hexch (by simp [Frame.exchanges, ReleasePc.exchanges])
    · exact absurd rfl (hpc p back w)
  | _ => rfl

/-- Without spending exchanges, a call in `release` comes nearer to its next exchange. -/
theorem KeepsWakers.stepsToExchange_lt (hr : Represents s a) (hf : s.frames t = .release r ret pc)
    (hs' : s.release t r ret false pc = s') (hl : s.KeepsWakers t (pc.deed s (s'.frames t)) s') :
    (s'.frames t).stepsToExchange s' < (s.frames t).stepsToExchange s := by
  have hperf : s.Performs t (some (pc.deed s ((s.release t r ret false pc).frames t)))
      (s.release t r ret false pc) := performs_release hf
  have hturns := release_turns hf
  rw [hs'] at hperf hturns
  rcases hturns.stays with ⟨r', ret', pc', hf'⟩ | hend
  · have hrank := hperf.does.rank
    have hfresh := hturns.fresh
    have hretried := hturns.retried
    have hdeed := hl.deed
    rw [hf, hf'] at hfresh hretried hrank ⊢
    rw [hf'] at hdeed
    have hstale : pc'.stale s' ≤ pc.stale s := ReleasePc.stale_le hfresh
    change pc'.rank + _ ≤ pc.rank + _ at hrank
    change pc'.rank + pc'.stale s' + 11 * pc'.ahead s'.mem <
      pc.rank + pc.stale s + 11 * pc.ahead s.mem
    have hahead : pc'.ahead s'.mem ≤ pc.ahead s.mem ∧
        ((∃ u, pc.deed s (.release r' ret' pc') = .visited u) →
          pc'.ahead s'.mem < pc.ahead s.mem) := by
      by_cases hwalk : ∃ p back waiter, pc = .walk p back waiter
      · obtain ⟨p, back, waiter, rfl⟩ := hwalk
        have hlt := walk_ahead_lt hr hf hs' hf'
        exact ⟨hlt.le, fun _ => hlt⟩
      · push Not at hwalk
        rw [hl.ahead_eq hf hs' hf' hwalk]
        refine ⟨Nat.zero_le _, ?_⟩
        rintro ⟨u, hu⟩
        obtain ⟨p, back, waiter, rfl, -⟩ :=
          ReleasePc.deed_visits s (.release r' ret' pc') (by rw [hu]; rfl)
        exact absurd rfl (hwalk p back waiter)
    generalize pc.deed s (.release r' ret' pc') = d at hrank hretried hdeed hahead
    obtain ⟨hle, hlt⟩ := hahead
    rw [Option.toList_some, List.length_singleton, List.countP_singleton] at hrank
    by_cases hc : d.charged = true
    · rcases hdeed hc with rfl | ⟨v, rfl⟩
      · obtain ⟨hold, hnew⟩ := hretried rfl
        have hstale₀ : pc.stale s = 12 := if_neg hold
        have hstale₁ : pc'.stale s' = 0 := if_pos hnew
        rw [if_pos hc] at hrank
        omega
      · have hvisit := hlt ⟨v, rfl⟩
        rw [if_pos hc] at hrank
        omega
    · rw [if_neg hc] at hrank
      omega
  · have hexch := hl.exchanges
    have hle := hend.exchanges_le
    have hge := pc.three_le_exchanges
    rw [hf] at hexch
    change _ = pc.exchanges at hexch
    omega

omit [DecidableEq ι] in
theorem KeepsWakers.stepsToExchange_other {d : Deed} {f : Frame ι} (hl : s.KeepsWakers t d s')
    (hprev : ∀ r ret p back waiter, f = .release r ret (.walk p back waiter) →
      s'.mem.prev = s.mem.prev) : f.stepsToExchange s' = f.stepsToExchange s := by
  cases f with
  | release r ret pc =>
    have hfresh : pc.Fresh s' ↔ pc.Fresh s := by
      unfold ReleasePc.Fresh
      rw [hl.acquire, hl.release, hl.wakers]
    have hahead : pc.ahead s'.mem = pc.ahead s.mem := by
      cases pc with
      | walk p back waiter =>
        unfold ReleasePc.ahead Waiters.ahead
        rw [hprev r ret p back waiter rfl]
      | _ => rfl
    have hstale : pc.stale s' = pc.stale s :=
      le_antisymm (ReleasePc.stale_le hfresh.mpr) (ReleasePc.stale_le hfresh.mp)
    simp only [Frame.stepsToExchange, hstale, hahead]
  | _ => rfl

/-- Only the lock owner changes `prev` edges, and only it is in the loop in `flip`. -/
theorem Represents.walk_prev (hr : Represents s a) (hf : s.frames t = .release r ret pc)
    (hu : u ≠ t) {p back waiter : Ptr} (hw : s.frames u = .release r' ret' (.walk p back waiter)) :
    (s.release t r ret false pc).mem.prev = s.mem.prev := by
  cases hlocks : pc.locks with
  | true => exact funext fun x => (sameEdges_lock hlocks).prev
  | false =>
    refine absurd (hr.pastLock_unique ?_ ?_) hu
    · rw [hw]
      rfl
    · rw [hf, Frame.pastLock, hlocks]
      rfl

end Sys

end WeightedSemaphore
