import WeightedSemaphore.Losses

/-!
# What `Debug` shows

`fmt` loads the two words one after the other. At rest it shows all permits that are not in use, and
it shows `Unknown` only if some release holds the lock.
-/

namespace WeightedSemaphore

section

variable [Usize] {ι : Type}

def Permits.fmt (p : Permits) : String :=
  if p.val ≤ maxAvailable then Nat.repr p.val else "poison"

namespace Semaphore

def ready (available : String) : String := "Semaphore::Ready(" ++ available ++ ")"

def blocked (available : String) : String := "Semaphore::Blocked(" ++ available ++ ")"

def unknown : String := "Semaphore::Unknown"

/-- `Debug for Semaphore`. The acquire word is loaded from `sem`, and the release word from the
later `sem'`. -/
def fmt (sem sem' : Semaphore) : String :=
  match sem.acquire.load with
  | .available available => ready available.fmt
  | .queued _ =>
    match sem'.release.load with
    | .unlocked available => blocked available.fmt
    | _ => unknown

def Shows (sem sem' : Semaphore) (available : String) : Prop :=
  sem.fmt sem' = ready available ∨ sem.fmt sem' = blocked available

end Semaphore

theorem Permits.fmt_eq_repr {p : Permits} {n : ℕ} (h : p.intoUsize = some n) :
    p.fmt = Nat.repr n := by
  obtain ⟨rfl, hle⟩ := intoUsize_eq_some.mp h
  exact if_pos hle

theorem Permits.fmt_eq_poison {p : Permits} (h : p.intoUsize = none) : p.fmt = "poison" := by
  unfold Permits.intoUsize at h
  split_ifs at h with hle
  exact if_neg hle

omit [Usize] in
theorem Semaphore.ready_ne_unknown (available : String) : ready available ≠ unknown := by
  intro h
  unfold ready unknown at h
  have hlist := congrArg String.toList h
  simp only [String.toList_append, List.append_assoc] at hlist
  simp at hlist

omit [Usize] in
theorem Semaphore.blocked_ne_unknown (available : String) : blocked available ≠ unknown := by
  intro h
  unfold blocked unknown at h
  have hlist := congrArg String.toList h
  simp only [String.toList_append, List.append_assoc] at hlist
  simp at hlist

theorem Semaphore.fmt_eq_unknown {sem sem' : Semaphore} (h : sem.fmt sem' = unknown) :
    ∀ p, sem'.release.load ≠ .unlocked p := by
  intro p hp
  unfold fmt at h
  split at h
  · exact ready_ne_unknown _ h
  · rw [hp] at h
    exact blocked_ne_unknown _ h

variable [DecidableEq ι] {s : Sys ι} {initial : ℕ}

theorem Reachable.holder (h : Reachable initial s)
    (hload : ∀ p, s.sem.release.load ≠ .unlocked p) :
    ∃ t r ret pc, s.frames t = .release r ret pc ∧ pc.locks = false := by
  obtain ⟨a, hs, hi, -⟩ := h.represents
  cases ho : a.owner with
  | none =>
    obtain ⟨p, hp⟩ := hi.lock.owner_none.mp ho
    rw [hs.words.rel] at hp
    cases hrel : s.sem.release.load with
    | unlocked q => exact absurd hrel (hload q)
    | _ => simp [hrel, ReleaseState.rel] at hp
  | some o =>
    obtain ⟨r, ret, pc, hf, hlocks, -⟩ := hs.owner_role ho
    exact ⟨o.thread, r, ret, pc, hf, hlocks⟩

/-- At rest, the other word holds neither permits nor poison. -/
theorem Reachable.shown_at_rest (h : Reachable initial s) (hq : s.Quiescent) :
    ∃ p : Permits, s.sem.Shows s.sem p.fmt ∧
      p.count = s.sem.acquire.load.permits + s.sem.release.load.permits ∧
      (s.Poisoned ↔ p.intoUsize = none) := by
  obtain ⟨a, hr⟩ := h.represents
  obtain ⟨r, hload⟩ := (hr.at_rest hq).unlocked
  cases hacq : s.sem.acquire.load with
  | available p =>
    have hzero := h.unlocked_of_available hq hacq
    refine ⟨p, Or.inl (by simp [Semaphore.fmt, hacq]), by rw [hzero]; rfl, fun hp => ?_,
      fun hp => Or.inl (by rw [hacq]; exact hp)⟩
    by_contra hn
    exact hq.not_poisoned (by rw [hacq]; exact hn) hzero (by simp) hp
  | queued p =>
    refine ⟨r, Or.inr (by simp [Semaphore.fmt, hacq, hload]), ?_, fun hp => ?_,
      fun hp => Or.inr (Or.inl ⟨r, Or.inl hload, hp⟩)⟩
    · simp [hload, AcquireState.permits, ReleaseState.permits]
    · by_contra hn
      exact hq.not_poisoned (by rw [hacq]; exact id) hload hn hp

/-- Whatever happens between its two loads, `fmt` shows `Unknown` only while a release holds the
lock. At rest it shows poison if there is any, and otherwise the permits that are neither with
guards, nor granted, nor forgotten. -/
theorem debug_shows (h : Reachable initial s) :
    (∀ s', Runs.Reaches Sys.next s s' → s.sem.fmt s'.sem = Semaphore.unknown →
      ∃ t r ret pc, s'.frames t = .release r ret pc ∧ pc.locks = false) ∧
    (s.Quiescent → (s.Poisoned → s.sem.Shows s.sem "poison") ∧
      (¬ s.Poisoned → ∃ n, s.sem.Shows s.sem (Nat.repr n) ∧
        n + s.granted + s.guarded + s.ghost.hist.forgotten = initial + s.ghost.hist.given)) := by
  refine ⟨fun s' hrun hfmt => Reachable.holder (h.trans hrun) (Semaphore.fmt_eq_unknown hfmt),
    fun hq => ?_⟩
  obtain ⟨p, hshows, hcount, hpoison⟩ := h.shown_at_rest hq
  refine ⟨fun hp => ?_, fun hp => ?_⟩
  · rwa [Permits.fmt_eq_poison (hpoison.mp hp)] at hshows
  · obtain ⟨n, hn⟩ := Option.ne_none_iff_exists'.mp (mt hpoison.mpr hp)
    have hledger := h.ledger_at_rest hq hp
    rw [← hcount, Permits.count, hn, Tally.count_some] at hledger
    rw [Permits.fmt_eq_repr hn] at hshows
    exact ⟨n, hshows, hledger⟩

end

attribute [local instance] usize64

theorem debug_shows_hungry :
    hungry.sem.fmt hungry.sem = "Semaphore::Blocked(2)" ∧
      (∀ s', Runs.Reaches Sys.next hungry s' → hungry.sem.fmt s'.sem = Semaphore.unknown →
        ∃ t r ret pc, s'.frames t = .release r ret pc ∧ pc.locks = false) ∧
      (hungry.Quiescent → (hungry.Poisoned → hungry.sem.Shows hungry.sem "poison") ∧
        (¬ hungry.Poisoned → ∃ n, hungry.sem.Shows hungry.sem (Nat.repr n) ∧
          n + hungry.granted + hungry.guarded + hungry.ghost.hist.forgotten =
            6 + hungry.ghost.hist.given)) :=
  ⟨by decide +kernel, debug_shows (s := hungry) (Runs.reaches_final _)⟩

end WeightedSemaphore
