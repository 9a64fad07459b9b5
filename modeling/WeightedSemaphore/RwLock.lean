import WeightedSemaphore.Whole

/-!
# A read-write lock

The lock of the documentation and of the tests. A reader acquires one permit and a writer acquires
all of them. The value is read through every guard, and written through the guard of a writer.
-/

namespace WeightedSemaphore

section

variable [Usize] {ι T : Type}

structure RwLock (ι T : Type) where
  semaphore : Sys ι
  inner : T

namespace RwLock

def new (inner : T) : RwLock ι T := ⟨.init maxAvailable, inner⟩

/-- What can happen to the lock. The futures of `read` and `write` are those of `acquire`, and their
guards own a guard of the semaphore. -/
inductive Act (ι T : Type)
  | read (a : Ptr)
  | write (a : Ptr)
  | poll (t : ι) (a : Ptr)
  | dropFuture (t : ι) (a : Ptr)
  | dropGuard (t : ι) (i : ℕ)
  /-- `DerefMut for RwLockWriteGuard`. -/
  | derefMut (i : ℕ) (f : T → T)
  | step (t : ι) (spurious : Bool)
  | setPanicking (t : ι) (panicking : Bool)

variable [DecidableEq ι]

def onSemaphore (l : RwLock ι T) (act : WeightedSemaphore.Act ι) : Option (RwLock ι T) :=
  (l.semaphore.next act).map fun s => { l with semaphore := s }

def next (l : RwLock ι T) : Act ι T → Option (RwLock ι T)
  | .read a => l.onSemaphore (.acquire a 1)
  | .write a => l.onSemaphore (.acquire a maxAvailable)
  | .poll t a => l.onSemaphore (.call t (.poll a))
  | .dropFuture t a => l.onSemaphore (.call t (.dropFuture a))
  | .dropGuard t i => l.onSemaphore (.call t (.dropGuard i))
  | .derefMut i f =>
    match l.semaphore.guards[i]? with
    | none => none
    | some guard =>
      -- only `write` makes a `RwLockWriteGuard`
      if guard.amount = maxAvailable then some { l with inner := f l.inner } else none
  | .step t spurious => l.onSemaphore (.step t spurious)
  | .setPanicking t panicking => l.onSemaphore (.setPanicking t panicking)

def Amount (n : ℕ) : Prop := n = 1 ∨ n = maxAvailable

variable {l l' : RwLock ι T} {act : Act ι T} {v : T} {x : Ptr}

theorem onSemaphore_eq_some {act : WeightedSemaphore.Act ι} (hn : l.onSemaphore act = some l') :
    l.semaphore.next act = some l'.semaphore ∧ l'.inner = l.inner := by
  obtain ⟨s, hs, rfl⟩ := Option.map_eq_some_iff.mp hn
  exact ⟨hs, rfl⟩

theorem next_cases (hn : l.next act = some l') :
    (l'.inner = l.inner ∧ ∃ act' : WeightedSemaphore.Act ι, (act'.Asks Amount ∧ act'.Closed) ∧
      l.semaphore.next act' = some l'.semaphore) ∨
    (l'.semaphore = l.semaphore ∧ ∃ g ∈ l.semaphore.guards, g.amount = maxAvailable) := by
  have key {act' : WeightedSemaphore.Act ι} (hn : l.onSemaphore act' = some l')
      (hact : act'.Asks Amount ∧ act'.Closed) :
      l'.inner = l.inner ∧ ∃ act' : WeightedSemaphore.Act ι, (act'.Asks Amount ∧ act'.Closed) ∧
        l.semaphore.next act' = some l'.semaphore := by
    obtain ⟨hs, hinner⟩ := onSemaphore_eq_some hn
    exact ⟨hinner, act', hact, hs⟩
  cases act with
  | read a => exact Or.inl (key hn ⟨Or.inl rfl, trivial⟩)
  | write a => exact Or.inl (key hn ⟨Or.inr rfl, trivial⟩)
  | derefMut i f =>
    simp only [next] at hn
    split at hn
    · cases hn
    · next g hg =>
      split_ifs at hn with hw
      obtain rfl := Option.some.inj hn
      exact Or.inr ⟨rfl, g, List.mem_of_getElem? hg, hw⟩
  | _ => exact Or.inl (key hn ⟨trivial, trivial⟩)

theorem semaphore_run {ok : RwLock ι T → Act ι T → Prop} (h : Runs.Steps next ok l l') :
    Runs.Steps Sys.next (fun _ act => act.Asks Amount ∧ act.Closed) l.semaphore l'.semaphore :=
  h.component semaphore fun _ _ _ _ hn =>
    (next_cases hn).symm.imp (fun hw => hw.1) fun hs => hs.2

theorem semaphore_spec (h : Runs.Reaches next (new v) l) :
    Reachable maxAvailable l.semaphore ∧ l.semaphore.Asks Amount ∧
      l.semaphore.ghost.hist.given = 0 ∧ l.semaphore.ghost.hist.forgotten = 0 := by
  have hrun := semaphore_run h
  exact ⟨hrun.reaches, asks_of_run (hrun.mono fun _ _ hact => hact.1),
    closed_of_run (hrun.mono fun _ _ hact => hact.2)⟩

omit [DecidableEq ι] in
theorem Amount.pos {n : ℕ} (hn : Amount n) : 0 < n := by
  have hmax := maxAvailable_eq
  have hpay := payload_ge
  rcases hn with rfl | rfl <;> omega

/-- The permits of a writer are all there are. -/
theorem writer_alone (h : Runs.Reaches next (new v) l) {g : SemaphoreGuard}
    (hg : g ∈ l.semaphore.guards) (hw : g.amount = maxAvailable) :
    l.semaphore.guards = [g] ∧ ∀ x ∈ l.semaphore.live, ¬ l.semaphore.Granted x := by
  obtain ⟨hreach, hasks, hgiven, hforgotten⟩ := semaphore_spec h
  have hle := hreach.in_use_le
  rw [hgiven, hforgotten] at hle
  have hguard : g.amount ≤ l.semaphore.guarded :=
    List.le_sum_of_mem (List.mem_map_of_mem hg)
  constructor
  · refine Sums.eq_singleton_of_sum_le (f := SemaphoreGuard.amount)
      (fun g' hg' => (hasks.guards g' hg').pos) hg ?_
    unfold Sys.guarded at hle
    omega
  · intro x hx hgranted
    have hzero : l.semaphore.granted = 0 := by omega
    have hterm := Finset.sum_eq_zero_iff.mp hzero x hx
    rw [if_pos hgranted] at hterm
    have hpos := (hasks.futures x hx).pos
    omega

/-- At any time there are readers, or there is one writer. No reader is granted its permit while a
writer has the lock, and the value does not change while some reader has it. -/
theorem readers_or_writer (h : Runs.Reaches next (new v) l) :
    (∀ g ∈ l.semaphore.guards, g.amount = maxAvailable →
      l.semaphore.guards = [g] ∧ ∀ x ∈ l.semaphore.live, ¬ l.semaphore.Granted x) ∧
    ∀ l', Runs.Steps next (fun l _ => ∃ g ∈ l.semaphore.guards, g.amount = 1) l l' →
      l'.inner = l.inner := by
  refine ⟨fun g hg hw => writer_alone h hg hw, fun l' hrun => ?_⟩
  refine (hrun.invariant (I := fun u => Runs.Reaches next (new v) u ∧ u.inner = l.inner) ?_
    ⟨h, rfl⟩).2
  rintro u act u' ⟨hu, hinner⟩ ⟨g, hg, hread⟩ hn
  refine ⟨.tail act hu trivial hn, ?_⟩
  rcases next_cases hn with ⟨hsame, -⟩ | ⟨-, g', hg', hw⟩
  · rw [hsame, hinner]
  · -- the writer would be alone
    rw [(writer_alone hu hg' hw).1, List.mem_singleton] at hg
    have hmax := maxAvailable_eq
    have hpay := payload_ge
    rw [hg] at hread
    omega

/-- At rest, the oldest call that waits is of a writer while the lock is in use, or of a reader
while a writer has the lock, or as many readers as there can be. -/
theorem waits_for_holders (h : Runs.Reaches next (new v) l) (hq : l.semaphore.Quiescent)
    (hx : l.semaphore.Waits x) :
    ∃ y, l.semaphore.Waits y ∧
      (∀ z, l.semaphore.Waits z → z ≠ y → [l.semaphore.ghost.uid y, l.semaphore.ghost.uid z].Sublist
        (History.arrivals l.semaphore.ghost.hist)) ∧
      (l.semaphore.mem.amount y = maxAvailable ∧ 0 < l.semaphore.granted + l.semaphore.guarded ∨
        l.semaphore.mem.amount y = 1 ∧
          l.semaphore.granted + l.semaphore.guarded = maxAvailable) := by
  obtain ⟨hreach, hasks, hgiven, hforgotten⟩ := semaphore_spec h
  obtain ⟨a, hr⟩ := hreach.represents
  obtain ⟨-, y, r, n, hy, hfirst, hload, hn, hlt⟩ := (hr.at_rest hq).oldest x hx
  have hspare := hreach.spare_at_rest hq hx
  rw [hload, ReleaseState.permits, Permits.count, hn, Tally.count_some, hgiven, hforgotten]
    at hspare
  refine ⟨y, hy, hfirst, ?_⟩
  rcases hasks.futures y hy.1 with hread | hwrite
  · exact Or.inr ⟨hread, by omega⟩
  · exact Or.inl ⟨hwrite, by omega⟩

/-- `RwLock::into_inner`. It owns the lock, so nobody can interfere. The error is `PoisonError`. -/
def IntoInner (l : RwLock ι T) (t : ι) (r : Except Unit T) : Prop :=
  ∃ ret, l.semaphore.Returns t (.tryAcquire 0) ret ∧
    r = if ret = .acquired then .ok l.inner else .error ()

/-- While nobody uses the lock, `try_acquire(0)` succeeds just when all permits are on offer. -/
theorem fits_zero_iff (h : Runs.Reaches next (new v) l) (hq : l.semaphore.Quiescent)
    (hgranted : l.semaphore.granted = 0) (hguarded : l.semaphore.guarded = 0) :
    l.semaphore.sem.acquire.load.Fits 0 ↔
      l.semaphore.sem.acquire.load = .available (Permits.new maxAvailable) := by
  obtain ⟨hreach, -, hgiven, hforgotten⟩ := semaphore_spec h
  constructor
  · intro hfits
    have hacq := hfits.not_poisoned
    cases hload : l.semaphore.sem.acquire.load with
    | queued back => simp [hload, AcquireState.Fits] at hfits
    | available p =>
      obtain ⟨m, hm, -⟩ : ∃ m, p.intoUsize = some m ∧ 0 ≤ m := by rwa [hload] at hfits
      have hp := hq.not_poisoned hacq (hreach.unlocked_of_available hq hload) (by simp)
      have htotal := hreach.total_at_rest hq hp hforgotten hgranted hguarded
      rw [hreach.total_of_available hq hload, Permits.count, hm, Tally.count_some, hgiven,
        Nat.add_zero] at htotal
      rw [(Permits.intoUsize_eq_some.mp hm).1, htotal, Permits.new]
  · intro hload
    rw [hload]
    exact ⟨maxAvailable, if_pos le_rfl, Nat.zero_le _⟩

/-- `into_inner` returns the value just when all permits are on offer. After a cancellation it may
report poison where there is none, and otherwise it does not. -/
theorem into_inner_iff (h : Runs.Reaches next (new v) l) (hq : l.semaphore.Quiescent)
    (hlive : l.semaphore.live = ∅) (hguards : l.semaphore.guards = []) (t : ι) :
    (∀ r, l.IntoInner t r ↔
      r = if l.semaphore.sem.acquire.load = .available (Permits.new maxAvailable) then .ok l.inner
        else .error ()) ∧
    (¬ l.semaphore.Poisoned → (∀ u, .cancelling u ∉ l.semaphore.ghost.hist) →
      l.semaphore.sem.acquire.load = .available (Permits.new maxAvailable)) := by
  have hgranted : l.semaphore.granted = 0 := by rw [Sys.granted, hlive, Finset.sum_empty]
  have hguarded : l.semaphore.guarded = 0 := by rw [Sys.guarded, hguards]; rfl
  have hfits := fits_zero_iff h hq hgranted hguarded
  constructor
  · intro r
    have hret {ret : Ret} (hr : l.semaphore.Returns t (.tryAcquire 0) ret) :
        (if ret = .acquired then .ok l.inner else .error () : Except Unit T) =
          if l.semaphore.sem.acquire.load = .available (Permits.new maxAvailable) then .ok l.inner
          else .error () :=
      if_congr ((Sys.Returns.tryAcquire hr).acquired_iff.trans hfits) rfl rfl
    constructor
    · rintro ⟨ret, hr, rfl⟩
      exact hret hr
    · rintro rfl
      obtain ⟨ret, hr⟩ := Sys.tryAcquire_returns hq t 0
      exact ⟨ret, hr, (hret hr).symm⟩
  · intro hp hcancel
    have hasks := (semaphore_run h).mono fun _ _ hact => hact.1.mono fun _ hn => hn.pos
    obtain ⟨a, hr, ho⟩ := owed_of_run hasks
    obtain ⟨p, m, hload, hm⟩ := available_of_owed hr ho hq hp hcancel (semaphore_spec h).2.2.2
      (fun x hx => by simpa [hlive] using hx.1) hgranted hguarded
    refine hfits.mp ?_
    rw [hload]
    exact ⟨m, hm, Nat.zero_le m⟩

end RwLock

end

attribute [local instance] usize64

def readLock : RwLock Bool ℕ :=
  Runs.final RwLock.next
    ([.write (usize64.ptr 0), .poll false (usize64.ptr 0)] ++
      List.replicate 2 (.step false false) ++
      [.derefMut 0 Nat.succ, .dropGuard false 0] ++ List.replicate 9 (.step false false) ++
      [.read (usize64.ptr 1), .poll true (usize64.ptr 1)] ++ List.replicate 2 (.step true false) ++
      [.write (usize64.ptr 2), .poll false (usize64.ptr 2)] ++
      List.replicate 20 (.step false false))
    (.new 0) (by decide +kernel)

theorem RwLock.readers_or_writer_readLock :
    readLock.semaphore.guarded = 1 ∧
      (∀ g ∈ readLock.semaphore.guards, g.amount = maxAvailable →
        readLock.semaphore.guards = [g] ∧
          ∀ x ∈ readLock.semaphore.live, ¬ readLock.semaphore.Granted x) ∧
      ∀ l', Runs.Steps RwLock.next (fun l _ => ∃ g ∈ l.semaphore.guards, g.amount = 1) readLock l' →
        l'.inner = readLock.inner :=
  ⟨by decide +kernel, RwLock.readers_or_writer (l := readLock) (Runs.reaches_final _)⟩

theorem RwLock.waits_for_holders_readLock :
    ∃ y, readLock.semaphore.Waits y ∧
      (∀ z, readLock.semaphore.Waits z → z ≠ y →
        [readLock.semaphore.ghost.uid y, readLock.semaphore.ghost.uid z].Sublist
          (History.arrivals readLock.semaphore.ghost.hist)) ∧
      (readLock.semaphore.mem.amount y = maxAvailable ∧
          0 < readLock.semaphore.granted + readLock.semaphore.guarded ∨
        readLock.semaphore.mem.amount y = 1 ∧
          readLock.semaphore.granted + readLock.semaphore.guarded = maxAvailable) :=
  RwLock.waits_for_holders (l := readLock) (x := usize64.ptr 2) (Runs.reaches_final _)
    (fun t => by cases t <;> rfl) ⟨by decide +kernel, by decide +kernel, Or.inl (by decide +kernel)⟩

def abandonedLock : RwLock Bool ℕ :=
  Runs.final RwLock.next
    ([.read (usize64.ptr 0), .poll true (usize64.ptr 0)] ++ List.replicate 2 (.step true false) ++
      [.dropFuture true (usize64.ptr 0), .step true false] ++
      [.write (usize64.ptr 1), .poll false (usize64.ptr 1)] ++
      List.replicate 20 (.step false false) ++
      [.dropGuard true 0, .dropFuture false (usize64.ptr 1)] ++
      List.replicate 2 (.step false false) ++ List.replicate 11 (.step true false) ++
      List.replicate 17 (.step false false))
    (.new 0) (by decide +kernel)

/-- Nobody has the lock any more, and `into_inner` fails. -/
theorem RwLock.into_inner_iff_abandonedLock :
    abandonedLock.semaphore.sem.acquire.load = .queued null ∧
      (∀ r, abandonedLock.IntoInner true r ↔
        r = if abandonedLock.semaphore.sem.acquire.load = .available (Permits.new maxAvailable)
          then .ok abandonedLock.inner else .error ()) ∧
      (¬ abandonedLock.semaphore.Poisoned →
        (∀ u, .cancelling u ∉ abandonedLock.semaphore.ghost.hist) →
        abandonedLock.semaphore.sem.acquire.load = .available (Permits.new maxAvailable)) :=
  ⟨by decide +kernel, RwLock.into_inner_iff (l := abandonedLock) (Runs.reaches_final _)
    (fun t => by cases t <;> rfl) (by decide +kernel) (by decide +kernel) true⟩

end WeightedSemaphore
