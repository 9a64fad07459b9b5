import WeightedSemaphore.Demand

/-!
# A bounded pipe

The pipe of the tests. Of its two semaphores, `free` counts the bytes that may still be written and
`ready` those that may be read, and a buffer behind a lock holds the bytes in between. Writers
acquire from `free` and release to `ready`, readers do the reverse, and each side poisons the
semaphore that the other one waits for.
-/

namespace WeightedSemaphore

open Function (update update_self update_of_ne)
open Sums (AtMost)

section

variable [Usize] {ι α : Type}

namespace Pipe

inductive ReadPc
  | acquire (a : Ptr) (n : ℕ)
  /-- A poll of the future at `a` has begun. -/
  | polled (a : Ptr) (n : ℕ)
  | forget (n : ℕ)
  | take (n : ℕ)
  | drain (n : ℕ)
  | free (total : ℕ)

inductive WritePc (α : Type)
  | acquire (a : Ptr) (bytes : List α)
  | polled (a : Ptr) (bytes : List α)
  | forget (bytes : List α)
  | extend (bytes : List α)
  | ready (total : ℕ)

inductive Frame (α : Type)
  | idle
  /-- An assertion of the pipe failed. -/
  | panicked
  | readExact (pc : ReadPc)
  | writeAll (pc : WritePc α)

/-- Permits of `ready` that were taken for bytes that are still in the buffer. -/
def Frame.taking : Frame α → ℕ
  | readExact (.take n) => n
  | _ => 0

/-- Bytes that were read and not given back to `free`. -/
def Frame.freeing : Frame α → ℕ
  | readExact (.free total) => total
  | _ => 0

/-- Permits of `free` that were taken for bytes that are not in the buffer yet. -/
def Frame.extending : Frame α → ℕ
  | writeAll (.extend bytes) => bytes.length
  | _ => 0

/-- Bytes that were written and not announced to `ready`. -/
def Frame.announcing : Frame α → ℕ
  | writeAll (.ready total) => total
  | _ => 0

def Frame.Empty (f : Frame α) : Prop :=
  f.taking = 0 ∧ f.freeing = 0 ∧ f.extending = 0 ∧ f.announcing = 0

end Pipe

structure Pipe (ι α : Type) where
  ready : Sys ι
  free : Sys ι
  buffer : List α
  frames : ι → Pipe.Frame α
  /-- All bytes that writers put into the buffer; no step reads this or the next two fields. -/
  written : List α
  /-- All bytes that readers got out of the buffer. -/
  got : List α
  /-- How many of them were got by readers that were told of poison. -/
  drained : ℕ

namespace Pipe

def new (capacity : ℕ) : Pipe ι α where
  ready := .init 0
  free := .init capacity
  buffer := []
  frames := fun _ => .idle
  written := []
  got := []
  drained := 0

inductive Act (ι α : Type)
  /-- A task calls `read_exact`, whose future is placed at `a`. -/
  | read (t : ι) (a : Ptr) (n : ℕ)
  | write (t : ι) (a : Ptr) (bytes : List α)
  /-- The task goes on; `i` is the guard that it has just got. -/
  | run (t : ι) (i : ℕ)
  /-- The call is dropped while it waits. -/
  | cancel (t : ι)
  | stepReady (t : ι) (spurious : Bool)
  | stepFree (t : ι) (spurious : Bool)
  /-- `Drop for ReaderInner`. -/
  | dropReader (t : ι)
  /-- `Drop for WriterInner`. -/
  | dropWriter (t : ι)

variable [DecidableEq ι]

def goto (p : Pipe ι α) (t : ι) (f : Frame α) : Pipe ι α :=
  { p with frames := update p.frames t f }

def onReady (p : Pipe ι α) (t : ι) (f : Frame α) (act : WeightedSemaphore.Act ι) :
    Option (Pipe ι α) :=
  (p.ready.next act).map fun s => { p with ready := s }.goto t f

def onFree (p : Pipe ι α) (t : ι) (f : Frame α) (act : WeightedSemaphore.Act ι) :
    Option (Pipe ι α) :=
  (p.free.next act).map fun s => { p with free := s }.goto t f

def forgetGuard (s : Sys ι) (i n : ℕ) : Option (Sys ι) :=
  match s.guards[i]? with
  | none => none
  | some guard => if guard.amount = n then s.next (.forget i) else none

/-- `Reader::read_exact`. The future of `acquire` is dropped as soon as it is ready. -/
def readExact (p : Pipe ι α) (t : ι) (i : ℕ) : ReadPc → Option (Pipe ι α)
  | .acquire a n => p.onReady t (.readExact (.polled a n)) (.call t (.poll a))
  | .polled a n =>
    match p.ready.frames t with
    | .idle .pending => some (p.goto t (.readExact (.acquire a n)))
    | .idle .ready => p.onReady t (.readExact (.forget n)) (.call t (.dropFuture a))
    | .idle .readyErr => p.onReady t (.readExact (.drain n)) (.call t (.dropFuture a))
    | _ => none
  | .forget n =>
    (forgetGuard p.ready i n).map fun s => { p with ready := s }.goto t (.readExact (.take n))
  | .take n =>
    -- `assert!(buf.len() <= lock.len())`
    if n ≤ p.buffer.length then
      some ({ p with buffer := p.buffer.drop n, got := p.got ++ p.buffer.take n }.goto t
        (.readExact (.free n)))
    else some (p.goto t .panicked)
  | .drain n =>
    let length := min p.buffer.length n
    some ({ p with
      buffer := p.buffer.drop length
      got := p.got ++ p.buffer.take length
      drained := p.drained + length }.goto t (.readExact (.free length)))
  | .free total => p.onFree t .idle (.call t (.release total))

def writeAll (p : Pipe ι α) (t : ι) (i : ℕ) : WritePc α → Option (Pipe ι α)
  | .acquire a bytes => p.onFree t (.writeAll (.polled a bytes)) (.call t (.poll a))
  | .polled a bytes =>
    match p.free.frames t with
    | .idle .pending => some (p.goto t (.writeAll (.acquire a bytes)))
    | .idle .ready => p.onFree t (.writeAll (.forget bytes)) (.call t (.dropFuture a))
    | .idle .readyErr => p.onFree t .idle (.call t (.dropFuture a))
    | _ => none
  | .forget bytes =>
    (forgetGuard p.free i bytes.length).map fun s =>
      { p with free := s }.goto t (.writeAll (.extend bytes))
  | .extend bytes =>
    some ({ p with buffer := p.buffer ++ bytes, written := p.written ++ bytes }.goto t
      (.writeAll (.ready bytes.length)))
  | .ready total => p.onReady t .idle (.call t (.release total))

/-- A call that waits for a semaphore, or for the lock of the buffer, is dropped. -/
def cancel (p : Pipe ι α) (t : ι) : Frame α → Option (Pipe ι α)
  | .readExact (.acquire a _) => p.onReady t .idle (.call t (.dropFuture a))
  | .readExact (.take _) => some (p.goto t .idle)
  | .readExact (.drain _) => some (p.goto t .idle)
  | .writeAll (.acquire a _) => p.onFree t .idle (.call t (.dropFuture a))
  | .writeAll (.extend _) => some (p.goto t .idle)
  | _ => none

def rests (p : Pipe ι α) (t : ι) : Bool := (p.ready.frames t).isIdle && (p.free.frames t).isIdle

/-- `room` is what `buffer.capacity()` returns. -/
def next (room : ℕ) (p : Pipe ι α) : Act ι α → Option (Pipe ι α)
  | .read t a n =>
    match p.frames t with
    | .idle =>
      if p.rests t then
        if n < room then p.onReady t (.readExact (.acquire a n)) (.acquire a n)
        else some (p.goto t .panicked)
      else none
    | _ => none
  | .write t a bytes =>
    match p.frames t with
    | .idle =>
      if p.rests t then
        if bytes.length < room then
          p.onFree t (.writeAll (.acquire a bytes)) (.acquire a bytes.length)
        else some (p.goto t .panicked)
      else none
    | _ => none
  | .run t i =>
    if p.rests t then
      match p.frames t with
      | .readExact pc => p.readExact t i pc
      | .writeAll pc => p.writeAll t i pc
      | _ => none
    else none
  | .cancel t => if p.rests t then p.cancel t (p.frames t) else none
  | .stepReady t spurious =>
    (p.ready.next (.step t spurious)).map fun s => { p with ready := s }
  | .stepFree t spurious => (p.free.next (.step t spurious)).map fun s => { p with free := s }
  | .dropReader t => (p.free.next (.call t .poison)).map fun s => { p with free := s }
  | .dropWriter t => (p.ready.next (.call t .poison)).map fun s => { p with ready := s }

variable {p p' : Pipe ι α} {t : ι} {f : Frame α} {act : Act ι α} {capacity room : ℕ}
  {s s' : Sys ι}

structure Ok (capacity : ℕ) (p : Pipe ι α) : Prop where
  ready : Reachable 0 p.ready
  free : Reachable capacity p.free
  stream : p.got ++ p.buffer = p.written
  taking : AtMost (fun t => (p.frames t).taking) p.got.length
    (p.ready.ghost.hist.forgotten + p.drained)
  freeing : AtMost (fun t => (p.frames t).freeing) p.free.ghost.hist.given p.got.length
  extending : AtMost (fun t => (p.frames t).extending) p.written.length
    p.free.ghost.hist.forgotten
  announcing : AtMost (fun t => (p.frames t).announcing) p.ready.ghost.hist.given
    p.written.length

theorem Ok.new (capacity : ℕ) : (Pipe.new capacity : Pipe ι α).Ok capacity where
  ready := .refl
  free := .refl
  stream := rfl
  taking := .of_zero (fun _ => rfl) (Nat.zero_le _)
  freeing := .of_zero (fun _ => rfl) (Nat.zero_le _)
  extending := .of_zero (fun _ => rfl) (Nat.zero_le _)
  announcing := .of_zero (fun _ => rfl) (Nat.zero_le _)

theorem forgetGuard_spec {i n : ℕ} (hn : forgetGuard s i n = some s') :
    s.next (.forget i) = some s' ∧ s'.ghost.hist.given = s.ghost.hist.given ∧
      s'.ghost.hist.forgotten = s.ghost.hist.forgotten + n := by
  unfold forgetGuard at hn
  split at hn
  · cases hn
  · next guard hguard =>
    split_ifs at hn with hamount
    refine ⟨hn, ?_⟩
    simp only [Sys.next, Sys.forget, hguard] at hn
    obtain rfl := Option.some.inj hn
    exact ⟨rfl, congrArg _ hamount⟩

theorem release_given {n : ℕ} (hn : s.next (.call t (.release n)) = some s') :
    s'.ghost.hist.given = s.ghost.hist.given + n ∧
      s'.ghost.hist.forgotten = s.ghost.hist.forgotten := by
  simp only [Sys.next] at hn
  split_ifs at hn
  obtain rfl := Option.some.inj hn
  exact ⟨rfl, rfl⟩

theorem onReady_eq_some {a : WeightedSemaphore.Act ι} (hn : p.onReady t f a = some p') :
    ∃ s, p.ready.next a = some s ∧ p' = { p with ready := s }.goto t f := by
  obtain ⟨s, hs, rfl⟩ := Option.map_eq_some_iff.mp hn
  exact ⟨s, hs, rfl⟩

theorem onFree_eq_some {a : WeightedSemaphore.Act ι} (hn : p.onFree t f a = some p') :
    ∃ s, p.free.next a = some s ∧ p' = { p with free := s }.goto t f := by
  obtain ⟨s, hs, rfl⟩ := Option.map_eq_some_iff.mp hn
  exact ⟨s, hs, rfl⟩

namespace Ok

/-- A task goes on, and the counts change by what it carries. -/
theorem change (h : p.Ok capacity) (hready : Reachable 0 p'.ready)
    (hfree : Reachable capacity p'.free) (hstream : p'.got ++ p'.buffer = p'.written)
    (hframes : p'.frames = update p.frames t f)
    (htaking : p'.got.length + f.taking + (p.ready.ghost.hist.forgotten + p.drained) ≤
      p.got.length + (p.frames t).taking + (p'.ready.ghost.hist.forgotten + p'.drained))
    (hfreeing : p'.free.ghost.hist.given + f.freeing + p.got.length ≤
      p.free.ghost.hist.given + (p.frames t).freeing + p'.got.length)
    (hextending : p'.written.length + f.extending + p.free.ghost.hist.forgotten ≤
      p.written.length + (p.frames t).extending + p'.free.ghost.hist.forgotten)
    (hannouncing : p'.ready.ghost.hist.given + f.announcing + p.written.length ≤
      p.ready.ghost.hist.given + (p.frames t).announcing + p'.written.length) :
    p'.Ok capacity := by
  have hself : p'.frames t = f := by rw [hframes, update_self]
  have hother (u : ι) (hu : u ≠ t) : p'.frames u = p.frames u := by rw [hframes, update_of_ne hu]
  refine ⟨hready, hfree, hstream, h.taking.change (x := t) (fun u hu => ?_) ?_,
    h.freeing.change (x := t) (fun u hu => ?_) ?_, h.extending.change (x := t) (fun u hu => ?_) ?_,
    h.announcing.change (x := t) (fun u hu => ?_) ?_⟩
  all_goals first
    | rw [hother u hu]
    | rw [hself]; assumption

theorem goto (h : p.Ok capacity) (hf : f.Empty) : (p.goto t f).Ok capacity := by
  obtain ⟨h₁, h₂, h₃, h₄⟩ := hf
  refine h.change h.ready h.free h.stream rfl ?_ ?_ ?_ ?_ <;> simp only [Pipe.goto] <;> omega

theorem onReady {a : WeightedSemaphore.Act ι} (h : p.Ok capacity)
    (hn : p.onReady t f a = some p') (ha : a.Closed) (hf : f.Empty) : p'.Ok capacity := by
  obtain ⟨s, hs, rfl⟩ := onReady_eq_some hn
  obtain ⟨hgiven, hforgotten⟩ := Sys.next_closed ha hs
  obtain ⟨h₁, h₂, h₃, h₄⟩ := hf
  refine h.change (.tail a h.ready trivial hs) h.free h.stream rfl ?_ ?_ ?_ ?_ <;>
    simp only [Pipe.goto] <;> omega

theorem onFree {a : WeightedSemaphore.Act ι} (h : p.Ok capacity)
    (hn : p.onFree t f a = some p') (ha : a.Closed) (hf : f.Empty) : p'.Ok capacity := by
  obtain ⟨s, hs, rfl⟩ := onFree_eq_some hn
  obtain ⟨hgiven, hforgotten⟩ := Sys.next_closed ha hs
  obtain ⟨h₁, h₂, h₃, h₄⟩ := hf
  refine h.change h.ready (.tail a h.free trivial hs) h.stream rfl ?_ ?_ ?_ ?_ <;>
    simp only [Pipe.goto] <;> omega

/-- A reader gets the first `k` bytes, `d` of them without permits. -/
theorem pop {k d : ℕ} (h : p.Ok capacity) (hk : k ≤ p.buffer.length)
    (htaking : (p.frames t).taking + d = k) (hfreeing : (p.frames t).freeing = 0)
    (hextending : (p.frames t).extending = 0) (hannouncing : (p.frames t).announcing = 0) :
    ({ p with
      buffer := p.buffer.drop k
      got := p.got ++ p.buffer.take k
      drained := p.drained + d }.goto t (.readExact (.free k))).Ok capacity := by
  let f : Frame α := .readExact (.free k)
  obtain ⟨h₁, h₂, h₃, h₄⟩ : f.taking = 0 ∧ f.freeing = k ∧ f.extending = 0 ∧ f.announcing = 0 :=
    ⟨rfl, rfl, rfl, rfl⟩
  refine h.change (f := f) h.ready h.free ?_ rfl ?_ ?_ ?_ ?_
  · simp only [Pipe.goto, List.append_assoc, List.take_append_drop]
    exact h.stream
  all_goals
    simp only [Pipe.goto, List.length_append, List.length_take]
    omega

theorem readExact {pc : ReadPc} {i : ℕ} (h : p.Ok capacity) (hf : p.frames t = .readExact pc)
    (hn : p.readExact t i pc = some p') : p'.Ok capacity := by
  cases pc with
  | acquire a n => exact h.onReady hn trivial ⟨rfl, rfl, rfl, rfl⟩
  | polled a n =>
    simp only [Pipe.readExact] at hn
    split at hn
    · obtain rfl := Option.some.inj hn
      exact h.goto ⟨rfl, rfl, rfl, rfl⟩
    · exact h.onReady hn trivial ⟨rfl, rfl, rfl, rfl⟩
    · exact h.onReady hn trivial ⟨rfl, rfl, rfl, rfl⟩
    · cases hn
  | forget n =>
    -- the permits of the guard are for the bytes to be taken
    obtain ⟨s, hs, rfl⟩ := Option.map_eq_some_iff.mp hn
    obtain ⟨hforget, hgiven, hforgotten⟩ := forgetGuard_spec hs
    refine h.change (.tail _ h.ready trivial hforget) h.free h.stream rfl ?_ ?_ ?_ ?_ <;>
      simp only [Pipe.goto, Frame.taking, Frame.freeing, Frame.extending, Frame.announcing, hf] <;>
      omega
  | take n =>
    simp only [Pipe.readExact] at hn
    split_ifs at hn with hle <;> obtain rfl := Option.some.inj hn
    · have htaking : (p.frames t).taking = n := by rw [hf]; rfl
      exact h.pop (d := 0) hle htaking (by rw [hf]; rfl) (by rw [hf]; rfl) (by rw [hf]; rfl)
    · exact h.goto ⟨rfl, rfl, rfl, rfl⟩
  | drain n =>
    obtain rfl := Option.some.inj hn
    have htaking : (p.frames t).taking = 0 := by rw [hf]; rfl
    exact h.pop (by omega) (by omega) (by rw [hf]; rfl) (by rw [hf]; rfl) (by rw [hf]; rfl)
  | free total =>
    obtain ⟨s, hs, rfl⟩ := onFree_eq_some hn
    obtain ⟨hgiven, hforgotten⟩ := release_given hs
    refine h.change h.ready (.tail _ h.free trivial hs) h.stream rfl ?_ ?_ ?_ ?_ <;>
      simp only [Pipe.goto, Frame.taking, Frame.freeing, Frame.extending, Frame.announcing, hf] <;>
      omega

theorem writeAll {pc : WritePc α} {i : ℕ} (h : p.Ok capacity) (hf : p.frames t = .writeAll pc)
    (hn : p.writeAll t i pc = some p') : p'.Ok capacity := by
  cases pc with
  | acquire a bytes => exact h.onFree hn trivial ⟨rfl, rfl, rfl, rfl⟩
  | polled a bytes =>
    simp only [Pipe.writeAll] at hn
    split at hn
    · obtain rfl := Option.some.inj hn
      exact h.goto ⟨rfl, rfl, rfl, rfl⟩
    · exact h.onFree hn trivial ⟨rfl, rfl, rfl, rfl⟩
    · exact h.onFree hn trivial ⟨rfl, rfl, rfl, rfl⟩
    · cases hn
  | forget bytes =>
    obtain ⟨s, hs, rfl⟩ := Option.map_eq_some_iff.mp hn
    obtain ⟨hforget, hgiven, hforgotten⟩ := forgetGuard_spec hs
    refine h.change h.ready (.tail _ h.free trivial hforget) h.stream rfl ?_ ?_ ?_ ?_ <;>
      simp only [Pipe.goto, Frame.taking, Frame.freeing, Frame.extending, Frame.announcing, hf] <;>
      omega
  | extend bytes =>
    obtain rfl := Option.some.inj hn
    refine h.change h.ready h.free ?_ rfl ?_ ?_ ?_ ?_
    · simp only [Pipe.goto, ← List.append_assoc]
      rw [h.stream]
    all_goals
      simp only [Pipe.goto, Frame.taking, Frame.freeing, Frame.extending, Frame.announcing, hf,
        List.length_append]
      omega
  | ready total =>
    obtain ⟨s, hs, rfl⟩ := onReady_eq_some hn
    obtain ⟨hgiven, hforgotten⟩ := release_given hs
    refine h.change (.tail _ h.ready trivial hs) h.free h.stream rfl ?_ ?_ ?_ ?_ <;>
      simp only [Pipe.goto, Frame.taking, Frame.freeing, Frame.extending, Frame.announcing, hf] <;>
      omega

/-- A semaphore goes on by itself, or is poisoned. -/
theorem setReady {a : WeightedSemaphore.Act ι} (h : p.Ok capacity)
    (hs : p.ready.next a = some s) (ha : a.Closed) : { p with ready := s }.Ok capacity := by
  obtain ⟨hgiven, hforgotten⟩ := Sys.next_closed ha hs
  exact { h with
    ready := .tail a h.ready trivial hs
    taking := by rw [hforgotten]; exact h.taking
    announcing := by rw [hgiven]; exact h.announcing }

theorem setFree {a : WeightedSemaphore.Act ι} (h : p.Ok capacity)
    (hs : p.free.next a = some s) (ha : a.Closed) : { p with free := s }.Ok capacity := by
  obtain ⟨hgiven, hforgotten⟩ := Sys.next_closed ha hs
  exact { h with
    free := .tail a h.free trivial hs
    freeing := by rw [hgiven]; exact h.freeing
    extending := by rw [hforgotten]; exact h.extending }

theorem next (h : p.Ok capacity) (hn : p.next room act = some p') : p'.Ok capacity := by
  cases act with
  | read t a n =>
    simp only [Pipe.next] at hn
    split at hn
    · split_ifs at hn
      · exact h.onReady hn trivial ⟨rfl, rfl, rfl, rfl⟩
      · obtain rfl := Option.some.inj hn
        exact h.goto ⟨rfl, rfl, rfl, rfl⟩
    · cases hn
  | write t a bytes =>
    simp only [Pipe.next] at hn
    split at hn
    · split_ifs at hn
      · exact h.onFree hn trivial ⟨rfl, rfl, rfl, rfl⟩
      · obtain rfl := Option.some.inj hn
        exact h.goto ⟨rfl, rfl, rfl, rfl⟩
    · cases hn
  | run t i =>
    simp only [Pipe.next] at hn
    split_ifs at hn
    split at hn
    · next pc hf => exact h.readExact hf hn
    · next pc hf => exact h.writeAll hf hn
    · cases hn
  | cancel t =>
    simp only [Pipe.next] at hn
    split_ifs at hn
    unfold Pipe.cancel at hn
    split at hn
    · exact h.onReady hn trivial ⟨rfl, rfl, rfl, rfl⟩
    · obtain rfl := Option.some.inj hn
      exact h.goto ⟨rfl, rfl, rfl, rfl⟩
    · obtain rfl := Option.some.inj hn
      exact h.goto ⟨rfl, rfl, rfl, rfl⟩
    · exact h.onFree hn trivial ⟨rfl, rfl, rfl, rfl⟩
    · obtain rfl := Option.some.inj hn
      exact h.goto ⟨rfl, rfl, rfl, rfl⟩
    · cases hn
  | stepReady t spurious =>
    obtain ⟨s, hs, rfl⟩ := Option.map_eq_some_iff.mp hn
    exact h.setReady hs trivial
  | stepFree t spurious =>
    obtain ⟨s, hs, rfl⟩ := Option.map_eq_some_iff.mp hn
    exact h.setFree hs trivial
  | dropReader t =>
    obtain ⟨s, hs, rfl⟩ := Option.map_eq_some_iff.mp hn
    exact h.setFree hs trivial
  | dropWriter t =>
    obtain ⟨s, hs, rfl⟩ := Option.map_eq_some_iff.mp hn
    exact h.setReady hs trivial

end Ok

/-- Whatever its readers and writers do, cancel or drop, the pipe holds at most `capacity` bytes,
and the bytes come out in the order in which they went in. Until some reader has got bytes after it
was told of poison, the assertion of `read_exact` holds wherever it is reached. -/
theorem bounded (h : Runs.Reaches (next room) (new capacity) p) :
    p.buffer.length ≤ capacity ∧ p.got ++ p.buffer = p.written ∧
      (p.drained = 0 → ∀ t n, p.frames t = .readExact (.take n) → n ≤ p.buffer.length) := by
  have hok : p.Ok capacity := h.invariant (I := Pipe.Ok capacity) (fun _ _ _ hq _ hn => hq.next hn)
    (.new capacity)
  have hready := hok.ready.in_use_le
  have hfree := hok.free.in_use_le
  have hlength := congrArg List.length hok.stream
  rw [List.length_append] at hlength
  refine ⟨?_, hok.stream, fun hdrained t n hf => ?_⟩
  · obtain ⟨T, -, hext⟩ := hok.extending
    obtain ⟨T', -, hfreeing⟩ := hok.freeing
    omega
  · have htake := hok.taking.le t
    obtain ⟨T, -, hann⟩ := hok.announcing
    rw [hf] at htake
    simp only [Frame.taking] at htake
    omega

end Pipe

end

attribute [local instance] usize64

/-- A reader has waited for two bytes, a writer has put them in, and the reader has its permits. -/
def announced : Pipe Bool ℕ :=
  Runs.final (Pipe.next 3)
    ([.read true (usize64.ptr 0) 2, .run true 0] ++ List.replicate 20 (.stepReady true false) ++
      [.run true 0, .write false (usize64.ptr 1) [7, 8], .run false 0] ++
      List.replicate 2 (.stepFree false false) ++
      [.run false 0, .stepFree false false, .run false 0, .run false 0, .run false 0] ++
      List.replicate 16 (.stepReady false false) ++
      [.run true 0, .stepReady true false, .stepReady true false, .run true 0,
        .stepReady true false, .run true 0])
    (.new 3) (by decide +kernel)

theorem Pipe.bounded_announced :
    announced.frames true = .readExact (.take 2) ∧ announced.buffer = [7, 8] ∧
      (announced.buffer.length ≤ 3 ∧ announced.got ++ announced.buffer = announced.written ∧
        (announced.drained = 0 → ∀ t n, announced.frames t = .readExact (.take n) →
          n ≤ announced.buffer.length)) :=
  ⟨rfl, rfl, Pipe.bounded (p := announced) (Runs.reaches_final _)⟩

end WeightedSemaphore
