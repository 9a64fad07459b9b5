import WeightedSemaphore.Waker

/-!
# Specifications of the waker's methods

`Kind` is a waker's state without its sequence number. For each method, `Ok` relates the program
counter to the kind the waker has now, and the specification says which kinds a step leads from and
to. None of the `unreachable!()` branches is taken from a program counter that is `Ok`.
-/

namespace WeightedSemaphore

namespace Waker

inductive Kind
  | pending
  | storing
  | finished (poisoned : Bool)
  | cancelling
  | cancelled
  deriving DecidableEq

/-- At rest: no poll is in progress and no cancellation has begun. -/
def Kind.Rest (k : Kind) : Prop := k = .pending ∨ ∃ p, k = .finished p

namespace State

def kind : State → Kind
  | pending _ => .pending
  | storing _ => .storing
  | finished p => .finished p
  | cancelling => .cancelling
  | cancelled => .cancelled

theorem kind_eq_pending {v : State} (h : v.kind = .pending) : ∃ seq, v = .pending seq := by
  cases v <;> simp [kind] at h ⊢

theorem kind_eq_storing {v : State} (h : v.kind = .storing) : ∃ seq, v = .storing seq := by
  cases v <;> simp [kind] at h ⊢

theorem kind_eq_finished {v : State} {p : Bool} (h : v.kind = .finished p) : v = .finished p := by
  cases v <;> simp_all [kind]

theorem kind_eq_cancelling {v : State} (h : v.kind = .cancelling) : v = .cancelling := by
  cases v <;> simp_all [kind]

theorem kind_eq_cancelled {v : State} (h : v.kind = .cancelled) : v = .cancelled := by
  cases v <;> simp_all [kind]

@[simp] theorem kind_canon [Usize] (v : State) : (Packable.canon v).kind = v.kind := by
  cases v <;> rfl

end State

end Waker

open Waker (State Kind)

namespace AtomicWaker

variable [Usize] {ι : Type} {w : AtomicWaker ι} {tok : ℕ} {spurious poisoned : Bool}
  {self thread : ι}

def kind (w : AtomicWaker ι) : Kind := w.state.load.kind

@[simp] theorem kind_new_state (w : AtomicWaker ι) (v : State) :
    ({ w with state := .new v } : AtomicWaker ι).kind = v.kind := by
  simp [kind]

@[simp] theorem kind_new : (new : AtomicWaker ι).kind = .pending := by
  rw [new, kind, Atomic.load_new, State.kind_canon]
  rfl

theorem kind_of_cmpxchgWeak {current val : State} {state : Atomic State}
    (h : w.state.cmpxchgWeak current val spurious = some state) :
    w.kind = current.kind ∧ state = .new val := by
  obtain ⟨ha, hb, -⟩ := Atomic.cmpxchgWeak_eq_some h
  exact ⟨by rw [kind, ha, Atomic.load_new, State.kind_canon], hb⟩

def PollPc.Ok (k : Kind) : PollPc → Prop
  | load => k.Rest
  | start current => k.Rest ∧ (current.kind = .pending ∨ current.kind = k)
  | loadData current => (k = .storing ∨ ∃ p, k = .finished p) ∧ current.kind = .storing
  | loadVtable current _ => (k = .storing ∨ ∃ p, k = .finished p) ∧ current.kind = .storing
  | storeData current _ _ => (k = .storing ∨ ∃ p, k = .finished p) ∧ current.kind = .storing
  | storeVtable current _ _ => (k = .storing ∨ ∃ p, k = .finished p) ∧ current.kind = .storing
  | publish current =>
    (k = .storing ∨ ∃ p, k = .finished p) ∧ (current.kind = .storing ∨ current.kind = k)

omit [Usize] in
theorem PollPc.ok_finished {k : Kind} {p : Bool} {pc : PollPc} (h : pc.Ok k)
    (hk : k = .pending ∨ k = .storing) : pc.Ok (.finished p) := by
  rcases hk with rfl | rfl <;> cases pc <;> simp_all [PollPc.Ok, Kind.Rest]

omit [Usize] in
theorem PollPc.not_ok_cancelling {pc : PollPc} : ¬ pc.Ok .cancelling := by
  cases pc <;> simp [PollPc.Ok, Kind.Rest]

/-- A step of `poll` only moves between `Pending` and `Storing`, and reports what is there. -/
theorem poll_spec (tok : ℕ) (spurious : Bool) {pc : PollPc} (hok : pc.Ok w.kind) :
    (w.poll tok spurious pc).waker.thread = w.thread ∧
    match (w.poll tok spurious pc).flow with
    | .goto pc' => pc'.Ok (w.poll tok spurious pc).waker.kind ∧
        ((w.poll tok spurious pc).waker.kind = w.kind ∨
          w.kind = .pending ∧ (w.poll tok spurious pc).waker.kind = .storing)
    | .ret .pending => w.kind = .storing ∧ (w.poll tok spurious pc).waker.kind = .pending
    | .ret (.ready p) => w.kind = .finished p ∧ (w.poll tok spurious pc).waker = w
    | .panic => False := by
  cases pc with
  | load => exact ⟨rfl, ⟨hok, Or.inr rfl⟩, Or.inl rfl⟩
  | start current =>
    obtain ⟨hk, hc⟩ := hok
    cases current with
    | pending seq =>
      simp only [poll]
      cases hx : w.state.cmpxchgWeak (.pending seq) (.storing seq) spurious with
      | none => exact ⟨rfl, ⟨hk, Or.inr rfl⟩, Or.inl rfl⟩
      | some state =>
        obtain ⟨hw, rfl⟩ := kind_of_cmpxchgWeak hx
        exact ⟨rfl, ⟨Or.inl (kind_new_state ..), rfl⟩, Or.inr ⟨hw, kind_new_state ..⟩⟩
    | finished p => exact ⟨rfl, (hc.resolve_left (by simp [State.kind])).symm, rfl⟩
    | storing seq =>
      have hc : Kind.storing = w.kind := hc.resolve_left (by simp [State.kind])
      simp [Kind.Rest, ← hc] at hk
    | cancelling =>
      have hc : Kind.cancelling = w.kind := hc.resolve_left (by simp [State.kind])
      simp [Kind.Rest, ← hc] at hk
    | cancelled =>
      have hc : Kind.cancelled = w.kind := hc.resolve_left (by simp [State.kind])
      simp [Kind.Rest, ← hc] at hk
  | loadData current => exact ⟨rfl, hok, Or.inl rfl⟩
  | loadVtable current oldData => exact ⟨rfl, hok, Or.inl rfl⟩
  | storeData current oldData oldVtable => exact ⟨rfl, hok, Or.inl rfl⟩
  | storeVtable current oldData oldVtable => exact ⟨rfl, ⟨hok.1, Or.inl hok.2⟩, Or.inl rfl⟩
  | publish current =>
    obtain ⟨hk, hc⟩ := hok
    cases current with
    | storing seq =>
      simp only [poll]
      cases hx : w.state.cmpxchgWeak (.storing seq) (.pending (seq + 1)) spurious with
      | none => exact ⟨rfl, ⟨hk, Or.inr rfl⟩, Or.inl rfl⟩
      | some state =>
        obtain ⟨hw, rfl⟩ := kind_of_cmpxchgWeak hx
        exact ⟨rfl, hw, kind_new_state ..⟩
    | finished p => exact ⟨rfl, (hc.resolve_left (by simp [State.kind])).symm, rfl⟩
    | pending seq =>
      have hc : Kind.pending = w.kind := hc.resolve_left (by simp [State.kind])
      simp [← hc] at hk
    | cancelling =>
      have hc : Kind.cancelling = w.kind := hc.resolve_left (by simp [State.kind])
      simp [← hc] at hk
    | cancelled =>
      have hc : Kind.cancelled = w.kind := hc.resolve_left (by simp [State.kind])
      simp [← hc] at hk

def Reachable (k : Kind) : Prop := k = .pending ∨ k = .storing ∨ k = .cancelling

def FinishPc.Ok : FinishPc → Prop
  | load => True
  | test current => AtomicWaker.Reachable current.kind
  | loadVtable current _ => current.kind = .pending
  | exchange current _ _ => current.kind = .pending

theorem finish_spec (w : AtomicWaker ι) (poisoned spurious : Bool) {pc : FinishPc} (hok : pc.Ok) :
    match (w.finish poisoned spurious pc).flow with
    | .goto (.test current) =>
        (w.finish poisoned spurious pc).waker = w ∧ current = w.state.load
    | .goto pc' => (w.finish poisoned spurious pc).waker = w ∧ pc'.Ok
    | .ret .cancelling =>
        (w.finish poisoned spurious pc).waker = w ∧ pc = .test .cancelling
    | .ret (.finished _) => (w.kind = .pending ∨ w.kind = .storing) ∧
        (w.finish poisoned spurious pc).waker = { w with state := .new (.finished poisoned) }
    | .panic => False := by
  cases pc with
  | load => exact ⟨rfl, rfl⟩
  | test current =>
    cases current with
    | pending seq => exact ⟨rfl, rfl⟩
    | storing seq =>
      simp only [finish]
      cases hx : w.state.cmpxchgWeak (.storing seq) (.finished poisoned) spurious with
      | none => exact ⟨rfl, rfl⟩
      | some state =>
        obtain ⟨hw, rfl⟩ := kind_of_cmpxchgWeak hx
        exact ⟨Or.inr hw, rfl⟩
    | cancelling => exact ⟨rfl, rfl⟩
    | finished p => simp [FinishPc.Ok, Reachable, State.kind] at hok
    | cancelled => simp [FinishPc.Ok, Reachable, State.kind] at hok
  | loadVtable current data => exact ⟨rfl, hok⟩
  | exchange current data vtable =>
    obtain ⟨seq, rfl⟩ := State.kind_eq_pending hok
    simp only [finish]
    cases hx : w.state.cmpxchgWeak (.pending seq) (.finished poisoned) spurious with
    | none => exact ⟨rfl, rfl⟩
    | some state =>
      obtain ⟨hw, rfl⟩ := kind_of_cmpxchgWeak hx
      exact ⟨Or.inl hw, rfl⟩

def StartCancelPc.Ok (w : AtomicWaker ι) (self : ι) : StartCancelPc → Prop
  | load => w.kind.Rest
  | exchange current => w.kind.Rest ∧ w.thread = some self ∧
      (current.kind = .pending ∨ current.kind = w.kind)

theorem startCancel_spec (spurious : Bool) {pc : StartCancelPc} (hok : pc.Ok w self) :
    match (w.startCancel self spurious pc).flow with
    | .goto pc' => pc'.Ok (w.startCancel self spurious pc).waker self ∧
        (w.startCancel self spurious pc).waker.kind = w.kind
    | .ret .cancelling => w.kind = .pending ∧
        (w.startCancel self spurious pc).waker.kind = .cancelling ∧
        (w.startCancel self spurious pc).waker.thread = some self
    | .ret (.finished p) =>
        w.kind = .finished p ∧ (w.startCancel self spurious pc).waker = w
    | .panic => False := by
  cases pc with
  | load => exact ⟨⟨hok, rfl, Or.inr rfl⟩, rfl⟩
  | exchange current =>
    obtain ⟨hk, ht, hc⟩ := hok
    cases current with
    | pending seq =>
      simp only [startCancel]
      cases hx : w.state.cmpxchgWeak (.pending seq) .cancelling spurious with
      | none => exact ⟨⟨hk, ht, Or.inr rfl⟩, rfl⟩
      | some state =>
        obtain ⟨hw, rfl⟩ := kind_of_cmpxchgWeak hx
        exact ⟨hw, kind_new_state .., ht⟩
    | finished p => exact ⟨(hc.resolve_left (by simp [State.kind])).symm, rfl⟩
    | storing seq =>
      have hc : Kind.storing = w.kind := hc.resolve_left (by simp [State.kind])
      simp [Kind.Rest, ← hc] at hk
    | cancelling =>
      have hc : Kind.cancelling = w.kind := hc.resolve_left (by simp [State.kind])
      simp [Kind.Rest, ← hc] at hk
    | cancelled =>
      have hc : Kind.cancelled = w.kind := hc.resolve_left (by simp [State.kind])
      simp [Kind.Rest, ← hc] at hk

theorem waitCancel_cancelling (hk : w.kind = .cancelling) :
    w.waitCancel .load = ⟨w, .goto .park, none⟩ := by
  simp [waitCancel, State.kind_eq_cancelling hk]

theorem waitCancel_cancelled (hk : w.kind = .cancelled) :
    w.waitCancel .load = ⟨w, .ret (), none⟩ := by
  simp [waitCancel, State.kind_eq_cancelled hk]

/-- The two ways on for `accept_cancel` before its exchange succeeds: retry, or accept. -/
theorem acceptCancel_spec (spurious : Bool) {pc : AcceptCancelPc ι} (hk : w.kind = .cancelling)
    (ht : w.thread = some thread) (hpc : pc = .load ∨ pc = .exchange .cancelling) :
    (w.acceptCancel spurious pc).waker = w ∧
      (w.acceptCancel spurious pc).flow = .goto (.exchange .cancelling) ∨
    (w.acceptCancel spurious pc).waker = { w with state := .new .cancelled, thread := none } ∧
      (w.acceptCancel spurious pc).flow = .goto (.unpark thread) := by
  have hload := State.kind_eq_cancelling hk
  rcases hpc with rfl | rfl
  · exact Or.inl ⟨rfl, by simp [acceptCancel, hload]⟩
  · simp only [acceptCancel, ht]
    cases hx : w.state.cmpxchgWeak .cancelling .cancelled spurious with
    | none => exact Or.inl ⟨rfl, by simp [hload]⟩
    | some state =>
      obtain ⟨-, rfl⟩ := kind_of_cmpxchgWeak hx
      exact Or.inr ⟨rfl, rfl⟩

theorem drop_spec (panicking : Bool) (hk : w.kind.Rest ∨ w.kind = .cancelled) :
    (w.drop panicking).waker = w ∧ (w.drop panicking).flow = .ret () := by
  unfold drop
  rcases hk with (hk | ⟨p, hk⟩) | hk
  · obtain ⟨seq, hs⟩ := State.kind_eq_pending hk
    simp [hs]
  · simp [State.kind_eq_finished hk]
  · simp [State.kind_eq_cancelled hk]

end AtomicWaker

end WeightedSemaphore
