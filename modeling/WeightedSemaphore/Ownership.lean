import WeightedSemaphore.Agreement
import Mathlib.Algebra.Order.Group.Multiset

/-!
# Ownership of waker clones

Every clone of a waker that a poll makes is owned by one place at a time: by the poll, by the two
words of the `AtomicWaker`, or by the `finish` that is about to wake it. Ownership moves by copying
the pair of pointers. The pairs owned and the pairs consumed are together the clones made, so that
none is torn, lost or consumed twice.
-/

namespace WeightedSemaphore

open AtomicWaker (PollPc PollResult FinishPc FinishResult StartCancelPc WaitCancelPc AcceptCancelPc)
open Waker (State Kind)

def wakerOf (data vtable : ℕ) : Multiset (ℕ × ℕ) := if vtable = 0 then 0 else {(data, vtable)}

def lost : Option (ℕ × ℕ) → Multiset (ℕ × ℕ)
  | none => 0
  | some d => {d}

namespace AtomicWaker

variable [Usize] {ι : Type}

/-- The waker that belongs to the two words: a poll that is storing, or a `finish` that succeeded,
has taken it away. -/
def owned (w : AtomicWaker ι) : Multiset (ℕ × ℕ) :=
  match w.kind with
  | .storing => 0
  | .finished _ => 0
  | _ => wakerOf w.data w.vtable

def PollPc.old (w : AtomicWaker ι) : PollPc → Multiset (ℕ × ℕ)
  | loadData _ => wakerOf w.data w.vtable
  | loadVtable _ oldData => wakerOf oldData w.vtable
  | storeData _ oldData oldVtable => wakerOf oldData oldVtable
  | storeVtable _ oldData oldVtable => wakerOf oldData oldVtable
  | _ => 0

variable {w w' : AtomicWaker ι} {tok m : ℕ} {p : Bool}

theorem owned_pending (h : w.kind = .pending) : w.owned = wakerOf w.data w.vtable := by
  rw [owned, h]

theorem owned_storing (h : w.kind = .storing) : w.owned = 0 := by
  rw [owned, h]

theorem owned_finished (h : w.kind = .finished p) : w.owned = 0 := by
  rw [owned, h]

theorem owned_cancel (h : w.kind = .cancelling ∨ w.kind = .cancelled) :
    w.owned = wakerOf w.data w.vtable := by
  rcases h with h | h <;> rw [owned, h]

theorem owned_taken (h : w.kind = .storing ∨ ∃ p, w.kind = .finished p) : w.owned = 0 := by
  rcases h with h | ⟨p, h⟩
  · exact owned_storing h
  · exact owned_finished h

/-- What `poll` owns, hands to the two words, and drops. -/
theorem poll_owned (spurious : Bool) {pc : PollPc} (hok : pc.Ok w.kind) (hst : pc.Stored w tok)
    (htok : tok ≠ 0) :
    match (w.poll tok spurious pc).flow with
    | .goto pc' => (w.poll tok spurious pc).waker.owned + pc'.old (w.poll tok spurious pc).waker +
        lost (w.poll tok spurious pc).dropped = w.owned + pc.old w
    | .ret _ => (w.poll tok spurious pc).waker.owned + lost (w.poll tok spurious pc).dropped =
        w.owned + {(tok, tok)}
    | .panic => True := by
  have same (v : Multiset (ℕ × ℕ)) : w.owned + v + 0 = w.owned + v := add_zero _
  cases pc with
  | load => exact same _
  | start current =>
    cases current with
    | pending seq =>
      simp only [poll]
      cases hx : w.state.cmpxchgWeak (.pending seq) (.storing seq) spurious with
      | none => exact same _
      | some state =>
        obtain ⟨hw, rfl⟩ := kind_of_cmpxchgWeak hx
        -- the waker registered before is the poll's to drop
        have hk : ({ w with state := .new (.storing seq) } : AtomicWaker ι).kind = .storing :=
          kind_new_state w _
        change owned { w with state := .new (.storing seq) } + wakerOf w.data w.vtable + 0 =
          w.owned + 0
        rw [owned_storing hk, owned_pending hw, zero_add]
    | finished p => exact rfl
    | _ => trivial
  | loadData current => exact same _
  | loadVtable current oldData => exact same _
  | storeData current oldData oldVtable =>
    have hd : owned { w with data := tok } = 0 := owned_taken hok.1
    change owned { w with data := tok } + wakerOf oldData oldVtable + 0 = _
    rw [hd, owned_taken hok.1, add_zero]
    rfl
  | storeVtable current oldData oldVtable =>
    have hd : owned { w with vtable := tok } = 0 := owned_taken hok.1
    change owned { w with vtable := tok } + 0 +
      lost (if oldVtable = 0 then none else some (oldData, oldVtable)) = _
    rw [hd, owned_taken hok.1, zero_add]
    change 0 + _ = 0 + wakerOf oldData oldVtable
    rw [wakerOf]
    split <;> rfl
  | publish current =>
    cases current with
    | storing seq =>
      simp only [poll]
      cases hx : w.state.cmpxchgWeak (.storing seq) (.pending (seq + 1)) spurious with
      | none => exact same _
      | some state =>
        obtain ⟨hw, rfl⟩ := kind_of_cmpxchgWeak hx
        have hk : ({ w with state := .new (.pending (seq + 1)) } : AtomicWaker ι).kind = .pending :=
          kind_new_state w _
        change owned { w with state := .new (.pending (seq + 1)) } + 0 = _
        rw [owned_pending hk, owned_storing hw, wakerOf, hst.1, hst.2, if_neg htok, add_zero,
          zero_add]
    | finished p => exact rfl
    | _ => trivial

/-- A poll that returns has nothing but its own clone left to drop. -/
theorem old_of_ret {spurious : Bool} {pc : PollPc} {val : PollResult}
    (h : (w.poll tok spurious pc).flow = .ret val) : pc.old w = 0 := by
  cases pc with
  | loadData current => cases h
  | loadVtable current oldData => cases h
  | storeData current oldData oldVtable => cases h
  | storeVtable current oldData oldVtable => cases h
  | _ => rfl

theorem dropped_of_ready {spurious : Bool} {pc : PollPc}
    (h : (w.poll tok spurious pc).flow = .ret (.ready p)) :
    (w.poll tok spurious pc).dropped = some (tok, tok) := by
  cases pc with
  | start current =>
    cases current with
    | finished q => rfl
    | pending seq =>
      simp only [poll] at h
      cases hx : w.state.cmpxchgWeak (.pending seq) (.storing seq) spurious <;> simp [hx] at h
    | _ => cases h
  | publish current =>
    cases current with
    | finished q => rfl
    | storing seq =>
      simp only [poll] at h
      cases hx : w.state.cmpxchgWeak (.storing seq) (.pending (seq + 1)) spurious <;> simp [hx] at h
    | _ => cases h
  | _ => cases h

/-- `finish` drops nothing, and takes the waker it wakes from the two words. -/
theorem finish_owned (p spurious : Bool) {pc : FinishPc} (hsaw : pc.Saw w m)
    (hm : ∀ current data vtable, pc = .exchange current data vtable →
      m < payload ∧ current.kind = .pending)
    (hv : w.kind = .pending → w.vtable ≠ 0) :
    match (w.finish p spurious pc).flow with
    | .ret (.finished (some d)) => w.kind = .pending ∧ d = (w.data, w.vtable) ∧ w.owned = {d}
    | .ret (.finished none) => w.kind = .storing
    | _ => True := by
  cases pc with
  | load => trivial
  | test current =>
    cases current with
    | storing seq =>
      simp only [finish]
      cases hx : w.state.cmpxchgWeak (.storing seq) (.finished p) spurious with
      | none => trivial
      | some state => exact (kind_of_cmpxchgWeak hx).1
    | _ => trivial
  | loadVtable current data => trivial
  | exchange current data vtable =>
    obtain ⟨hlt, hk⟩ := hm _ _ _ rfl
    obtain ⟨seq, rfl⟩ := State.kind_eq_pending hk
    simp only [finish]
    cases hx : w.state.cmpxchgWeak (.pending seq) (.finished p) spurious with
    | none => trivial
    | some state =>
      obtain ⟨hw, -, -⟩ := Atomic.cmpxchgWeak_eq_some hx
      have hpend : w.kind = .pending := (kind_of_cmpxchgWeak hx).1
      -- no poll has registered a waker in between
      obtain ⟨hd, hvt⟩ := hsaw.2 (hsaw.1.eq_zero hw hlt) hpend
      refine ⟨hpend, by rw [hd, hvt], ?_⟩
      rw [owned_pending hpend, wakerOf, if_neg (hv hpend), hd, hvt]

theorem startCancel_owned (self : ι) (spurious : Bool) (pc : StartCancelPc) :
    (w.startCancel self spurious pc).waker.owned = w.owned ∧
      (w.startCancel self spurious pc).dropped = none := by
  cases pc with
  | load => exact ⟨rfl, rfl⟩
  | exchange current =>
    cases current with
    | pending seq =>
      simp only [startCancel]
      cases hx : w.state.cmpxchgWeak (.pending seq) .cancelling spurious with
      | none => exact ⟨rfl, rfl⟩
      | some state =>
        obtain ⟨hw, rfl⟩ := kind_of_cmpxchgWeak hx
        have hk : ({ w with state := .new .cancelling } : AtomicWaker ι).kind = .cancelling :=
          kind_new_state w _
        refine ⟨?_, rfl⟩
        change owned { w with state := .new .cancelling } = _
        rw [owned_pending hw, owned_cancel (Or.inl hk)]
    | _ => exact ⟨rfl, rfl⟩

theorem acceptCancel_owned (spurious : Bool) (pc : AcceptCancelPc ι) :
    (w.acceptCancel spurious pc).waker.owned = w.owned ∧
      (w.acceptCancel spurious pc).dropped = none := by
  cases pc with
  | exchange current =>
    cases current with
    | cancelling =>
      simp only [acceptCancel]
      cases w.thread with
      | none => exact ⟨rfl, rfl⟩
      | some thread =>
        cases hx : w.state.cmpxchgWeak .cancelling .cancelled spurious with
        | none => exact ⟨rfl, rfl⟩
        | some state =>
          obtain ⟨hw, rfl⟩ := kind_of_cmpxchgWeak hx
          have hk : ({ w with state := .new .cancelled, thread := none } : AtomicWaker ι).kind =
              .cancelled := kind_new_state { w with thread := none } _
          refine ⟨?_, rfl⟩
          change owned { w with state := .new .cancelled, thread := none } = _
          rw [owned_cancel (Or.inl hw), owned_cancel (Or.inr hk)]
    | _ => exact ⟨rfl, rfl⟩
  | _ => exact ⟨rfl, rfl⟩

theorem drop_owned (hk : w.kind.Rest ∨ w.kind = .cancelled) :
    lost (w.drop false).dropped = w.owned := by
  have hpair : lost (if w.vtable = 0 then none else some (w.data, w.vtable)) =
      wakerOf w.data w.vtable := by
    rw [wakerOf]
    split <;> rfl
  rcases hk with (hk | ⟨q, hk⟩) | hk
  · obtain ⟨seq, hs⟩ := State.kind_eq_pending hk
    simp only [drop, hs]
    rw [owned_pending hk, hpair]
  · simp only [drop, State.kind_eq_finished hk]
    rw [owned_finished hk]
    rfl
  · simp only [drop, State.kind_eq_cancelled hk]
    rw [owned_cancel (Or.inr hk), hpair]

end AtomicWaker

end WeightedSemaphore
