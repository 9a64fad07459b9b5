import WeightedSemaphore.WakerSpec
import Mathlib.Data.Nat.ModEq

/-!
# The words of a waker

What `poll` has stored and `finish` has read of the data pointer, the vtable pointer and the
sequence number, and how the other methods leave them. The two pointers change only while the state
is not `Pending`, and every poll that returns `Pending` advances the sequence number.
-/

namespace WeightedSemaphore

open Waker (State Kind)

namespace AtomicWaker

variable [Usize] {ι : Type}

def PollPc.Stores : PollPc → Prop
  | load => False
  | start _ => False
  | _ => True

def PollPc.Stored (w : AtomicWaker ι) (tok : ℕ) : PollPc → Prop
  | storeVtable _ _ _ => w.data = tok
  | publish _ => w.data = tok ∧ w.vtable = tok
  | _ => True

def Ahead (w : AtomicWaker ι) (q m : ℕ) : Prop :=
  ∀ n, w.state.load = .pending n ∨ w.state.load = .storing n → n = (q + m) % payload

/-- What `finish` has read, when `m` polls have returned `Pending` since it read the state. -/
def FinishPc.Saw (w : AtomicWaker ι) (m : ℕ) : FinishPc → Prop
  | test (.pending q) => w.Ahead q m
  | loadVtable (.pending q) data => w.Ahead q m ∧ (m = 0 → w.kind = .pending → data = w.data)
  | exchange (.pending q) data vtable =>
    w.Ahead q m ∧ (m = 0 → w.kind = .pending → data = w.data ∧ vtable = w.vtable)
  | _ => True

variable {w w' : AtomicWaker ι} {tok q m : ℕ} {poisoned : Bool}

theorem Ahead.of_kind (h : w.kind ≠ .pending) (h' : w.kind ≠ .storing) : w.Ahead q m := by
  rintro n (hn | hn)
  · exact absurd (by rw [kind, hn]; rfl) h
  · exact absurd (by rw [kind, hn]; rfl) h'

theorem Ahead.load (h : w.state.load = .pending q) : w.Ahead q 0 := by
  have hq : q % payload = q := by
    obtain ⟨v, hv⟩ := w.state.packed
    have hcanon : w.state.load = Packable.canon v := by
      rw [show w.state = .new v from Atomic.ext_word hv, Atomic.load_new]
    rw [h] at hcanon
    cases v with
    | pending n =>
      obtain rfl : q = n % payload := State.pending.inj hcanon
      exact Nat.mod_mod n payload
    | _ => cases hcanon
  rintro n (hn | hn)
  · obtain rfl := State.pending.inj (h.symm.trans hn)
    exact hq.symm
  · cases h.symm.trans hn

/-- What one step of `poll` does to the two words and to the sequence number. -/
theorem poll_stored (spurious : Bool) {pc : PollPc} (hok : pc.Ok w.kind) (hst : pc.Stored w tok) :
    match (w.poll tok spurious pc).flow with
    | .goto pc' => pc'.Stored (w.poll tok spurious pc).waker tok ∧
        (pc.Stores → pc'.Stores) ∧
        ((w.poll tok spurious pc).waker.kind = .pending → (w.poll tok spurious pc).waker = w) ∧
        (∀ p, (w.poll tok spurious pc).waker.kind = .finished p → w.kind = .finished p) ∧
        ∀ q m, w.Ahead q m → (w.poll tok spurious pc).waker.Ahead q m
    | .ret .pending => (w.poll tok spurious pc).dropped = none ∧
        (w.poll tok spurious pc).waker.data = tok ∧ (w.poll tok spurious pc).waker.vtable = tok ∧
        ∀ q m, w.Ahead q m → (w.poll tok spurious pc).waker.Ahead q (m + 1)
    | _ => True := by
  have same (pc' : PollPc) (hpc : pc'.Stored w tok) (hs : pc.Stores → pc'.Stores) :
      pc'.Stored w tok ∧ (pc.Stores → pc'.Stores) ∧ (w.kind = .pending → w = w) ∧
        (∀ p, w.kind = .finished p → w.kind = .finished p) ∧ ∀ q m, w.Ahead q m → w.Ahead q m :=
    ⟨hpc, hs, fun _ => rfl, fun _ => id, fun _ _ => id⟩
  -- the waker's words change only while its state is not `Pending`
  have busy (hk : w.kind = .storing ∨ ∃ p, w.kind = .finished p) : w.kind ≠ .pending := by
    rcases hk with hk | ⟨p, hk⟩ <;> simp [hk]
  cases pc with
  | load => exact same (.start _) trivial id
  | start current =>
    cases current with
    | pending seq =>
      simp only [poll]
      cases hx : w.state.cmpxchgWeak (.pending seq) (.storing seq) spurious with
      | none => exact same (.start _) trivial id
      | some state =>
        obtain ⟨hw, rfl, -⟩ := Atomic.cmpxchgWeak_eq_some hx
        refine ⟨trivial, False.elim, fun hk => ?_, fun p hk => ?_, fun q m ha n hn => ?_⟩
        · rw [kind_new_state] at hk
          cases hk
        · rw [kind_new_state] at hk
          cases hk
        · have hload : n = seq % payload := by
            simp only [Atomic.load_new] at hn
            rcases hn with hn | hn
            · cases hn
            · exact (State.storing.inj hn).symm
          rw [hload]
          exact ha _ (Or.inl (by rw [hw, Atomic.load_new]; rfl))
    | _ => trivial
  | loadData current => exact same (.loadVtable _ _) trivial id
  | loadVtable current oldData => exact same (.storeData _ _ _) trivial id
  | storeData current oldData oldVtable =>
    exact ⟨rfl, id, fun hk => absurd hk (busy hok.1), fun _ => id, fun _ _ => id⟩
  | storeVtable current oldData oldVtable =>
    exact ⟨⟨hst, rfl⟩, id, fun hk => absurd hk (busy hok.1), fun _ => id, fun _ _ => id⟩
  | publish current =>
    cases current with
    | storing seq =>
      simp only [poll]
      cases hx : w.state.cmpxchgWeak (.storing seq) (.pending (seq + 1)) spurious with
      | none => exact same (.publish _) hst id
      | some state =>
        obtain ⟨hw, rfl, -⟩ := Atomic.cmpxchgWeak_eq_some hx
        refine ⟨rfl, hst.1, hst.2, fun q m ha n hn => ?_⟩
        have hload : n = (seq + 1) % payload := by
          simp only [Atomic.load_new] at hn
          rcases hn with hn | hn
          · exact (State.pending.inj hn).symm
          · cases hn
        have hseq : seq % payload = (q + m) % payload :=
          ha _ (Or.inr (by rw [hw, Atomic.load_new]; rfl))
        rw [hload, Nat.add_mod, hseq, ← Nat.add_mod, Nat.add_assoc]
    | _ => trivial

/-- What `finish` has read after one more step. Entering `test`, it has just read the state. -/
theorem finish_saw (p spurious : Bool) {pc : FinishPc} (h : pc.Saw w m) :
    match (w.finish p spurious pc).flow with
    | .goto (.test current) => (FinishPc.test current).Saw w 0
    | .goto pc' => pc'.Saw w m
    | _ => True := by
  have hload : (FinishPc.test w.state.load).Saw w 0 := by
    cases hl : w.state.load with
    | pending q => exact .load hl
    | _ => trivial
  cases pc with
  | load => exact hload
  | test current =>
    cases current with
    | pending q => exact ⟨h, fun _ _ => rfl⟩
    | storing q =>
      simp only [finish]
      cases w.state.cmpxchgWeak (.storing q) (.finished p) spurious with
      | none => exact hload
      | some state => trivial
    | _ => trivial
  | loadVtable current data =>
    cases current with
    | pending q => exact ⟨h.1, fun hm hk => ⟨h.2 hm hk, rfl⟩⟩
    | _ => trivial
  | exchange current data vtable =>
    simp only [finish]
    cases w.state.cmpxchgWeak current (.finished p) spurious with
    | none => exact hload
    | some state => trivial

end AtomicWaker

variable [Usize] {ι : Type}

/-- The words that `poll` and `finish` read are the same, or the waiter is finished or cancels. -/
def AtomicWaker.Unmoved (w w' : AtomicWaker ι) : Prop :=
  w'.data = w.data ∧ w'.vtable = w.vtable ∧
    (w'.state = w.state ∨ w'.kind ≠ .pending ∧ w'.kind ≠ .storing)

namespace AtomicWaker.Unmoved

variable {w w' : AtomicWaker ι} {m tok : ℕ}

theorem refl (w : AtomicWaker ι) : w.Unmoved w := ⟨rfl, rfl, Or.inl rfl⟩

theorem pending (h : w.Unmoved w') (hk : w'.kind = .pending) : w.kind = .pending := by
  obtain ⟨-, -, hs | ⟨hs, -⟩⟩ := h
  · rw [← hk, kind, kind, hs]
  · exact absurd hk hs

theorem ahead (h : w.Unmoved w') {q : ℕ} (ha : w.Ahead q m) : w'.Ahead q m := by
  obtain ⟨-, -, hs | ⟨hs, hs'⟩⟩ := h
  · intro n hn
    rw [hs] at hn
    exact ha n hn
  · exact Ahead.of_kind hs hs'

theorem stored (h : w.Unmoved w') {pc : PollPc} (hpc : pc.Stored w tok) : pc.Stored w' tok := by
  obtain ⟨hd, hv, -⟩ := h
  cases pc with
  | storeVtable current oldData oldVtable => exact hd.trans hpc
  | publish current => exact ⟨hd.trans hpc.1, hv.trans hpc.2⟩
  | _ => trivial

theorem saw (h : w.Unmoved w') {pc : FinishPc} (hpc : pc.Saw w m) : pc.Saw w' m := by
  cases pc with
  | load => trivial
  | test current =>
    cases current with
    | pending q => exact h.ahead hpc
    | _ => trivial
  | loadVtable current data =>
    cases current with
    | pending q =>
      obtain ⟨ha, hd⟩ := hpc
      exact ⟨h.ahead ha, fun hm hp => (hd hm (h.pending hp)).trans h.1.symm⟩
    | _ => trivial
  | exchange current data vtable =>
    cases current with
    | pending q =>
      obtain ⟨ha, hd⟩ := hpc
      refine ⟨h.ahead ha, fun hm hp => ?_⟩
      obtain ⟨hdata, hvtable⟩ := hd hm (h.pending hp)
      exact ⟨hdata.trans h.1.symm, hvtable.trans h.2.1.symm⟩
    | _ => trivial

end AtomicWaker.Unmoved

theorem AtomicWaker.FinishPc.Saw.stored {w w' : AtomicWaker ι} {m : ℕ} {pc : FinishPc}
    (h : pc.Saw w m) (hpend : w'.kind = .pending → w' = w)
    (hahead : ∀ q m, w.Ahead q m → w'.Ahead q m) : pc.Saw w' m := by
  cases pc with
  | load => trivial
  | test current =>
    cases current with
    | pending q => exact hahead q m h
    | _ => trivial
  | loadVtable current data =>
    cases current with
    | pending q =>
      refine ⟨hahead q m h.1, fun hm hk => ?_⟩
      obtain rfl := hpend hk
      exact h.2 hm hk
    | _ => trivial
  | exchange current data vtable =>
    cases current with
    | pending q =>
      refine ⟨hahead q m h.1, fun hm hk => ?_⟩
      obtain rfl := hpend hk
      exact h.2 hm hk
    | _ => trivial

theorem AtomicWaker.FinishPc.Saw.registered {w w' : AtomicWaker ι} {m : ℕ} {pc : FinishPc}
    (h : pc.Saw w m) (hahead : ∀ q m, w.Ahead q m → w'.Ahead q (m + 1)) : pc.Saw w' (m + 1) := by
  cases pc with
  | load => trivial
  | test current =>
    cases current with
    | pending q => exact hahead q m h
    | _ => trivial
  | loadVtable current data =>
    cases current with
    | pending q => exact ⟨hahead q m h.1, by simp⟩
    | _ => trivial
  | exchange current data vtable =>
    cases current with
    | pending q => exact ⟨hahead q m h.1, by simp⟩
    | _ => trivial

namespace AtomicWaker

variable {w w' : AtomicWaker ι}

def Cancels (w w' : AtomicWaker ι) : Prop :=
  w'.data = w.data ∧ w'.vtable = w.vtable ∧
    (w'.state = w.state ∨ w'.kind = .cancelling ∨ w'.kind = .cancelled)

namespace Cancels

theorem refl (w : AtomicWaker ι) : w.Cancels w := ⟨rfl, rfl, Or.inl rfl⟩

theorem unmoved (h : w.Cancels w') : w.Unmoved w' := by
  obtain ⟨hd, hv, hs | hs | hs⟩ := h
  · exact ⟨hd, hv, Or.inl hs⟩
  · exact ⟨hd, hv, Or.inr (by simp [hs])⟩
  · exact ⟨hd, hv, Or.inr (by simp [hs])⟩

theorem finished (h : w.Cancels w') {p : Bool} (hk : w'.kind = .finished p) :
    w.kind = .finished p := by
  obtain ⟨-, -, hs | hs | hs⟩ := h
  · rw [← hk, kind, kind, hs]
  · cases hs.symm.trans hk
  · cases hs.symm.trans hk

end Cancels

theorem acceptCancel_cancels (spurious : Bool) (pc : AcceptCancelPc ι) :
    w.Cancels (w.acceptCancel spurious pc).waker := by
  cases pc with
  | exchange current =>
    cases current with
    | cancelling =>
      simp only [acceptCancel]
      split
      · exact .refl _
      · split
        · next hx =>
          obtain ⟨-, rfl, -⟩ := Atomic.cmpxchgWeak_eq_some hx
          exact ⟨rfl, rfl, Or.inr (Or.inr (kind_new_state w .cancelled))⟩
        · exact .refl _
    | _ => exact .refl _
  | _ => exact .refl _

theorem startCancel_cancels (self : ι) (spurious : Bool) (pc : StartCancelPc) :
    w.Cancels (w.startCancel self spurious pc).waker := by
  cases pc with
  | load => exact ⟨rfl, rfl, Or.inl rfl⟩
  | exchange current =>
    cases current with
    | pending seq =>
      simp only [startCancel]
      split
      · next hx =>
        obtain ⟨-, rfl, -⟩ := Atomic.cmpxchgWeak_eq_some hx
        exact ⟨rfl, rfl, Or.inr (Or.inl (kind_new_state w .cancelling))⟩
      · exact .refl _
    | _ => exact .refl _

theorem waitCancel_cancels (pc : WaitCancelPc) : w.Cancels (w.waitCancel pc).waker := by
  cases pc with
  | load =>
    simp only [waitCancel]
    split <;> exact .refl _
  | park => exact .refl _

theorem drop_cancels (panicking : Bool) : w.Cancels (w.drop panicking).waker := by
  simp only [drop]
  split <;> first | exact .refl _ | (split <;> exact .refl _)

end AtomicWaker

theorem AtomicWaker.Ahead.eq_zero {w : AtomicWaker ι} {q m : ℕ} (h : w.Ahead q m)
    (hw : w.state = .new (.pending q)) (hm : m < payload) : m = 0 := by
  have hload : q % payload = (q + m) % payload := h _ (Or.inl (by rw [hw, Atomic.load_new]; rfl))
  have hmod : m % payload = 0 % payload := Nat.ModEq.add_left_cancel' q hload.symm
  rwa [Nat.mod_eq_of_lt hm, Nat.zero_mod] at hmod

end WeightedSemaphore
