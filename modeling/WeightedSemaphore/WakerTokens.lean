import WeightedSemaphore.Ownership
import Mathlib.Tactic.Abel

/-!
# Every waker clone is consumed once

The two sides of a waker, with the clones of wakers accounted for. What a run owns and what it has
consumed is what it has created. The exchange of `finish` needs a bound: fewer polls than the
sequence number can count return `Pending` between its load of the state and the exchange.
-/

namespace WeightedSemaphore

open AtomicWaker (PollPc PollResult FinishPc FinishResult StartCancelPc WaitCancelPc AcceptCancelPc)
open Waker (State Kind)

namespace Handshake

def created : List Event → Multiset (ℕ × ℕ)
  | [] => 0
  | .began tok :: log => (tok, tok) ::ₘ created log
  | _ :: log => created log

def consumed : List Event → Multiset (ℕ × ℕ)
  | [] => 0
  | .woken data vtable :: log => (data, vtable) ::ₘ consumed log
  | .dropped data vtable :: log => (data, vtable) ::ₘ consumed log
  | _ :: log => consumed log

def last : List Event → Option ℕ
  | [] => none
  | .pending tok :: _ => some tok
  | _ :: log => last log

def polling : List Event → Option ℕ
  | [] => none
  | .began tok :: _ => some tok
  | .pending _ :: _ => none
  | .ready _ _ :: _ => none
  | _ :: log => polling log

variable {log : List Event} {e : Event} {tok d v : ℕ} {p : Bool}

theorem mem_created {x : ℕ × ℕ} : x ∈ created log ↔ ∃ tok, x = (tok, tok) ∧ .began tok ∈ log := by
  induction log with
  | nil => simp [created]
  | cons e log ih =>
    cases e with
    | began tok =>
      simp only [created, Multiset.mem_cons, ih, List.mem_cons, Event.began.injEq]
      constructor
      · rintro (rfl | ⟨tok', rfl, h⟩)
        · exact ⟨tok, rfl, Or.inl rfl⟩
        · exact ⟨tok', rfl, Or.inr h⟩
      · rintro ⟨tok', rfl, rfl | h⟩
        · exact Or.inl rfl
        · exact Or.inr ⟨tok', rfl, h⟩
    | _ => simpa [created] using ih

theorem mem_consumed {x : ℕ × ℕ} :
    x ∈ consumed log ↔ .woken x.1 x.2 ∈ log ∨ .dropped x.1 x.2 ∈ log := by
  induction log with
  | nil => simp [consumed]
  | cons e log ih =>
    cases e with
    | woken d v =>
      simp only [consumed, Multiset.mem_cons, ih, List.mem_cons, Event.woken.injEq, Prod.ext_iff,
        reduceCtorEq, false_or, or_assoc]
    | dropped d v =>
      simp only [consumed, Multiset.mem_cons, ih, List.mem_cons, Event.dropped.injEq, Prod.ext_iff,
        reduceCtorEq, false_or]
      exact or_left_comm
    | _ => simpa [consumed] using ih

theorem last_ne_none (h : .pending tok ∈ log) : last log ≠ none := by
  induction log with
  | nil => cases h
  | cons e log ih =>
    cases e with
    | pending tok' => simp [last]
    | _ => exact ih (by simpa using h)

theorem hand_over {a b l : Multiset (ℕ × ℕ)} (h : a + l = b) (t r : Multiset (ℕ × ℕ)) :
    a + t + r + l = b + t + r := by
  rw [← h]
  abel

theorem take_over {a b l : Multiset (ℕ × ℕ)} (h : a + l = b) (r : Multiset (ℕ × ℕ)) :
    a + r + l = b + r := by
  rw [← h]
  abel

variable [Usize] {ι : Type} {s s' : Handshake ι} {w : AtomicWaker ι}

def Future.owned (w : AtomicWaker ι) : Future ι → Multiset (ℕ × ℕ)
  | poll tok pc => w.owned + pc.old w + {(tok, tok)}
  | dropped => 0
  | _ => w.owned

def Producer.owned : Producer ι → Multiset (ℕ × ℕ)
  | wake _ data vtable => {(data, vtable)}
  | _ => 0

def owned (s : Handshake ι) : Multiset (ℕ × ℕ) := s.future.owned s.waker + s.producer.owned

/-- Between the load of the state by `finish` and the exchange, fewer polls return `Pending` than
the sequence number can count. -/
def Unwrapped (s : Handshake ι) : Act ι → Prop
  | .producer _ => ∀ p current data vtable,
      s.producer = .finish p (.exchange current data vtable) → s.since < payload
  | _ => True

def Future.Stored (w : AtomicWaker ι) : Future ι → Prop
  | poll tok pc => pc.Stored w tok ∧ tok ≠ 0
  | _ => True

def Producer.Saw (w : AtomicWaker ι) (f : Future ι) (m : ℕ) (log : List Event) : Producer ι → Prop
  | finish _ pc => pc.Saw w m ∧ f ≠ .dropped ∧ last log ≠ none
  | _ => True

structure Linear (s : Handshake ι) : Prop where
  agrees : Agrees s
  sum : s.owned + consumed s.log = created s.log
  nodup : (created s.log).Nodup
  known : ∀ tok, .began tok ∈ s.log → tok ≠ 0 ∧ tok < s.nextTok
  nextTok : s.nextTok ≠ 0
  stored : s.future.Stored s.waker
  current : s.waker.kind = .pending → ∀ tok, last s.log = some tok →
    s.waker.data = tok ∧ s.waker.vtable = tok ∧ tok ≠ 0
  saw : s.producer.Saw s.waker s.future s.since s.log

theorem Linear.init : Linear (init : Handshake ι) where
  agrees := .init
  sum := by
    change AtomicWaker.owned .new + 0 + 0 = 0
    rw [AtomicWaker.owned_pending AtomicWaker.kind_new]
    rfl
  nodup := Multiset.nodup_zero
  known tok h := by simp [Handshake.init] at h
  nextTok := Nat.one_ne_zero
  stored := trivial
  current _ tok h := by cases h
  saw := trivial

/-- A method consumes the waker that it drops. -/
theorem consumed_run {π ρ : Type} (s : Handshake ι) (r : AtomicWaker.Step ι π ρ) :
    consumed (s.run r).log = lost r.dropped + consumed s.log := by
  simp only [run]
  cases r.dropped with
  | none => exact (zero_add _).symm
  | some d => rfl

theorem created_run {π ρ : Type} (s : Handshake ι) (r : AtomicWaker.Step ι π ρ) :
    created (s.run r).log = created s.log := by
  simp only [run]
  cases r.dropped <;> rfl

theorem last_run {π ρ : Type} (s : Handshake ι) (r : AtomicWaker.Step ι π ρ) :
    last (s.run r).log = last s.log := by
  simp only [run]
  cases r.dropped <;> rfl

theorem Producer.Saw.mono {r : Producer ι} {w' : AtomicWaker ι} {f f' : Future ι} {m m' : ℕ}
    {log' : List Event} (h : r.Saw w f m log) (hs : ∀ pc : FinishPc, pc.Saw w m → pc.Saw w' m')
    (hf : f ≠ .dropped → f' ≠ .dropped) (hl : last log ≠ none → last log' ≠ none) :
    r.Saw w' f' m' log' := by
  cases r with
  | finish p pc => exact ⟨hs pc h.1, hf h.2.1, hl h.2.2⟩
  | _ => trivial

theorem Future.owned_take {f : Future ι} {w w' : AtomicWaker ι} {g : Multiset (ℕ × ℕ)}
    (hf : f ≠ .dropped ∨ g = 0) (hd : w'.data = w.data) (hv : w'.vtable = w.vtable)
    (ho : w.owned = w'.owned + g) : f.owned w = f.owned w' + g := by
  cases f with
  | poll tok pc =>
    have hold : pc.old w' = pc.old w := by cases pc <;> simp [PollPc.old, hd, hv]
    simp only [Future.owned, hold, ho]
    abel
  | dropped =>
    obtain rfl := hf.resolve_left (by simp)
    rfl
  | _ => exact ho

theorem Future.Stored.unmoved {f : Future ι} {w w' : AtomicWaker ι} (h : f.Stored w)
    (hw : w.Unmoved w') : f.Stored w' := by
  cases f with
  | poll tok pc => exact ⟨hw.stored h.1, h.2⟩
  | _ => trivial

namespace Linear

/-- A step that makes no clone, and consumes what it no longer owns. -/
theorem keep (h : Linear s) (ha : Agrees s') (g : Multiset (ℕ × ℕ))
    (hg : consumed s'.log = g + consumed s.log) (howned : s'.owned + g = s.owned)
    (hc : created s'.log = created s.log) (hn : s'.nextTok = s.nextTok)
    (hst : s'.future.Stored s'.waker)
    (hcur : s'.waker.kind = .pending → ∀ tok, last s'.log = some tok →
      s'.waker.data = tok ∧ s'.waker.vtable = tok ∧ tok ≠ 0)
    (hsaw : s'.producer.Saw s'.waker s'.future s'.since s'.log) : Linear s' where
  agrees := ha
  sum := by rw [hg, hc, ← add_assoc, howned, h.sum]
  nodup := hc ▸ h.nodup
  known tok hb := by
    have hmem : (tok, tok) ∈ created s'.log := mem_created.mpr ⟨tok, rfl, hb⟩
    rw [hc] at hmem
    obtain ⟨tok', he, hb⟩ := mem_created.mp hmem
    obtain ⟨rfl, -⟩ := Prod.mk.inj he
    rw [hn]
    exact h.known tok hb
  nextTok := hn ▸ h.nextTok
  stored := hst
  current := hcur
  saw := hsaw

theorem runPoll (h : Linear s) {tok : ℕ} {pc : PollPc} (hf : s.future = .poll tok pc)
    (spurious : Bool) : Linear (s.runPoll tok (s.waker.poll tok spurious pc)) := by
  have hok : pc.Ok s.waker.kind := by
    have hok := h.agrees.future
    rw [hf] at hok
    exact hok
  obtain ⟨hst, htok⟩ : pc.Stored s.waker tok ∧ tok ≠ 0 := by
    have hst := h.stored
    rw [hf] at hst
    exact hst
  have hs : s.owned = s.waker.owned + pc.old s.waker + {(tok, tok)} + s.producer.owned := by
    rw [owned, hf]
    rfl
  have howned := AtomicWaker.poll_owned spurious hok hst htok
  have hstored := AtomicWaker.poll_stored spurious hok hst
  have hagrees := h.agrees.runPoll tok hok spurious
  obtain ⟨-, hspec⟩ := AtomicWaker.poll_spec tok spurious hok
  simp only [Handshake.runPoll] at hagrees ⊢
  cases hflow : (s.waker.poll tok spurious pc).flow with
  | goto pc' =>
    rw [hflow] at howned hstored hagrees
    obtain ⟨hst', -, hpend, -, hahead⟩ := hstored
    apply h.keep hagrees (lost (s.waker.poll tok spurious pc).dropped)
    case hg => exact consumed_run _ _
    case howned => exact hs.symm ▸ hand_over howned _ _
    case hc => exact created_run _ _
    case hn => rfl
    case hst => exact ⟨hst', htok⟩
    case hcur =>
      intro hk
      have hw : (s.run (s.waker.poll tok spurious pc)).waker = s.waker := hpend hk
      dsimp only at hk ⊢
      rw [last_run, hw]
      rw [hw] at hk
      exact h.current hk
    case hsaw =>
      exact h.saw.mono (fun _ hsaw => hsaw.stored hpend hahead) (by simp) (by simp [last_run])
  | ret val =>
    rw [hflow] at howned hstored hagrees hspec
    have hs' : s.owned = s.waker.owned + {(tok, tok)} + s.producer.owned := by
      rw [hs, AtomicWaker.old_of_ret hflow, add_zero]
    cases val with
    | pending =>
      obtain ⟨-, hd, hv, hahead⟩ := hstored
      apply h.keep hagrees (lost (s.waker.poll tok spurious pc).dropped)
      case hg => exact consumed_run _ _
      case howned => exact hs'.symm ▸ take_over howned _
      case hc => exact created_run _ _
      case hn => rfl
      case hst => trivial
      case hcur =>
        intro _ tok' hl
        obtain rfl : tok = tok' := Option.some.inj hl
        exact ⟨hd, hv, htok⟩
      case hsaw =>
        exact h.saw.mono (fun _ hsaw => hsaw.registered hahead) (by simp) (by simp [logEvent, last])
    | ready p =>
      obtain ⟨hk, hw⟩ := hspec
      apply h.keep hagrees (lost (s.waker.poll tok spurious pc).dropped)
      case hg => exact consumed_run _ _
      case howned => exact hs'.symm ▸ take_over howned _
      case hc => exact created_run _ _
      case hn => rfl
      case hst => trivial
      case hcur =>
        intro hk'
        have hk' : (s.waker.poll tok spurious pc).waker.kind = .pending := hk'
        rw [hw, hk] at hk'
        cases hk'
      case hsaw =>
        refine h.saw.mono (fun _ hsaw => ?_) (by simp) (by simp [logEvent, last, last_run])
        change FinishPc.Saw (s.waker.poll tok spurious pc).waker _ _
        rwa [hw]
  | panic =>
    rw [hflow] at hspec
    exact hspec.elim

theorem current_of_unmoved (h : Linear s) (hw : s.waker.Unmoved w) {log : List Event}
    (hl : last log = last s.log)
    (hk : w.kind = .pending) (tok : ℕ) (ht : last log = some tok) :
    w.data = tok ∧ w.vtable = tok ∧ tok ≠ 0 := by
  obtain ⟨hd, hv, htok⟩ := h.current (hw.pending hk) tok (hl ▸ ht)
  exact ⟨hw.1.trans hd, hw.2.1.trans hv, htok⟩

theorem runStartCancel (h : Linear s) {self : ι} {pc : StartCancelPc}
    (hf : s.future = .startCancel self pc) (spurious : Bool) :
    Linear (s.runStartCancel self (s.waker.startCancel self spurious pc)) := by
  have hok : pc.Ok s.waker self := by
    have hok := h.agrees.future
    rw [hf] at hok
    exact hok
  have hs : s.owned = s.waker.owned + s.producer.owned := by
    rw [owned, hf]
    rfl
  have hagrees := h.agrees.runStartCancel hok spurious
  obtain ⟨hkeep, hd⟩ := s.waker.startCancel_owned self spurious pc
  have hu := (AtomicWaker.startCancel_cancels (w := s.waker) self spurious pc).unmoved
  have hspec := AtomicWaker.startCancel_spec spurious hok
  have howned : (s.waker.startCancel self spurious pc).waker.owned + s.producer.owned + 0 =
      s.owned := by
    rw [hs, hkeep, add_zero]
  have hrun : s.run (s.waker.startCancel self spurious pc) =
      { s with waker := (s.waker.startCancel self spurious pc).waker } := by
    rw [run, hd]
  simp only [Handshake.runStartCancel, hrun] at hagrees ⊢
  cases hflow : (s.waker.startCancel self spurious pc).flow with
  | goto pc' =>
    rw [hflow] at hagrees
    exact h.keep hagrees 0 (zero_add _).symm howned rfl rfl trivial (h.current_of_unmoved hu rfl)
      (h.saw.mono (fun _ => hu.saw) (by simp) id)
  | ret val =>
    rw [hflow] at hagrees
    cases val <;> exact h.keep hagrees 0 (zero_add _).symm howned rfl rfl trivial
      (h.current_of_unmoved hu rfl) (h.saw.mono (fun _ => hu.saw) (by simp) id)
  | panic =>
    rw [hflow] at hspec
    exact hspec.elim

theorem runWaitCancel (h : Linear s) {pc : WaitCancelPc} (hf : s.future = .waitCancel pc) :
    Linear (s.runWaitCancel (s.waker.waitCancel pc)) := by
  have hok : s.waker.kind = .cancelling ∨ s.waker.kind = .cancelled := by
    have hok := h.agrees.future
    rw [hf] at hok
    exact hok
  have howned : s.waker.owned + s.producer.owned + 0 = s.owned := by
    rw [owned, hf, add_zero]
    rfl
  have hagrees := h.agrees.runWaitCancel pc hok
  have hcur := h.current_of_unmoved (.refl s.waker) (rfl : last s.log = _)
  have hsaw (f : Future ι) (hd : f ≠ .dropped) : s.producer.Saw s.waker f s.since s.log :=
    h.saw.mono (fun _ => id) (fun _ => hd) id
  cases pc with
  | load =>
    rcases hok with hk | hk
    · rw [AtomicWaker.waitCancel_cancelling hk] at hagrees ⊢
      exact h.keep hagrees 0 (zero_add _).symm howned rfl rfl trivial hcur
        (hsaw (.waitCancel .park) (by simp))
    · rw [AtomicWaker.waitCancel_cancelled hk] at hagrees ⊢
      exact h.keep hagrees 0 (zero_add _).symm howned rfl rfl trivial hcur
        (hsaw .ended (by simp))
  | park =>
    exact h.keep hagrees 0 (zero_add _).symm howned rfl rfl trivial hcur
      (hsaw (.waitCancel .load) (by simp))

theorem runDrop (h : Linear s) (hf : s.future = .idle ∨ s.future = .ended)
    (hp : ∀ p pc, s.producer ≠ .finish p pc) : Linear (s.runDrop (s.waker.drop false)) := by
  have hk : s.waker.kind.Rest ∨ s.waker.kind = .cancelled := h.agrees.droppable hf
  have hs : s.owned = s.waker.owned + s.producer.owned := by
    rw [owned]
    rcases hf with hf | hf <;> rw [hf] <;> rfl
  have hagrees := h.agrees.runDrop hf
  obtain ⟨hw, hflow⟩ := AtomicWaker.drop_spec false hk
  simp only [Handshake.runDrop, hflow] at hagrees ⊢
  apply h.keep hagrees (lost (s.waker.drop false).dropped)
  case hg => exact consumed_run _ _
  case howned =>
    rw [hs, ← AtomicWaker.drop_owned hk]
    change 0 + s.producer.owned + _ = _
    rw [zero_add, add_comm]
  case hc => exact created_run _ _
  case hn => rfl
  case hst => trivial
  case hcur => exact h.current_of_unmoved (AtomicWaker.drop_cancels false).unmoved (last_run _ _)
  case hsaw =>
    change s.producer.Saw _ _ _ _
    cases hpr : s.producer with
    | finish p pc => exact absurd hpr (hp p pc)
    | _ => trivial

theorem wake (h : Linear s) {p : Bool} {data vtable : ℕ} (hp : s.producer = .wake p data vtable) :
    Linear { (s.logEvent (.woken data vtable)).logEvent (.finished p) with producer := .idle } := by
  refine h.keep (h.agrees.wake hp) {(data, vtable)} rfl ?_ rfl rfl h.stored
    (h.current_of_unmoved (.refl _) rfl) trivial
  change s.future.owned s.waker + 0 + {(data, vtable)} = _
  rw [owned, hp, add_zero]
  rfl

theorem runAcceptCancel (h : Linear s) {pc : AcceptCancelPc ι} (hp : s.producer = .acceptCancel pc)
    (spurious : Bool) : Linear (s.runAcceptCancel (s.waker.acceptCancel spurious pc)) := by
  obtain ⟨hkeep, hd⟩ := s.waker.acceptCancel_owned spurious pc
  have hc := s.waker.acceptCancel_cancels spurious pc
  have hagrees := h.agrees.runAcceptCancel pc spurious
  have howned : s.future.owned (s.waker.acceptCancel spurious pc).waker + 0 + 0 = s.owned := by
    have htake := Future.owned_take (f := s.future) (Or.inr rfl) hc.1 hc.2.1
      (hkeep.symm.trans (add_zero _).symm)
    rw [owned, hp, htake]
    rfl
  have hst := h.stored.unmoved hc.unmoved
  have hcur := h.current_of_unmoved hc.unmoved (rfl : last s.log = _)
  have hrun : s.run (s.waker.acceptCancel spurious pc) =
      { s with waker := (s.waker.acceptCancel spurious pc).waker } := by
    rw [run, hd]
  simp only [Handshake.runAcceptCancel, hrun] at hagrees ⊢
  cases hflow : (s.waker.acceptCancel spurious pc).flow with
  | goto pc' =>
    rw [hflow] at hagrees
    cases pc' <;> exact h.keep hagrees 0 (zero_add _).symm howned rfl rfl hst hcur trivial
  | ret val =>
    rw [hflow] at hagrees
    exact h.keep hagrees 0 (zero_add _).symm howned rfl rfl hst hcur trivial
  | panic =>
    rw [hflow] at hagrees
    exact h.keep hagrees 0 (zero_add _).symm howned rfl rfl hst hcur trivial

/-- What holds while `finish` runs. -/
theorem finishing (h : Linear s) {p : Bool} {pc : FinishPc} (hp : s.producer = .finish p pc) :
    (ReadOk s.waker.kind pc ∧ ∀ q, .finished q ∉ s.log) ∧ pc.Saw s.waker s.since ∧
      s.future ≠ .dropped ∧ ∃ tok, last s.log = some tok ∧ (s.waker.kind = .pending →
        s.waker.data = tok ∧ s.waker.vtable = tok ∧ tok ≠ 0) := by
  have hok := h.agrees.producer
  have hsaw := h.saw
  rw [hp] at hok hsaw
  obtain ⟨hsaw, hdrop, hlast⟩ := hsaw
  obtain ⟨tok, ht⟩ := Option.ne_none_iff_exists'.mp hlast
  exact ⟨hok, hsaw, hdrop, tok, ht, fun hk => h.current hk tok ht⟩

/-- The waker that `finish` wakes is the one registered last. -/
theorem finish_takes (h : Linear s) {p : Bool} {pc : FinishPc} (hp : s.producer = .finish p pc)
    (spurious : Bool) (hm : ∀ current data vtable, pc = .exchange current data vtable →
      s.since < payload) :
    match (s.waker.finish p spurious pc).flow with
    | .ret (.finished (some (d, v))) => s.waker.kind = .pending ∧ d = v ∧ last s.log = some d ∧
        s.waker.owned = {(d, v)}
    | .ret (.finished none) => s.waker.kind = .storing
    | _ => True := by
  obtain ⟨⟨hread, -⟩, hsaw, -, tok, hlast, hcur⟩ := h.finishing hp
  have howned := AtomicWaker.finish_owned p spurious hsaw
    (fun current data vtable he => ⟨hm current data vtable he, by subst he; exact hread⟩)
    (fun hk => by rw [(hcur hk).2.1]; exact (hcur hk).2.2)
  cases hflow : (s.waker.finish p spurious pc).flow with
  | ret val =>
    rw [hflow] at howned
    cases val with
    | finished wake =>
      cases wake with
      | none => exact howned
      | some d =>
        obtain ⟨hk, rfl, ho⟩ := howned
        obtain ⟨hd, hv, -⟩ := hcur hk
        exact ⟨hk, hd.trans hv.symm, hlast.trans (congrArg _ hd.symm), ho⟩
    | cancelling => trivial
  | _ => trivial

theorem runFinish (h : Linear s) {p : Bool} {pc : FinishPc} (hp : s.producer = .finish p pc)
    (spurious : Bool) (hm : ∀ current data vtable, pc = .exchange current data vtable →
      s.since < payload) : Linear (s.runFinish p (s.waker.finish p spurious pc)) := by
  obtain ⟨⟨hread, hn⟩, hsaw, hdrop, tok, hlast, -⟩ := h.finishing hp
  have hlast : last s.log ≠ none := by simp [hlast]
  have hagrees := h.agrees.runFinish p hread hn spurious
  have howned := h.finish_takes hp spurious hm
  have hsaw' := AtomicWaker.finish_saw p spurious hsaw
  obtain ⟨hd, hspec⟩ := finish_effect p spurious hread
  have hs : s.owned = s.future.owned s.waker := by
    rw [owned, hp]
    exact add_zero _
  have hsame : s.future.owned s.waker + 0 + 0 = s.owned := by rw [hs, add_zero, add_zero]
  have hrun : s.run (s.waker.finish p spurious pc) =
      { s with waker := (s.waker.finish p spurious pc).waker } := by
    rw [run, hd]
  have hcur := h.current_of_unmoved (.refl s.waker) (rfl : last s.log = _)
  simp only [Handshake.runFinish, hrun] at hagrees ⊢
  cases hflow : (s.waker.finish p spurious pc).flow with
  | goto pc' =>
    rw [hflow] at hspec hsaw' hagrees
    rw [hspec.1] at hagrees ⊢
    cases pc' <;> exact h.keep hagrees 0 (zero_add _).symm hsame rfl rfl h.stored hcur
      ⟨hsaw', hdrop, hlast⟩
  | ret val =>
    rw [hflow] at hspec howned hagrees
    cases val with
    | cancelling =>
      dsimp only at hspec
      rw [hspec.1] at hagrees ⊢
      exact h.keep hagrees 0 (zero_add _).symm hsame rfl rfl h.stored hcur trivial
    | finished wake =>
      have hk : (s.waker.finish p spurious pc).waker.kind = .finished p := by
        rw [hspec.2]
        exact AtomicWaker.kind_new_state s.waker _
      have hu : s.waker.Unmoved (s.waker.finish p spurious pc).waker := by
        refine ⟨?_, ?_, Or.inr ⟨?_, ?_⟩⟩
        · rw [hspec.2]
        · rw [hspec.2]
        · simp [hk]
        · simp [hk]
      cases wake with
      | none =>
        refine h.keep hagrees 0 (zero_add _).symm ?_ rfl rfl (h.stored.unmoved hu)
          (h.current_of_unmoved hu rfl) trivial
        have htake := Future.owned_take (f := s.future) (g := 0) (Or.inr rfl) hu.1 hu.2.1
          (by rw [AtomicWaker.owned_storing howned, AtomicWaker.owned_finished hk, add_zero])
        change s.future.owned _ + 0 + 0 = _
        rw [hs, htake]
        exact add_zero _
      | some d =>
        obtain ⟨data, vtable⟩ := d
        obtain ⟨-, -, -, htaken⟩ := howned
        refine h.keep hagrees 0 (zero_add _).symm ?_ rfl rfl (h.stored.unmoved hu)
          (h.current_of_unmoved hu rfl) trivial
        have htake := Future.owned_take (f := s.future) (Or.inl hdrop) hu.1 hu.2.1
          (show s.waker.owned = _ + {(data, vtable)} by
            rw [htaken, AtomicWaker.owned_finished hk, zero_add])
        change s.future.owned _ + {(data, vtable)} + 0 = _
        rw [hs, htake]
        exact add_zero _
  | panic =>
    rw [hflow] at hspec hagrees
    dsimp only at hspec
    rw [hspec] at hagrees ⊢
    exact h.keep hagrees 0 (zero_add _).symm hsame rfl rfl h.stored hcur trivial

theorem next (h : Linear s) {act : Act ι} (hok : s.Unwrapped act) (hn : s.next act = some s') :
    Linear s' := by
  have hagrees := h.agrees.next hn
  have hcur := h.current_of_unmoved (.refl s.waker) (rfl : last s.log = _)
  have hidle (hf : s.future = .idle) : s.waker.owned + s.producer.owned + 0 = s.owned := by
    rw [owned, hf]
    exact add_zero _
  cases act with
  | poll =>
    simp only [Handshake.next] at hn
    split at hn
    · next hf =>
      obtain rfl := Option.some.inj hn
      have hnew : (s.nextTok, s.nextTok) ∉ created s.log := by
        intro hmem
        obtain ⟨tok, he, hb⟩ := mem_created.mp hmem
        obtain ⟨rfl, -⟩ := Prod.mk.inj he
        exact Nat.lt_irrefl _ (h.known _ hb).2
      constructor
      case agrees => exact hagrees
      case sum =>
        have hsum := h.sum
        rw [owned, hf] at hsum
        change s.waker.owned + s.producer.owned + consumed s.log = _ at hsum
        change s.waker.owned + 0 + {(s.nextTok, s.nextTok)} + s.producer.owned + consumed s.log =
          (s.nextTok, s.nextTok) ::ₘ created s.log
        rw [← hsum, ← Multiset.singleton_add]
        abel
      case nodup => exact Multiset.nodup_cons.mpr ⟨hnew, h.nodup⟩
      case known =>
        intro tok hb
        rcases List.mem_cons.mp hb with he | hb
        · obtain rfl := Event.began.inj he
          exact ⟨h.nextTok, Nat.lt_succ_self _⟩
        · exact ⟨(h.known tok hb).1, Nat.lt_succ_of_lt (h.known tok hb).2⟩
      case nextTok => exact Nat.succ_ne_zero _
      case stored => exact ⟨trivial, h.nextTok⟩
      case current => exact hcur
      case saw => exact h.saw.mono (fun _ => id) (by simp) id
    · cases hn
  | startCancel self =>
    simp only [Handshake.next] at hn
    split at hn
    · next hf =>
      obtain rfl := Option.some.inj hn
      exact h.keep hagrees 0 (zero_add _).symm (hidle hf) rfl rfl trivial hcur
        (h.saw.mono (fun _ => id) (by simp) id)
    · cases hn
  | waitCancel =>
    simp only [Handshake.next] at hn
    split at hn
    · next hf =>
      obtain rfl := Option.some.inj hn
      refine h.keep hagrees 0 (zero_add _).symm ?_ rfl rfl trivial hcur
        (h.saw.mono (fun _ => id) (by simp) id)
      rw [owned, owned, hf]
      exact add_zero _
    · cases hn
  | finish p =>
    simp only [Handshake.next] at hn
    split at hn
    · cases hn
    · next hp hf =>
      split at hn
      · next hlog =>
        obtain rfl := Option.some.inj hn
        simp only [Bool.and_eq_true, List.any_eq_true] at hlog
        obtain ⟨⟨e, he, hpend⟩, -⟩ := hlog
        have hlast : last s.log ≠ none := by
          cases e with
          | pending tok => exact last_ne_none he
          | _ => cases hpend
        refine h.keep hagrees 0 (zero_add _).symm ?_ rfl rfl h.stored hcur ⟨trivial, hf, hlast⟩
        rw [owned, owned, hp]
        exact add_zero _
      · cases hn
    · cases hn
  | acceptCancel =>
    simp only [Handshake.next] at hn
    split at hn
    · cases hn
    · next hp _ =>
      split at hn
      · obtain rfl := Option.some.inj hn
        refine h.keep hagrees 0 (zero_add _).symm ?_ rfl rfl h.stored hcur trivial
        rw [owned, owned, hp]
        exact add_zero _
      · cases hn
    · cases hn
  | drop =>
    simp only [Handshake.next] at hn
    split at hn
    · next hd =>
      obtain rfl := Option.some.inj hn
      apply h.runDrop
      case hf =>
        cases hf : s.future with
        | idle => exact Or.inl rfl
        | ended => exact Or.inr rfl
        | _ => simp [hf, Droppable] at hd
      case hp =>
        intro p pc hp
        cases hf : s.future <;> simp [hf, hp, Droppable] at hd
    · cases hn
  | future spurious =>
    simp only [Handshake.next, stepFuture] at hn
    split at hn
    · next tok pc hf =>
      obtain rfl := Option.some.inj hn
      exact h.runPoll hf spurious
    · next self pc hf =>
      obtain rfl := Option.some.inj hn
      exact h.runStartCancel hf spurious
    · next pc hf =>
      obtain rfl := Option.some.inj hn
      exact h.runWaitCancel hf
    · cases hn
  | producer spurious =>
    simp only [Handshake.next, stepProducer] at hn
    split at hn
    · next p pc hp =>
      obtain rfl := Option.some.inj hn
      exact h.runFinish hp spurious
        fun current data vtable he => hok p current data vtable (he ▸ hp)
    · next p data vtable hp =>
      obtain rfl := Option.some.inj hn
      exact h.wake hp
    · next pc hp =>
      obtain rfl := Option.some.inj hn
      exact h.runAcceptCancel hp spurious
    · cases hn

end Linear

end Handshake

end WeightedSemaphore
