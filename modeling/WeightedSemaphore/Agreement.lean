import WeightedSemaphore.Handshake
import WeightedSemaphore.WakerWords

/-!
# Both sides of a waker agree

Whatever the interleaving, the future side and the producer side end with the same outcome. An event
of the log says something about the kind of state that the waker is in from then on; `LogOk`
collects what the events say, and every step keeps it.
-/

namespace WeightedSemaphore

open AtomicWaker (PollPc FinishPc StartCancelPc WaitCancelPc AcceptCancelPc)
open Waker (State Kind)

namespace Handshake

variable {k k' : Kind} {e : Event} {log log' : List Event} {p : Bool}

def Event.Allowed (k : Kind) : Event → Prop
  | ready _ p => k = .finished p
  | cancelFinished p => k = .finished p
  | exchanged p _ => k = .finished p
  | finished p => k = .finished p
  | cancelling => k = .cancelling ∨ k = .cancelled
  | finishCancelling => k = .cancelling ∨ k = .cancelled
  | accepted => k = .cancelled
  | waited => k = .cancelled
  | _ => True

def Event.Follows : Event → Event → Prop
  | pending _, finished _ => False
  | finished _, finished _ => False
  | _, _ => True

def Moves (k k' : Kind) : Prop :=
  k' = k ∨ k = .pending ∨ k = .storing ∨ k = .cancelling ∧ k' = .cancelled

theorem Event.Allowed.mono (h : e.Allowed k) (hm : Moves k k') : e.Allowed k' := by
  rcases hm with rfl | rfl | rfl | ⟨rfl, rfl⟩
  · exact h
  all_goals cases e <;> simp_all [Event.Allowed]

structure LogOk (k : Kind) (log : List Event) : Prop where
  allowed : ∀ e ∈ log, e.Allowed k
  order : log.Pairwise Event.Follows
  accepted : k = .cancelled → .accepted ∈ log
  waited : ∀ l₁ l₂, log = l₁ ++ .waited :: l₂ → .accepted ∈ l₂

namespace LogOk

theorem not_finished (h : LogOk k log) (hk : ∀ p, k ≠ .finished p) : .finished p ∉ log :=
  fun hp => hk p (h.allowed _ hp)

theorem cons (h : LogOk k log) (he : e.Allowed k) (hf : ∀ e' ∈ log, e.Follows e') :
    LogOk k (e :: log) where
  allowed := by
    intro e' he'
    rcases List.mem_cons.mp he' with rfl | he'
    · exact he
    · exact h.allowed e' he'
  order := List.pairwise_cons.mpr ⟨hf, h.order⟩
  accepted hk := List.mem_cons_of_mem _ (h.accepted hk)
  waited l₁ l₂ hl := by
    cases l₁ with
    | nil =>
      obtain ⟨rfl, rfl⟩ := List.cons.inj hl
      exact h.accepted he
    | cons e' l₁ => exact h.waited l₁ l₂ (List.cons.inj hl).2

theorem moves (h : LogOk k log) (hm : Moves k k') (hk : k' ≠ .cancelled) : LogOk k' log where
  allowed e he := (h.allowed e he).mono hm
  order := h.order
  accepted hk' := absurd hk' hk
  waited := h.waited

theorem accept (h : LogOk .cancelling log) : LogOk .cancelled (.accepted :: log) where
  allowed := by
    intro e he
    rcases List.mem_cons.mp he with rfl | he
    · rfl
    · exact (h.allowed e he).mono (Or.inr (Or.inr (Or.inr ⟨rfl, rfl⟩)))
  order := List.pairwise_cons.mpr ⟨fun _ _ => trivial, h.order⟩
  accepted _ := List.mem_cons_self
  waited l₁ l₂ hl := by
    cases l₁ with
    | nil => cases hl
    | cons e l₁ => exact h.waited l₁ l₂ (List.cons.inj hl).2

theorem cons_free (h : LogOk k log) (he : e.Allowed k) (hp : ∀ tok, e ≠ .pending tok)
    (hf : ∀ p, e ≠ .finished p) : LogOk k (e :: log) := by
  refine h.cons he fun e' _ => ?_
  cases e with
  | pending tok => exact absurd rfl (hp tok)
  | finished p => exact absurd rfl (hf p)
  | _ => trivial

end LogOk

variable [Usize] {ι : Type} {s s' : Handshake ι} {w w' : AtomicWaker ι}

def Future.Ok (w : AtomicWaker ι) : Future ι → Prop
  | idle => w.kind.Rest
  | poll _ pc => pc.Ok w.kind
  | startCancel self pc => pc.Ok w self
  | cancelling => w.kind = .cancelling ∨ w.kind = .cancelled
  | waitCancel _ => w.kind = .cancelling ∨ w.kind = .cancelled
  | ended => (∃ p, w.kind = .finished p) ∨ w.kind = .cancelled
  | dropped => w.kind ≠ .storing
  | panicked => False

def ReadOk (k : Kind) : FinishPc → Prop
  | .load => True
  | .test current => current.kind = .cancelling → k = .cancelling ∨ k = .cancelled
  | .loadVtable current _ => current.kind = .pending
  | .exchange current _ _ => current.kind = .pending

def Producer.Ok (k : Kind) (log : List Event) : Producer ι → Prop
  | finish _ pc => ReadOk k pc ∧ ∀ p, .finished p ∉ log
  | wake p _ _ => k = .finished p ∧ ∀ p, .finished p ∉ log
  | _ => True

structure Agrees (s : Handshake ι) : Prop where
  log : LogOk s.waker.kind s.log
  future : s.future.Ok s.waker
  producer : s.producer.Ok s.waker.kind s.log

omit [Usize] in
theorem Producer.Ok.mono {r : Producer ι} (h : r.Ok k log) (hm : Moves k k')
    (hl : ∀ p, .finished p ∈ log' → .finished p ∈ log) : r.Ok k' log' := by
  cases r with
  | finish q pc =>
    refine ⟨?_, fun p hp => h.2 p (hl p hp)⟩
    obtain ⟨h, -⟩ := h
    cases pc with
    | load => trivial
    | test current =>
      intro hc
      rcases hm with rfl | rfl | rfl | ⟨rfl, rfl⟩
      · exact h hc
      · simp [ReadOk, hc] at h
      · simp [ReadOk, hc] at h
      · exact Or.inr rfl
    | loadVtable current data => exact h
    | exchange current data vtable => exact h
  | wake q data vtable =>
    obtain ⟨rfl, h⟩ := h
    refine ⟨?_, fun p hp => h p (hl p hp)⟩
    rcases hm with rfl | hm | hm | ⟨hm, -⟩
    · rfl
    · cases hm
    · cases hm
    · cases hm
  | _ => trivial

theorem Future.Ok.finished {f : Future ι} (h : f.Ok w)
    (hk : w.kind = .pending ∨ w.kind = .storing) :
    f.Ok { w with state := .new (.finished p) } := by
  have hk' : ({ w with state := .new (.finished p) } : AtomicWaker ι).kind = .finished p :=
    AtomicWaker.kind_new_state w _
  have hrest : Kind.Rest (.finished p) := Or.inr ⟨p, rfl⟩
  cases f with
  | idle =>
    change Kind.Rest _
    rwa [hk']
  | poll tok pc =>
    change pc.Ok _
    rw [hk']
    exact AtomicWaker.PollPc.ok_finished h hk
  | startCancel self pc =>
    cases pc with
    | load =>
      change Kind.Rest _
      rwa [hk']
    | exchange current =>
      obtain ⟨hr, ht, hc⟩ := h
      have hkp : w.kind = .pending := by
        rcases hr with hr | ⟨q, hr⟩
        · exact hr
        · simp [hr] at hk
      refine ⟨hk' ▸ hrest, ht, Or.inl ?_⟩
      rcases hc with hc | hc
      · exact hc
      · exact hc.trans hkp
  | cancelling => rcases h with h | h <;> simp [h] at hk
  | waitCancel pc => rcases h with h | h <;> simp [h] at hk
  | ended => rcases h with ⟨q, h⟩ | h <;> simp [h] at hk
  | dropped => exact fun hs => by cases hk'.symm.trans hs
  | panicked => exact h

theorem Future.Ok.accepted {f : Future ι} (h : f.Ok w) (hk : w.kind = .cancelling)
    (hk' : w'.kind = .cancelled) : f.Ok w' := by
  have hr : ¬ Kind.Rest .cancelling := by simp [Kind.Rest]
  cases f with
  | idle =>
    have h : w.kind.Rest := h
    exact absurd (hk ▸ h) hr
  | poll tok pc =>
    have h : pc.Ok w.kind := h
    exact absurd (hk ▸ h) AtomicWaker.PollPc.not_ok_cancelling
  | startCancel self pc =>
    have h : w.kind.Rest := by
      cases pc with
      | load => exact h
      | exchange current => exact h.1
    exact absurd (hk ▸ h) hr
  | cancelling => exact Or.inr hk'
  | waitCancel pc => exact Or.inr hk'
  | ended => rcases h with ⟨q, h⟩ | h <;> simp [hk] at h
  | dropped => exact fun hs => by cases hk'.symm.trans hs
  | panicked => exact h

@[simp] theorem run_waker {π ρ : Type} (s : Handshake ι) (r : AtomicWaker.Step ι π ρ) :
    (s.run r).waker = r.waker := rfl

@[simp] theorem run_producer {π ρ : Type} (s : Handshake ι) (r : AtomicWaker.Step ι π ρ) :
    (s.run r).producer = s.producer := rfl

theorem LogOk.run {π ρ : Type} (h : LogOk k s.log) (r : AtomicWaker.Step ι π ρ) :
    LogOk k (s.run r).log := by
  simp only [Handshake.run]
  cases r.dropped with
  | none => exact h
  | some d => exact h.cons_free trivial (by simp) (by simp)

theorem finished_of_run {π ρ : Type} {r : AtomicWaker.Step ι π ρ}
    (h : .finished p ∈ (s.run r).log) : .finished p ∈ s.log := by
  simp only [Handshake.run] at h
  cases hd : r.dropped with
  | none => simpa [hd] using h
  | some d => simpa [hd] using h

theorem finish_effect (p spurious : Bool) {pc : FinishPc} (hok : ReadOk w.kind pc) :
    (w.finish p spurious pc).dropped = none ∧
    match (w.finish p spurious pc).flow with
    | .goto pc' => (w.finish p spurious pc).waker = w ∧ ReadOk w.kind pc'
    | .ret .cancelling =>
        (w.finish p spurious pc).waker = w ∧ (w.kind = .cancelling ∨ w.kind = .cancelled)
    | .ret (.finished _) => (w.kind = .pending ∨ w.kind = .storing) ∧
        (w.finish p spurious pc).waker = { w with state := .new (.finished p) }
    | .panic => (w.finish p spurious pc).waker = w := by
  have hload : ReadOk w.kind (.test w.state.load) := Or.inl
  cases pc with
  | load => exact ⟨rfl, rfl, hload⟩
  | test current =>
    cases current with
    | pending seq => exact ⟨rfl, rfl, rfl⟩
    | storing seq =>
      simp only [AtomicWaker.finish]
      cases hx : w.state.cmpxchgWeak (.storing seq) (.finished p) spurious with
      | none => exact ⟨rfl, rfl, hload⟩
      | some state =>
        obtain ⟨hw, rfl⟩ := AtomicWaker.kind_of_cmpxchgWeak hx
        exact ⟨rfl, Or.inr hw, rfl⟩
    | cancelling => exact ⟨rfl, rfl, hok rfl⟩
    | finished q => exact ⟨rfl, rfl⟩
    | cancelled => exact ⟨rfl, rfl⟩
  | loadVtable current data => exact ⟨rfl, rfl, hok⟩
  | exchange current data vtable =>
    obtain ⟨seq, rfl⟩ := State.kind_eq_pending hok
    simp only [AtomicWaker.finish]
    cases hx : w.state.cmpxchgWeak (.pending seq) (.finished p) spurious with
    | none => exact ⟨rfl, rfl, hload⟩
    | some state =>
      obtain ⟨hw, rfl⟩ := AtomicWaker.kind_of_cmpxchgWeak hx
      exact ⟨rfl, Or.inl hw, rfl⟩

theorem acceptCancel_effect (w : AtomicWaker ι) (pc : AcceptCancelPc ι) (spurious : Bool) :
    (w.acceptCancel spurious pc).dropped = none ∧
    match (w.acceptCancel spurious pc).flow with
    | .goto (.unpark _) =>
        w.kind = .cancelling ∧ (w.acceptCancel spurious pc).waker.kind = .cancelled
    | _ => (w.acceptCancel spurious pc).waker = w := by
  cases pc with
  | load => exact ⟨rfl, rfl⟩
  | exchange current =>
    cases current with
    | cancelling =>
      simp only [AtomicWaker.acceptCancel]
      cases w.thread with
      | none => exact ⟨rfl, rfl⟩
      | some thread =>
        cases hx : w.state.cmpxchgWeak .cancelling .cancelled spurious with
        | none => exact ⟨rfl, rfl⟩
        | some state =>
          obtain ⟨hw, rfl⟩ := AtomicWaker.kind_of_cmpxchgWeak hx
          exact ⟨rfl, hw, AtomicWaker.kind_new_state w _⟩
    | _ => exact ⟨rfl, rfl⟩
  | unpark thread => exact ⟨rfl, rfl⟩

theorem Agrees.init : Agrees (init : Handshake ι) where
  log := ⟨by simp [Handshake.init], by simp [Handshake.init], by simp [Handshake.init],
    by simp [Handshake.init]⟩
  future := Or.inl AtomicWaker.kind_new
  producer := trivial

namespace Agrees

theorem runPoll (h : Agrees s) (tok : ℕ) {pc : PollPc} (hok : pc.Ok s.waker.kind)
    (spurious : Bool) : Agrees (s.runPoll tok (s.waker.poll tok spurious pc)) := by
  obtain ⟨-, hspec⟩ := AtomicWaker.poll_spec tok spurious hok
  simp only [Handshake.runPoll]
  cases hflow : (s.waker.poll tok spurious pc).flow with
  | goto pc' =>
    rw [hflow] at hspec
    obtain ⟨hok', hk⟩ := hspec
    have hm : Moves s.waker.kind (s.waker.poll tok spurious pc).waker.kind := by
      rcases hk with hk | ⟨hk, -⟩
      · exact Or.inl hk
      · exact Or.inr (Or.inl hk)
    have hnc : (s.waker.poll tok spurious pc).waker.kind ≠ .cancelled := by
      intro hc
      rw [hc] at hok'
      cases pc' <;> simp [PollPc.Ok, Kind.Rest] at hok'
    exact ⟨(h.log.moves hm hnc).run _, hok', h.producer.mono hm fun _ => finished_of_run⟩
  | ret val =>
    rw [hflow] at hspec
    cases val with
    | pending =>
      obtain ⟨hk, hk'⟩ := hspec
      have hm : Moves s.waker.kind (s.waker.poll tok spurious pc).waker.kind :=
        Or.inr (Or.inr (Or.inl hk))
      have hlog := (h.log.moves hm (by simp [hk'])).run (s.waker.poll tok spurious pc)
      refine ⟨hlog.cons trivial fun e he => ?_, Or.inl hk', ?_⟩
      · cases e with
        | finished p => exact absurd he (hlog.not_finished (by simp [hk']))
        | _ => trivial
      · exact h.producer.mono hm fun p hp => finished_of_run (by simpa [logEvent] using hp)
    | ready p =>
      obtain ⟨hk, hw⟩ := hspec
      have hm : Moves s.waker.kind (s.waker.poll tok spurious pc).waker.kind := Or.inl (by rw [hw])
      have hk' : (s.waker.poll tok spurious pc).waker.kind = .finished p := by rw [hw, hk]
      have hlog := (h.log.moves hm (by simp [hk'])).run (s.waker.poll tok spurious pc)
      refine ⟨hlog.cons_free hk' (by simp) (by simp), Or.inr ⟨p, hk'⟩, ?_⟩
      exact h.producer.mono hm fun p hp => finished_of_run (by simpa [logEvent] using hp)
  | panic =>
    rw [hflow] at hspec
    exact hspec.elim

theorem runStartCancel (h : Agrees s) {self : ι} {pc : StartCancelPc} (hok : pc.Ok s.waker self)
    (spurious : Bool) :
    Agrees (s.runStartCancel self (s.waker.startCancel self spurious pc)) := by
  have hspec := AtomicWaker.startCancel_spec spurious hok
  simp only [Handshake.runStartCancel]
  cases hflow : (s.waker.startCancel self spurious pc).flow with
  | goto pc' =>
    rw [hflow] at hspec
    obtain ⟨hok', hk⟩ := hspec
    have hm : Moves s.waker.kind (s.waker.startCancel self spurious pc).waker.kind := Or.inl hk
    have hrest : s.waker.kind.Rest := by
      cases pc with
      | load => exact hok
      | exchange current => exact hok.1
    have hnc : (s.waker.startCancel self spurious pc).waker.kind ≠ .cancelled := by
      rw [hk]
      rcases hrest with hr | ⟨p, hr⟩ <;> simp [hr]
    exact ⟨(h.log.moves hm hnc).run _, hok', h.producer.mono hm fun _ => finished_of_run⟩
  | ret val =>
    rw [hflow] at hspec
    cases val with
    | cancelling =>
      obtain ⟨hk, hk', -⟩ := hspec
      have hm : Moves s.waker.kind (s.waker.startCancel self spurious pc).waker.kind :=
        Or.inr (Or.inl hk)
      have hlog := (h.log.moves hm (by simp [hk'])).run (s.waker.startCancel self spurious pc)
      refine ⟨hlog.cons_free (Or.inl hk') (by simp) (by simp), Or.inl hk', ?_⟩
      exact h.producer.mono hm fun p hp => finished_of_run (by simpa [logEvent] using hp)
    | finished p =>
      obtain ⟨hk, hw⟩ := hspec
      have hm : Moves s.waker.kind (s.waker.startCancel self spurious pc).waker.kind :=
        Or.inl (by rw [hw])
      have hk' : (s.waker.startCancel self spurious pc).waker.kind = .finished p := by rw [hw, hk]
      have hlog := (h.log.moves hm (by simp [hk'])).run (s.waker.startCancel self spurious pc)
      refine ⟨hlog.cons_free hk' (by simp) (by simp), Or.inl ⟨p, hk'⟩, ?_⟩
      exact h.producer.mono hm fun p hp => finished_of_run (by simpa [logEvent] using hp)
  | panic =>
    rw [hflow] at hspec
    exact hspec.elim

theorem runWaitCancel (h : Agrees s) (pc : WaitCancelPc)
    (hk : s.waker.kind = .cancelling ∨ s.waker.kind = .cancelled) :
    Agrees (s.runWaitCancel (s.waker.waitCancel pc)) := by
  cases pc with
  | load =>
    rcases hk with hk | hk
    · rw [AtomicWaker.waitCancel_cancelling hk]
      exact ⟨h.log, Or.inl hk, h.producer⟩
    · rw [AtomicWaker.waitCancel_cancelled hk]
      refine ⟨h.log.cons_free hk (by simp) (by simp), Or.inr hk, ?_⟩
      exact h.producer.mono (Or.inl rfl) fun p hp => by
        simpa [Handshake.runWaitCancel, logEvent, run] using hp
  | park => exact ⟨h.log, hk, h.producer⟩

/-- A waker in state `Storing` is being polled. -/
theorem storing (h : Agrees s) (hk : s.waker.kind = .storing) :
    ∃ tok pc, s.future = .poll tok pc ∧ pc.Stores := by
  have hok := h.future
  have hr : ¬ s.waker.kind.Rest := by simp [hk, Kind.Rest]
  cases hf : s.future with
  | poll tok pc =>
    refine ⟨tok, pc, rfl, ?_⟩
    rw [hf] at hok
    cases pc with
    | load => exact absurd hok hr
    | start current => exact absurd hok.1 hr
    | _ => trivial
  | idle =>
    rw [hf] at hok
    exact absurd hok hr
  | startCancel self pc =>
    rw [hf] at hok
    cases pc with
    | load => exact absurd hok hr
    | exchange current => exact absurd hok.1 hr
  | cancelling =>
    rw [hf] at hok
    rcases hok with hc | hc <;> cases hk.symm.trans hc
  | waitCancel pc =>
    rw [hf] at hok
    rcases hok with hc | hc <;> cases hk.symm.trans hc
  | ended =>
    rw [hf] at hok
    rcases hok with ⟨q, hc⟩ | hc <;> cases hk.symm.trans hc
  | dropped =>
    rw [hf] at hok
    exact absurd hk hok
  | panicked =>
    rw [hf] at hok
    exact hok.elim

/-- The destructor runs in one of the states it expects. -/
theorem droppable (h : Agrees s) (hf : s.future = .idle ∨ s.future = .ended) :
    s.waker.kind.Rest ∨ s.waker.kind = .cancelled := by
  have hok := h.future
  rcases hf with hf | hf
  · rw [hf] at hok
    exact Or.inl hok
  · rw [hf] at hok
    rcases hok with hp | hc
    · exact Or.inl (Or.inr hp)
    · exact Or.inr hc

theorem runDrop (h : Agrees s) (hf : s.future = .idle ∨ s.future = .ended) :
    Agrees (s.runDrop (s.waker.drop false)) := by
  have hk := h.droppable hf
  obtain ⟨hw, hflow⟩ := AtomicWaker.drop_spec false hk
  simp only [Handshake.runDrop, hflow]
  have hlog : LogOk (s.waker.drop false).waker.kind (s.run (s.waker.drop false)).log := by
    rw [hw]
    exact h.log.run _
  have hm : Moves s.waker.kind (s.waker.drop false).waker.kind := Or.inl (by rw [hw])
  have hns : (s.waker.drop false).waker.kind ≠ .storing := by
    rw [hw]
    rcases hk with (hk | ⟨p, hk⟩) | hk <;> simp [hk]
  exact ⟨hlog, hns, h.producer.mono hm fun _ => finished_of_run⟩

theorem runFinish (h : Agrees s) (p : Bool) {pc : FinishPc} (hok : ReadOk s.waker.kind pc)
    (hn : ∀ q, .finished q ∉ s.log) (spurious : Bool) :
    Agrees (s.runFinish p (s.waker.finish p spurious pc)) := by
  obtain ⟨hd, hspec⟩ := finish_effect p spurious hok
  have hrun : s.run (s.waker.finish p spurious pc) =
      { s with waker := (s.waker.finish p spurious pc).waker } := by
    rw [run, hd]
  simp only [Handshake.runFinish, hrun]
  cases hflow : (s.waker.finish p spurious pc).flow with
  | goto pc' =>
    rw [hflow] at hspec
    obtain ⟨hw, hok'⟩ := hspec
    rw [hw]
    cases pc' <;> exact ⟨h.log, h.future, hok', hn⟩
  | ret val =>
    rw [hflow] at hspec
    cases val with
    | cancelling =>
      obtain ⟨hw, hk⟩ := hspec
      rw [hw]
      exact ⟨h.log.cons_free hk (by simp) (by simp), h.future, trivial⟩
    | finished wake =>
      obtain ⟨hk, hw⟩ := hspec
      have hk' : (s.waker.finish p spurious pc).waker.kind = .finished p := by
        rw [hw, AtomicWaker.kind_new_state]
        rfl
      have hm : Moves s.waker.kind (s.waker.finish p spurious pc).waker.kind :=
        Or.inr (hk.imp id Or.inl)
      have hlog := (h.log.moves hm (by simp [hk'])).cons_free
        (show (Event.exchanged p wake).Allowed _ from hk') (by simp) (by simp)
      have hfuture : s.future.Ok (s.waker.finish p spurious pc).waker := by
        rw [hw]
        exact h.future.finished hk
      cases wake with
      | none =>
        refine ⟨hlog.cons hk' fun e he => ?_, hfuture, trivial⟩
        cases e with
        | finished q => exact absurd he (by simpa using hn q)
        | _ => trivial
      | some d => exact ⟨hlog, hfuture, hk', by simpa [logEvent] using hn⟩
  | panic =>
    rw [hflow] at hspec
    rw [hspec]
    exact ⟨h.log, h.future, trivial⟩

theorem wake (h : Agrees s) {p : Bool} {data vtable : ℕ} (hp : s.producer = .wake p data vtable) :
    Agrees { (s.logEvent (.woken data vtable)).logEvent (.finished p) with producer := .idle } := by
  have hok := h.producer
  rw [hp] at hok
  obtain ⟨hk, hn⟩ := hok
  have hlog : LogOk s.waker.kind (.woken data vtable :: s.log) :=
    h.log.cons_free trivial (by simp) (by simp)
  refine ⟨hlog.cons hk fun e he => ?_, h.future, trivial⟩
  cases e with
  | finished q => exact absurd he (by simpa using hn q)
  | _ => trivial

theorem runAcceptCancel (h : Agrees s) (pc : AcceptCancelPc ι) (spurious : Bool) :
    Agrees (s.runAcceptCancel (s.waker.acceptCancel spurious pc)) := by
  obtain ⟨hd, hspec⟩ := acceptCancel_effect s.waker pc spurious
  have hrun : s.run (s.waker.acceptCancel spurious pc) =
      { s with waker := (s.waker.acceptCancel spurious pc).waker } := by
    rw [run, hd]
  simp only [Handshake.runAcceptCancel, hrun]
  cases hflow : (s.waker.acceptCancel spurious pc).flow with
  | goto pc' =>
    rw [hflow] at hspec
    cases pc' with
    | unpark thread =>
      obtain ⟨hk, hk'⟩ := hspec
      have hlog : LogOk .cancelled (.accepted :: s.log) := (hk ▸ h.log).accept
      rw [← hk'] at hlog
      exact ⟨hlog, h.future.accepted hk hk', trivial⟩
    | load =>
      rw [hspec]
      exact ⟨h.log, h.future, trivial⟩
    | exchange current =>
      rw [hspec]
      exact ⟨h.log, h.future, trivial⟩
  | ret val =>
    rw [hflow] at hspec
    rw [hspec]
    exact ⟨h.log, h.future, trivial⟩
  | panic =>
    rw [hflow] at hspec
    rw [hspec]
    exact ⟨h.log, h.future, trivial⟩

theorem next (h : Agrees s) {act : Act ι} (hn : s.next act = some s') : Agrees s' := by
  have hfuture := h.future
  have hproducer := h.producer
  cases act with
  | poll =>
    simp only [Handshake.next] at hn
    split at hn
    · next hf =>
      rw [hf] at hfuture
      obtain rfl := Option.some.inj hn
      refine ⟨h.log.cons_free trivial (by simp) (by simp), hfuture, ?_⟩
      exact h.producer.mono (Or.inl rfl) fun p hp => by simpa [logEvent] using hp
    · cases hn
  | startCancel self =>
    simp only [Handshake.next] at hn
    split at hn
    · next hf =>
      rw [hf] at hfuture
      obtain rfl := Option.some.inj hn
      exact ⟨h.log, hfuture, h.producer⟩
    · cases hn
  | waitCancel =>
    simp only [Handshake.next] at hn
    split at hn
    · next hf =>
      rw [hf] at hfuture
      obtain rfl := Option.some.inj hn
      exact ⟨h.log, hfuture, h.producer⟩
    · cases hn
  | finish p =>
    simp only [Handshake.next] at hn
    split at hn
    · cases hn
    · split at hn
      · next hlog =>
        obtain rfl := Option.some.inj hn
        refine ⟨h.log, h.future, trivial, fun q hq => ?_⟩
        simp only [Bool.and_eq_true, Bool.not_eq_true', List.any_eq_false] at hlog
        exact hlog.2 _ hq rfl
      · cases hn
    · cases hn
  | acceptCancel =>
    simp only [Handshake.next] at hn
    split at hn
    · cases hn
    · split at hn
      · obtain rfl := Option.some.inj hn
        exact ⟨h.log, h.future, trivial⟩
      · cases hn
    · cases hn
  | drop =>
    simp only [Handshake.next] at hn
    split at hn
    · next hd =>
      obtain rfl := Option.some.inj hn
      apply h.runDrop
      cases hf : s.future with
      | idle => exact Or.inl rfl
      | ended => exact Or.inr rfl
      | _ => simp [hf, Droppable] at hd
    · cases hn
  | future spurious =>
    simp only [Handshake.next, stepFuture] at hn
    split at hn
    · next tok pc hf =>
      rw [hf] at hfuture
      obtain rfl := Option.some.inj hn
      exact h.runPoll tok hfuture spurious
    · next self pc hf =>
      rw [hf] at hfuture
      obtain rfl := Option.some.inj hn
      exact h.runStartCancel hfuture spurious
    · next pc hf =>
      rw [hf] at hfuture
      obtain rfl := Option.some.inj hn
      exact h.runWaitCancel pc hfuture
    · cases hn
  | producer spurious =>
    simp only [Handshake.next, stepProducer] at hn
    split at hn
    · next p pc hp =>
      rw [hp] at hproducer
      obtain rfl := Option.some.inj hn
      exact h.runFinish p hproducer.1 hproducer.2 spurious
    · next p data vtable hp =>
      obtain rfl := Option.some.inj hn
      exact h.wake hp
    · next pc hp =>
      obtain rfl := Option.some.inj hn
      exact h.runAcceptCancel pc spurious
    · cases hn

end Agrees

theorem Reachable.agrees (h : Reachable s) : Agrees s :=
  Runs.Steps.invariant (fun _ _ _ ht _ hn => ht.next hn) Agrees.init h

/-- Once `finish` has returned, `start_cancel` reports what it was called with. -/
theorem Agrees.start_cancel_later (h : Agrees s) (hp : .finished p ∈ s.log)
    (hf : s.future = .idle) (self : ι) (b b' : Bool) :
    ∃ s', Runs.exec Handshake.next [.startCancel self, .future b, .future b'] s = some s' ∧
      s'.log = .cancelFinished p :: s.log := by
  have hload : s.waker.state.load = .finished p := State.kind_eq_finished (h.log.allowed _ hp)
  simp [Runs.exec, Handshake.next, hf, stepFuture, Handshake.runStartCancel,
    AtomicWaker.startCancel, hload, run, logEvent]

omit [Usize] in
theorem LogOk.countP_finished (h : LogOk k log) : log.countP Event.isFinished ≤ 1 := by
  have horder := h.order
  clear h
  induction log with
  | nil => simp
  | cons e log ih =>
    obtain ⟨hfirst, hrest⟩ := List.pairwise_cons.mp horder
    cases e with
    | finished q =>
      have hz : log.countP Event.isFinished = 0 := by
        rw [List.countP_eq_zero]
        intro e he
        cases e with
        | finished q' => exact False.elim (hfirst _ he)
        | _ => simp [Event.isFinished]
      rw [List.countP_cons_of_pos (by rfl), hz]
    | _ => exact ih hrest

omit [Usize] in
/-- A poll that has returned `Pending` did so before `finish` returned. -/
theorem LogOk.pending_before (h : LogOk k log) {l₁ l₂ : List Event} {tok : ℕ}
    (hl : log = l₁ ++ .pending tok :: l₂) : .finished p ∉ l₂ := by
  intro hp
  have horder := h.order
  rw [hl, List.pairwise_append] at horder
  exact (List.pairwise_cons.mp horder.2.1).1 _ hp

/-- At most one `finish` returns `Finished`, and then the future side observes its outcome and
nothing else. When `start_cancel` returns `Cancelling`, no `finish` returns `Finished`, and
`wait_cancel` returns only after the cancellation was accepted. -/
theorem outcome_agreed (h : Reachable s) :
    s.log.countP Event.isFinished ≤ 1 ∧ s.future ≠ .panicked ∧
    (∀ p, .finished p ∈ s.log →
      (∀ tok q, .ready tok q ∈ s.log → q = p) ∧
      (∀ l₁ l₂ tok, s.log = l₁ ++ .pending tok :: l₂ → .finished p ∉ l₂) ∧
      (∀ q, .cancelFinished q ∈ s.log → q = p) ∧ .cancelling ∉ s.log ∧
      (s.future = .idle → ∀ self b b', ∃ s',
        Runs.exec Handshake.next [.startCancel self, .future b, .future b'] s = some s' ∧
          s'.log = .cancelFinished p :: s.log)) ∧
    (.cancelling ∈ s.log → ∀ p, .finished p ∉ s.log) ∧
    ∀ l₁ l₂, s.log = l₁ ++ .waited :: l₂ → .accepted ∈ l₂ := by
  have ha := h.agrees
  have only {p q : Bool} (hp : s.waker.kind = .finished p) (hq : s.waker.kind = .finished q) :
      q = p := Kind.finished.inj (hq.symm.trans hp)
  have both (hc : .cancelling ∈ s.log) (p : Bool) : .finished p ∉ s.log := by
    intro hp
    have hk : s.waker.kind = .finished p := ha.log.allowed _ hp
    rcases ha.log.allowed _ hc with hc | hc <;> cases hk.symm.trans hc
  refine ⟨ha.log.countP_finished, ?_, fun p hp => ?_, both, ha.log.waited⟩
  · intro hf
    have hok := ha.future
    rw [hf] at hok
    exact hok
  · have hk : s.waker.kind = .finished p := ha.log.allowed _ hp
    exact ⟨fun tok q hq => only hk (ha.log.allowed _ hq),
      fun l₁ l₂ tok hl => ha.log.pending_before hl,
      fun q hq => only hk (ha.log.allowed _ hq), fun hc => both hc p hp,
      ha.start_cancel_later hp⟩

end Handshake

section Example

attribute [local instance] usize64

/-- The second poll stores its waker while `finish(true)` succeeds. -/
def finishedDuringStoring : Handshake Unit :=
  Runs.final Handshake.next
    (.poll :: List.replicate 7 (.future false) ++ .poll :: List.replicate 2 (.future false) ++
      .finish true :: List.replicate 2 (.producer false) ++ List.replicate 6 (.future false) ++
      .startCancel () :: List.replicate 2 (.future false))
    .init (by decide +kernel)

theorem outcome_agreed_during_storing :
    .ready 2 true ∈ finishedDuringStoring.log ∧ .ready 2 false ∉ finishedDuringStoring.log ∧
      .cancelFinished false ∉ finishedDuringStoring.log := by
  have hr : Handshake.Reachable finishedDuringStoring := Runs.reaches_final _
  have hp : .finished true ∈ finishedDuringStoring.log := by decide +kernel
  obtain ⟨hready, -, hcancel, -⟩ := (Handshake.outcome_agreed hr).2.2.1 true hp
  exact ⟨by decide +kernel, fun h => Bool.noConfusion (hready 2 false h),
    fun h => Bool.noConfusion (hcancel false h)⟩

end Example

end WeightedSemaphore
