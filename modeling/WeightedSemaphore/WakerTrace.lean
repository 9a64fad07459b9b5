import WeightedSemaphore.WakerTokens

/-!
# Which waker is woken

A `finish` that succeeds in state `Pending` wakes the waker registered last. One that succeeds while
a poll is storing wakes nothing: that poll finds out itself, returns `Ready` and drops its clone.
-/

namespace WeightedSemaphore

open AtomicWaker (PollPc PollResult FinishPc FinishResult StartCancelPc WaitCancelPc AcceptCancelPc)
open Waker (State Kind)

namespace Handshake

variable {log es l₁ l₂ : List Event} {e x : Event} {tok d v : ℕ} {p : Bool}

theorem split_append (es : List Event) (hx : x ∉ es) (h : es ++ log = l₁ ++ x :: l₂) :
    ∃ l, l₁ = es ++ l ∧ log = l ++ x :: l₂ := by
  induction es generalizing l₁ with
  | nil => exact ⟨l₁, rfl, h⟩
  | cons e es ih =>
    cases l₁ with
    | nil =>
      obtain ⟨rfl, -⟩ := List.cons.inj h
      exact absurd List.mem_cons_self hx
    | cons e' l₁ =>
      obtain ⟨rfl, htail⟩ := List.cons.inj h
      obtain ⟨l, rfl, hl⟩ := ih (fun hmem => hx (List.mem_cons_of_mem _ hmem)) htail
      exact ⟨l, rfl, hl⟩

/-- An event of the log is the latest, or was there before. -/
theorem split_cons (h : e :: log = l₁ ++ x :: l₂) :
    l₁ = [] ∧ e = x ∧ log = l₂ ∨ ∃ l, l₁ = e :: l ∧ log = l ++ x :: l₂ := by
  cases l₁ with
  | nil =>
    obtain ⟨rfl, rfl⟩ := List.cons.inj h
    exact Or.inl ⟨rfl, rfl, rfl⟩
  | cons e' l =>
    obtain ⟨rfl, htail⟩ := List.cons.inj h
    exact Or.inr ⟨l, rfl, htail⟩

def Event.Quiet : Event → Prop
  | exchanged _ _ => False
  | woken _ _ => False
  | _ => True

variable [Usize] {ι : Type} {s s' : Handshake ι}

/-- The poll of `tok` is storing its waker, or has returned `Ready(p)` and dropped it. -/
def Answers (f : Future ι) (log : List Event) (tok : ℕ) (p : Bool) : Prop :=
  (∃ pc, f = .poll tok pc ∧ pc.Stores) ∨ .ready tok p ∈ log ∧ .dropped tok tok ∈ log

structure Traced (s : Handshake ι) : Prop where
  polling : ∀ tok pc, s.future = .poll tok pc → polling s.log = some tok
  taken : ∀ l₁ l₂ p d v, s.log = l₁ ++ .exchanged p (some (d, v)) :: l₂ → d = v ∧ last l₂ = some d
  waking : ∀ p d v, s.producer = .wake p d v → .exchanged p (some (d, v)) ∈ s.log
  woken : ∀ d v, .woken d v ∈ s.log → ∃ p, .exchanged p (some (d, v)) ∈ s.log
  alone : ∀ p q d, .exchanged p none ∈ s.log → .exchanged q (some d) ∉ s.log
  stored : ∀ l₁ l₂ p, s.log = l₁ ++ .exchanged p none :: l₂ →
    ∃ tok, Handshake.polling l₂ = some tok ∧ .pending tok ∉ l₁ ∧ Answers s.future l₁ tok p

theorem Traced.init : Traced (init : Handshake ι) := by
  constructor <;> simp [Handshake.init]

namespace Traced

theorem keep (h : Traced s) (es : List Event) (hlog : s'.log = es ++ s.log)
    (hes : ∀ e ∈ es, e.Quiet)
    (hpoll : ∀ tok pc, s'.future = .poll tok pc → Handshake.polling s'.log = some tok)
    (hwake : ∀ p d v, s'.producer = .wake p d v → s.producer = .wake p d v)
    (hpend : ∀ p tok, .exchanged p none ∈ s.log → .pending tok ∉ es)
    (hans : ∀ p tok pc, .exchanged p none ∈ s.log → s.future = .poll tok pc → pc.Stores →
      Answers s'.future es tok p) : Traced s' := by
  have old {p : Bool} {w : Option (ℕ × ℕ)} (hx : .exchanged p w ∈ s'.log) :
      .exchanged p w ∈ s.log := by
    rw [hlog] at hx
    exact (List.mem_append.mp hx).resolve_left (hes _)
  have new {e : Event} (he : e ∈ s.log) : e ∈ s'.log := hlog ▸ List.mem_append_right _ he
  constructor
  case polling => exact hpoll
  case taken =>
    intro l₁ l₂ p d v hl
    rw [hlog] at hl
    obtain ⟨l, -, hl⟩ := split_append es (hes (.exchanged p (some (d, v)))) hl
    exact h.taken l l₂ p d v hl
  case waking => exact fun p d v hp => new (h.waking p d v (hwake p d v hp))
  case woken =>
    intro d v hw
    rw [hlog] at hw
    obtain ⟨p, hp⟩ := h.woken d v ((List.mem_append.mp hw).resolve_left (hes _))
    exact ⟨p, new hp⟩
  case alone => exact fun p q d hp hq => h.alone p q d (old hp) (old hq)
  case stored =>
    intro l₁ l₂ p hl
    rw [hlog] at hl
    obtain ⟨l, rfl, hold⟩ := split_append es (hes (.exchanged p none)) hl
    have hx : .exchanged p none ∈ s.log := by simp [hold]
    obtain ⟨tok, hpl, hn, ha⟩ := h.stored l l₂ p hold
    refine ⟨tok, hpl, ?_, ?_⟩
    · rw [List.mem_append]
      exact not_or.mpr ⟨hpend p tok hx, hn⟩
    · rcases ha with ⟨pc, hf, hpc⟩ | ⟨hr, hd⟩
      · rcases hans p tok pc hx hf hpc with ha | ⟨hr, hd⟩
        · exact Or.inl ha
        · exact Or.inr ⟨List.mem_append_left _ hr, List.mem_append_left _ hd⟩
      · exact Or.inr ⟨List.mem_append_right _ hr, List.mem_append_right _ hd⟩

/-- A step of the producer that logs quiet events only. -/
theorem keep_future (h : Traced s) (es : List Event) (hlog : s'.log = es ++ s.log)
    (hes : ∀ e ∈ es, e.Quiet ∧ ∀ tok, e ≠ .pending tok) (hf : s'.future = s.future)
    (hpoll : Handshake.polling s'.log = Handshake.polling s.log)
    (hwake : ∀ p d v, s'.producer = .wake p d v → s.producer = .wake p d v) : Traced s' := by
  refine h.keep es hlog (fun e he => (hes e he).1) (fun tok pc hf' => ?_) hwake ?_ ?_
  · rw [hpoll]
    exact h.polling tok pc (hf ▸ hf')
  · exact fun p tok _ hp => (hes _ hp).2 tok rfl
  · exact fun p tok pc _ hf' hpc => Or.inl ⟨pc, hf.trans hf', hpc⟩

def drops (d : Option (ℕ × ℕ)) : List Event := d.toList.map fun d => .dropped d.1 d.2

theorem run_log {π ρ : Type} (s : Handshake ι) (r : AtomicWaker.Step ι π ρ) :
    (s.run r).log = drops r.dropped ++ s.log := by
  simp only [run]
  cases r.dropped <;> rfl

omit [Usize] in
theorem polling_drops (d : Option (ℕ × ℕ)) (log : List Event) :
    Handshake.polling (drops d ++ log) = Handshake.polling log := by
  cases d <;> rfl

omit [Usize] in
theorem quiet_drops {d : Option (ℕ × ℕ)} (he : e ∈ drops d) :
    e.Quiet ∧ ∀ tok, e ≠ .pending tok := by
  cases d with
  | none => cases he
  | some d =>
    obtain rfl := List.mem_singleton.mp he
    exact ⟨trivial, by simp⟩

theorem runPoll (h : Traced s) (ha : Agrees s) {tok : ℕ} {pc : PollPc}
    (hf : s.future = .poll tok pc) (hst : pc.Stored s.waker tok) (spurious : Bool) :
    Traced (s.runPoll tok (s.waker.poll tok spurious pc)) := by
  have hok : pc.Ok s.waker.kind := by
    have hok := ha.future
    rw [hf] at hok
    exact hok
  obtain ⟨-, hspec⟩ := AtomicWaker.poll_spec tok spurious hok
  have hstored := AtomicWaker.poll_stored spurious hok hst
  have hkind {p : Bool} (hx : .exchanged p none ∈ s.log) : s.waker.kind = .finished p :=
    ha.log.allowed (.exchanged p none) hx
  simp only [Handshake.runPoll]
  cases hflow : (s.waker.poll tok spurious pc).flow with
  | goto pc' =>
    rw [hflow] at hstored
    dsimp only
    apply h.keep (drops (s.waker.poll tok spurious pc).dropped)
    case hlog => exact run_log _ _
    case hes => exact fun e he => (quiet_drops he).1
    case hpoll =>
      intro tok' pc'' hf'
      obtain ⟨rfl, -⟩ := Future.poll.inj hf'
      rw [run_log, polling_drops]
      exact h.polling tok pc hf
    case hwake => exact fun p d v hp => hp
    case hpend => exact fun p tok' _ hp => (quiet_drops hp).2 tok' rfl
    case hans =>
      intro p tok' pc'' _ hf' hpc
      obtain ⟨rfl, rfl⟩ := Future.poll.inj (hf.symm.trans hf')
      exact Or.inl ⟨pc', rfl, hstored.2.1 hpc⟩
  | ret val =>
    rw [hflow] at hspec
    cases val with
    | pending =>
      obtain ⟨hk, -⟩ := hspec
      have hnone {p : Bool} (hx : .exchanged p none ∈ s.log) : False := by
        cases hk.symm.trans (hkind hx)
      dsimp only
      apply h.keep (.pending tok :: drops (s.waker.poll tok spurious pc).dropped)
      case hlog => exact congrArg _ (run_log _ _)
      case hes =>
        intro e he
        rcases List.mem_cons.mp he with rfl | he
        · trivial
        · exact (quiet_drops he).1
      case hpoll => exact fun tok' pc' hf' => by cases hf'
      case hwake => exact fun p d v hp => hp
      case hpend => exact fun p tok' hx => (hnone hx).elim
      case hans => exact fun p tok' pc' hx => (hnone hx).elim
    | ready q =>
      obtain ⟨hk, -⟩ := hspec
      have hd := AtomicWaker.dropped_of_ready hflow
      dsimp only
      apply h.keep (.ready tok q :: drops (s.waker.poll tok spurious pc).dropped)
      case hlog => exact congrArg _ (run_log _ _)
      case hes =>
        intro e he
        rcases List.mem_cons.mp he with rfl | he
        · trivial
        · exact (quiet_drops he).1
      case hpoll => exact fun tok' pc' hf' => by cases hf'
      case hwake => exact fun p d v hp => hp
      case hpend =>
        intro p tok' _ hp
        exact (quiet_drops ((List.mem_cons.mp hp).resolve_left (by simp))).2 tok' rfl
      case hans =>
        intro p tok' pc' hx hf' _
        obtain ⟨rfl, rfl⟩ := Future.poll.inj (hf.symm.trans hf')
        obtain rfl : q = p := Kind.finished.inj (hk.symm.trans (hkind hx))
        rw [hd]
        exact Or.inr ⟨List.mem_cons_self, by simp [drops]⟩
  | panic =>
    rw [hflow] at hspec
    exact hspec.elim

theorem keep_idle (h : Traced s) (es : List Event) (hlog : s'.log = es ++ s.log)
    (hes : ∀ e ∈ es, e.Quiet ∧ ∀ tok, e ≠ .pending tok) (hf : ∀ tok pc, s.future ≠ .poll tok pc)
    (hf' : ∀ tok pc, s'.future ≠ .poll tok pc) (hp : s'.producer = s.producer) : Traced s' :=
  h.keep es hlog (fun e he => (hes e he).1) (fun tok pc h' => absurd h' (hf' tok pc))
    (fun _ _ _ h' => hp ▸ h') (fun _ tok _ h' => (hes _ h').2 tok rfl)
    (fun _ tok pc _ h' => absurd h' (hf tok pc))

omit [Usize] in
theorem quiet_cons {d : Option (ℕ × ℕ)} (hx : x.Quiet) (hp : ∀ tok, x ≠ .pending tok)
    (he : e ∈ x :: drops d) : e.Quiet ∧ ∀ tok, e ≠ .pending tok := by
  rcases List.mem_cons.mp he with rfl | he
  · exact ⟨hx, hp⟩
  · exact quiet_drops he

theorem runStartCancel (h : Traced s) {self : ι} {pc : StartCancelPc}
    (hf : s.future = .startCancel self pc) (spurious : Bool) :
    Traced (s.runStartCancel self (s.waker.startCancel self spurious pc)) := by
  have hpoll (tok : ℕ) (pc' : PollPc) : s.future ≠ .poll tok pc' := by simp [hf]
  simp only [Handshake.runStartCancel]
  cases (s.waker.startCancel self spurious pc).flow with
  | goto pc' => exact h.keep_idle _ (run_log _ _) (fun e => quiet_drops) hpoll (by simp) rfl
  | ret val =>
    cases val with
    | cancelling =>
      exact h.keep_idle (_ :: _) (congrArg _ (run_log _ _))
        (fun e => quiet_cons trivial (by simp)) hpoll (by simp) rfl
    | finished p =>
      exact h.keep_idle (_ :: _) (congrArg _ (run_log _ _))
        (fun e => quiet_cons trivial (by simp)) hpoll (by simp) rfl
  | panic => exact h.keep_idle _ (run_log _ _) (fun e => quiet_drops) hpoll (by simp) rfl

theorem runWaitCancel (h : Traced s) {pc : WaitCancelPc} (hf : s.future = .waitCancel pc) :
    Traced (s.runWaitCancel (s.waker.waitCancel pc)) := by
  have hpoll (tok : ℕ) (pc' : PollPc) : s.future ≠ .poll tok pc' := by simp [hf]
  simp only [Handshake.runWaitCancel]
  cases (s.waker.waitCancel pc).flow with
  | goto pc' => exact h.keep_idle _ (run_log _ _) (fun e => quiet_drops) hpoll (by simp) rfl
  | ret val =>
    exact h.keep_idle (_ :: _) (congrArg _ (run_log _ _))
      (fun e => quiet_cons trivial (by simp)) hpoll (by simp) rfl
  | panic => exact h.keep_idle _ (run_log _ _) (fun e => quiet_drops) hpoll (by simp) rfl

theorem runDrop (h : Traced s) (hpoll : ∀ tok pc, s.future ≠ .poll tok pc) :
    Traced (s.runDrop (s.waker.drop false)) := by
  simp only [Handshake.runDrop]
  cases (s.waker.drop false).flow <;>
    exact h.keep_idle _ (run_log _ _) (fun e => quiet_drops) hpoll (by simp) rfl

theorem runAcceptCancel (h : Traced s) (pc : AcceptCancelPc ι) (spurious : Bool) :
    Traced (s.runAcceptCancel (s.waker.acceptCancel spurious pc)) := by
  have hpoll : Handshake.polling (s.run (s.waker.acceptCancel spurious pc)).log =
      Handshake.polling s.log := by rw [run_log, polling_drops]
  simp only [Handshake.runAcceptCancel]
  cases (s.waker.acceptCancel spurious pc).flow with
  | goto pc' =>
    cases pc' with
    | unpark thread =>
      exact h.keep_future (_ :: _) (congrArg _ (run_log _ _))
        (fun e => quiet_cons trivial (by simp)) rfl hpoll (by simp)
    | load => exact h.keep_future _ (run_log _ _) (fun e => quiet_drops) rfl hpoll (by simp)
    | exchange current =>
      exact h.keep_future _ (run_log _ _) (fun e => quiet_drops) rfl hpoll (by simp)
  | ret val => exact h.keep_future _ (run_log _ _) (fun e => quiet_drops) rfl hpoll (by simp)
  | panic => exact h.keep_future _ (run_log _ _) (fun e => quiet_drops) rfl hpoll (by simp)

theorem exchange (h : Traced s) (hnew : ∀ p wake, .exchanged p wake ∉ s.log)
    (wake : Option (ℕ × ℕ)) (hfuture : s'.future = s.future)
    (hlog : s'.log = .exchanged p wake :: s.log ∨
      s'.log = .finished p :: .exchanged p wake :: s.log)
    (hprod : ∀ q d v, s'.producer = .wake q d v → q = p ∧ wake = some (d, v))
    (hwake : ∀ d v, wake = some (d, v) → d = v ∧ last s.log = some d)
    (hnone : wake = none → ∃ tok pc, s.future = .poll tok pc ∧ pc.Stores) : Traced s' := by
  have hmem {e : Event} (he : e ∈ s'.log) (hf : e ≠ .finished p) :
      e = .exchanged p wake ∨ e ∈ s.log := by
    rcases hlog with hlog | hlog
    · simpa [hlog] using he
    · simpa [hlog, hf] using he
  have hx {q : Bool} {wake' : Option (ℕ × ℕ)} (he : .exchanged q wake' ∈ s'.log) :
      q = p ∧ wake' = wake := by
    rcases hmem he (by simp) with he | he
    · exact Event.exchanged.inj he
    · exact absurd he (hnew _ _)
  have hsplit {l₁ l₂ : List Event} {q : Bool} {wake' : Option (ℕ × ℕ)}
      (hl : s'.log = l₁ ++ .exchanged q wake' :: l₂) :
      q = p ∧ wake' = wake ∧ s.log = l₂ ∧ ∀ e ∈ l₁, e = .finished p := by
    have he : .exchanged q wake' ∈ s'.log := by simp [hl]
    obtain ⟨rfl, rfl⟩ := hx he
    have top {l : List Event} (hl : .exchanged q wake' :: s.log = l ++ .exchanged q wake' :: l₂) :
        l = [] ∧ s.log = l₂ := by
      rcases split_cons hl with ⟨rfl, -, hrest⟩ | ⟨l, -, hrest⟩
      · exact ⟨rfl, hrest⟩
      · exact absurd (by rw [hrest]; simp) (hnew q wake')
    rcases hlog with hlog | hlog
    · obtain ⟨rfl, hrest⟩ := top (hlog.symm.trans hl)
      exact ⟨rfl, rfl, hrest, by simp⟩
    · rcases split_cons (hlog.symm.trans hl) with ⟨-, he, -⟩ | ⟨l, rfl, htail⟩
      · cases he
      · obtain ⟨rfl, hrest⟩ := top htail
        exact ⟨rfl, rfl, hrest, by simp⟩
  constructor
  case polling =>
    intro tok pc hf
    have hpoll := h.polling tok pc (hfuture ▸ hf)
    rcases hlog with hlog | hlog <;> rw [hlog] <;> exact hpoll
  case taken =>
    intro l₁ l₂ q d v hl
    obtain ⟨-, hw, rfl, -⟩ := hsplit hl
    exact hwake d v hw.symm
  case waking =>
    intro q d v hp
    obtain ⟨rfl, rfl⟩ := hprod q d v hp
    rcases hlog with hlog | hlog <;> simp [hlog]
  case woken =>
    intro d v hw
    rcases hmem hw (by simp) with he | hw
    · cases he
    · obtain ⟨q, hq⟩ := h.woken d v hw
      exact absurd hq (hnew _ _)
  case alone =>
    intro q q' d hq hq'
    have := (hx hq).2.trans (hx hq').2.symm
    cases this
  case stored =>
    intro l₁ l₂ q hl
    obtain ⟨rfl, hw, rfl, hl₁⟩ := hsplit hl
    obtain ⟨tok, pc, hf, hpc⟩ := hnone hw.symm
    refine ⟨tok, h.polling tok pc hf, fun hp => ?_, Or.inl ⟨pc, hfuture.trans hf, hpc⟩⟩
    cases hl₁ _ hp

theorem wake (h : Traced s) {p : Bool} {d v : ℕ} (hp : s.producer = .wake p d v) :
    Traced { (s.logEvent (.woken d v)).logEvent (.finished p) with producer := .idle } := by
  have hx : .exchanged p (some (d, v)) ∈ s.log := h.waking p d v hp
  constructor
  case polling => exact fun tok pc hf => h.polling tok pc hf
  case taken =>
    intro l₁ l₂ q d' v' hl
    obtain ⟨l, -, hl⟩ := split_append [.finished p, .woken d v] (by simp) hl
    exact h.taken l l₂ q d' v' hl
  case waking => simp
  case woken =>
    intro d' v' hw
    simp only [logEvent, List.mem_cons, reduceCtorEq, false_or, Event.woken.injEq] at hw
    rcases hw with ⟨rfl, rfl⟩ | hw
    · exact ⟨p, by simp [logEvent, hx]⟩
    · obtain ⟨q, hq⟩ := h.woken d' v' hw
      exact ⟨q, by simp [logEvent, hq]⟩
  case alone =>
    intro q q' d' hq hq'
    simp only [logEvent, List.mem_cons, reduceCtorEq, false_or] at hq hq'
    exact h.alone q q' d' hq hq'
  case stored =>
    intro l₁ l₂ q hl
    obtain ⟨l, -, hl⟩ := split_append [.finished p, .woken d v] (by simp) hl
    exact absurd hx (h.alone q p (d, v) (by rw [hl]; simp))

theorem runFinish (h : Traced s) (hl : Linear s) {p : Bool} {pc : FinishPc}
    (hp : s.producer = .finish p pc) (spurious : Bool)
    (hm : ∀ current data vtable, pc = .exchange current data vtable → s.since < payload) :
    Traced (s.runFinish p (s.waker.finish p spurious pc)) := by
  obtain ⟨⟨hread, -⟩, -⟩ := hl.finishing hp
  have htakes := hl.finish_takes hp spurious hm
  obtain ⟨hd, hspec⟩ := finish_effect p spurious hread
  have hrun : s.run (s.waker.finish p spurious pc) =
      { s with waker := (s.waker.finish p spurious pc).waker } := by
    rw [run, hd]
  simp only [Handshake.runFinish, hrun]
  cases hflow : (s.waker.finish p spurious pc).flow with
  | goto pc' =>
    cases pc' <;> exact h.keep_future [] rfl (by simp) rfl rfl (by simp)
  | ret val =>
    rw [hflow] at hspec htakes
    cases val with
    | cancelling =>
      exact h.keep_future [.finishCancelling] rfl (by simp [Event.Quiet]) rfl rfl (by simp)
    | finished wake =>
      obtain ⟨hk, -⟩ := hspec
      have hnew (q : Bool) (wake : Option (ℕ × ℕ)) : .exchanged q wake ∉ s.log := by
        intro hx
        have hq : s.waker.kind = .finished q := hl.agrees.log.allowed _ hx
        simp [hq] at hk
      cases wake with
      | none =>
        exact h.exchange hnew none rfl (Or.inr rfl) (by simp) (by simp)
          fun _ => hl.agrees.storing htakes
      | some d =>
        obtain ⟨d, v⟩ := d
        obtain ⟨-, hdv, hlast, -⟩ := htakes
        exact h.exchange hnew (some (d, v)) rfl (Or.inl rfl) (by simp)
          (by rintro d' v' ⟨⟩; exact ⟨hdv, hlast⟩) (by simp)
  | panic => exact h.keep_future [] rfl (by simp) rfl rfl (by simp)

theorem next (h : Traced s) (hl : Linear s) {act : Act ι} (hok : s.Unwrapped act)
    (hn : s.next act = some s') : Traced s' := by
  cases act with
  | poll =>
    simp only [Handshake.next] at hn
    split at hn
    · next hf =>
      obtain rfl := Option.some.inj hn
      apply h.keep [.began s.nextTok] rfl (by simp [Event.Quiet])
      case hpoll =>
        intro tok pc hf'
        obtain ⟨rfl, -⟩ := Future.poll.inj hf'
        rfl
      case hwake => exact fun p d v hp => hp
      case hpend => simp
      case hans => simp [hf]
    · cases hn
  | startCancel self =>
    simp only [Handshake.next] at hn
    split at hn
    · next hf =>
      obtain rfl := Option.some.inj hn
      exact h.keep_idle [] rfl (by simp) (by simp [hf]) (by simp) rfl
    · cases hn
  | waitCancel =>
    simp only [Handshake.next] at hn
    split at hn
    · next hf =>
      obtain rfl := Option.some.inj hn
      exact h.keep_idle [] rfl (by simp) (by simp [hf]) (by simp) rfl
    · cases hn
  | finish p =>
    simp only [Handshake.next] at hn
    split at hn
    · cases hn
    · split at hn
      · obtain rfl := Option.some.inj hn
        exact h.keep_future [] rfl (by simp) rfl rfl (by simp)
      · cases hn
    · cases hn
  | acceptCancel =>
    simp only [Handshake.next] at hn
    split at hn
    · cases hn
    · split at hn
      · obtain rfl := Option.some.inj hn
        exact h.keep_future [] rfl (by simp) rfl rfl (by simp)
      · cases hn
    · cases hn
  | drop =>
    simp only [Handshake.next] at hn
    split at hn
    · next hd =>
      obtain rfl := Option.some.inj hn
      refine h.runDrop fun tok pc hf => ?_
      simp [hf, Droppable] at hd
    · cases hn
  | future spurious =>
    simp only [Handshake.next, stepFuture] at hn
    split at hn
    · next tok pc hf =>
      obtain rfl := Option.some.inj hn
      have hst := hl.stored
      rw [hf] at hst
      exact h.runPoll hl.agrees hf hst.1 spurious
    · next self pc hf =>
      obtain rfl := Option.some.inj hn
      exact h.runStartCancel hf spurious
    · next pc hf =>
      obtain rfl := Option.some.inj hn
      exact h.runWaitCancel hf
    · cases hn
  | producer spurious =>
    simp only [Handshake.next, stepProducer] at hn
    split at hn
    · next p pc hp =>
      obtain rfl := Option.some.inj hn
      exact h.runFinish hl hp spurious fun current data vtable he =>
        hok p current data vtable (he ▸ hp)
    · next p data vtable hp =>
      obtain rfl := Option.some.inj hn
      exact h.wake hp
    · next pc hp =>
      obtain rfl := Option.some.inj hn
      exact h.runAcceptCancel pc spurious
    · cases hn

end Traced

theorem Linear.traced_of_run
    (h : Runs.Steps Handshake.next Unwrapped (Handshake.init : Handshake ι) s) :
    Linear s ∧ Traced s := by
  apply h.invariant (I := fun s => Linear s ∧ Traced s)
  case hstep => exact fun s act s' hs hok hn => ⟨hs.1.next hok hn, hs.2.next hs.1 hok hn⟩
  case hs => exact ⟨.init, .init⟩

/-- A poll that was storing when `finish` succeeded returns `Ready` after a few more accesses. -/
theorem Agrees.answers (h : Agrees s) {tok : ℕ} {pc : PollPc} (hk : s.waker.kind = .finished p)
    (hf : s.future = .poll tok pc) (hpc : pc.Stores) :
    ∃ n s', Runs.exec Handshake.next (List.replicate n (.future false)) s = some s' ∧
      .ready tok p ∈ s'.log ∧ .dropped tok tok ∈ s'.log := by
  have hok : pc.Ok s.waker.kind := by
    have hok := h.future
    rw [hf] at hok
    exact hok
  have hload : s.waker.state.load = .finished p := State.kind_eq_finished hk
  have hcas (seq seq' : ℕ) :
      s.waker.state.cmpxchgWeak (.storing seq) (.pending seq') false = none := by
    cases hx : s.waker.state.cmpxchgWeak (.storing seq) (.pending seq') false with
    | none => rfl
    | some state => cases hk.symm.trans (AtomicWaker.kind_of_cmpxchgWeak hx).1
  have go (n : ℕ) (hn : ∃ s',
      Runs.exec Handshake.next (List.replicate n (.future false)) s = some s' ∧
      .ready tok p ∈ s'.log ∧ .dropped tok tok ∈ s'.log) :
      ∃ n s', Runs.exec Handshake.next (List.replicate n (.future false)) s = some s' ∧
        .ready tok p ∈ s'.log ∧ .dropped tok tok ∈ s'.log := ⟨n, hn⟩
  cases pc with
  | load => exact hpc.elim
  | start current => exact hpc.elim
  | loadData current =>
    obtain ⟨seq, rfl⟩ := State.kind_eq_storing hok.2
    apply go 6
    simp [Runs.exec, List.replicate, Handshake.next, stepFuture, hf, Handshake.runPoll,
      AtomicWaker.poll, run, logEvent, hcas, hload]
  | loadVtable current oldData =>
    obtain ⟨seq, rfl⟩ := State.kind_eq_storing hok.2
    apply go 5
    simp [Runs.exec, List.replicate, Handshake.next, stepFuture, hf, Handshake.runPoll,
      AtomicWaker.poll, run, logEvent, hcas, hload]
  | storeData current oldData oldVtable =>
    obtain ⟨seq, rfl⟩ := State.kind_eq_storing hok.2
    apply go 4
    simp [Runs.exec, List.replicate, Handshake.next, stepFuture, hf, Handshake.runPoll,
      AtomicWaker.poll, run, logEvent, hcas, hload]
  | storeVtable current oldData oldVtable =>
    obtain ⟨seq, rfl⟩ := State.kind_eq_storing hok.2
    apply go 3
    simp [Runs.exec, List.replicate, Handshake.next, stepFuture, hf, Handshake.runPoll,
      AtomicWaker.poll, run, logEvent, hcas, hload]
  | publish current =>
    rcases hok.2 with hc | hc
    · obtain ⟨seq, rfl⟩ := State.kind_eq_storing hc
      apply go 2
      simp [Runs.exec, List.replicate, Handshake.next, stepFuture, hf, Handshake.runPoll,
        AtomicWaker.poll, run, logEvent, hcas, hload]
    · obtain rfl := State.kind_eq_finished (hc.trans hk)
      apply go 1
      simp [Runs.exec, List.replicate, Handshake.next, stepFuture, hf, Handshake.runPoll,
        AtomicWaker.poll, run, logEvent]

/-- The clones owned and the clones consumed are together the clones made, without repetition; a
consumed pair is a clone, and once the waker is dropped nothing is left. `finish` wakes the waker
registered last, or nothing when a poll is storing, which then returns `Ready` and drops its own. -/
theorem wakers_linear (h : Runs.Steps Handshake.next Unwrapped (Handshake.init : Handshake ι) s) :
    (s.owned + consumed s.log = created s.log ∧ (created s.log).Nodup) ∧
    (∀ d v, .woken d v ∈ s.log ∨ .dropped d v ∈ s.log → d = v ∧ .began d ∈ s.log) ∧
    (s.future = .dropped → (∀ p d v, s.producer ≠ .wake p d v) → consumed s.log = created s.log) ∧
    (∀ l₁ l₂ p d v, s.log = l₁ ++ .exchanged p (some (d, v)) :: l₂ → d = v ∧ last l₂ = some d) ∧
    (∀ d v, .woken d v ∈ s.log → ∃ p, .exchanged p (some (d, v)) ∈ s.log) ∧
    ∀ l₁ l₂ p, s.log = l₁ ++ .exchanged p none :: l₂ → (∀ d v, .woken d v ∉ s.log) ∧
      ∃ tok, polling l₂ = some tok ∧ .pending tok ∉ l₁ ∧
        ∃ n s', Runs.exec Handshake.next (List.replicate n (.future false)) s = some s' ∧
          .ready tok p ∈ s'.log ∧ .dropped tok tok ∈ s'.log := by
  obtain ⟨hl, ht⟩ := Linear.traced_of_run h
  refine ⟨⟨hl.sum, hl.nodup⟩, ?clone, ?dropped, ht.taken, ht.woken, ?storing⟩
  case clone =>
    intro d v hdv
    have hmem : (d, v) ∈ created s.log := by
      rw [← hl.sum]
      exact Multiset.mem_add.mpr (Or.inr (mem_consumed.mpr hdv))
    obtain ⟨tok, he, hb⟩ := mem_created.mp hmem
    obtain ⟨rfl, rfl⟩ := Prod.mk.inj he
    exact ⟨rfl, hb⟩
  case dropped =>
    intro hf hp
    have hnone : s.producer.owned = 0 := by
      cases hpr : s.producer with
      | wake p d v => exact absurd hpr (hp p d v)
      | _ => rfl
    rw [← hl.sum, owned, hf, hnone]
    exact (zero_add _).symm
  case storing =>
    intro l₁ l₂ p hlog
    have hx : .exchanged p none ∈ s.log := by simp [hlog]
    have hk : s.waker.kind = .finished p := hl.agrees.log.allowed _ hx
    obtain ⟨tok, hpoll, hn, ha⟩ := ht.stored l₁ l₂ p hlog
    refine ⟨fun d v hw => ?_, tok, hpoll, hn, ?_⟩
    · obtain ⟨q, hq⟩ := ht.woken d v hw
      exact ht.alone p q (d, v) hx hq
    · rcases ha with ⟨pc, hf, hpc⟩ | ⟨hr, hd⟩
      · exact hl.agrees.answers hk hf hpc
      · exact ⟨0, s, rfl, by simp [hlog, hr], by simp [hlog, hd]⟩

end Handshake

section Example

attribute [local instance] usize64

open Handshake

def reregistered : Handshake Unit :=
  Runs.final Handshake.next
    (.poll :: List.replicate 7 (.future false) ++ .finish false ::
      List.replicate 3 (.producer false) ++ .poll :: List.replicate 7 (.future false) ++
      List.replicate 5 (.producer false) ++ [.drop])
    .init (by decide +kernel)

/-- The exchange fails, and `finish` wakes the second waker. -/
theorem wakers_linear_reregistered :
    consumed reregistered.log = created reregistered.log ∧ .woken 2 2 ∈ reregistered.log := by
  have hr : Runs.Steps Handshake.next Unwrapped .init reregistered := by
    have hfew : Runs.Steps Handshake.next (fun s act => ∀ s', s.next act = some s' →
        decide (s'.since < 2) = true) .init reregistered :=
      Runs.steps_of_checks (Runs.exec_final _) (by decide +kernel)
    refine (hfew.before (by decide)).mono fun s act hs => ?_
    cases act with
    | producer spurious =>
      intro p current data vtable _
      exact (of_decide_eq_true hs).trans_le ((by decide : 2 ≤ 32).trans payload_ge)
    | _ => trivial
  have hidle : reregistered.producer = .idle := rfl
  exact ⟨(wakers_linear hr).2.2.1 rfl (by simp [hidle]), by decide +kernel⟩

end Example

end WeightedSemaphore
