import Mathlib.Logic.Relation

/-!
# Runs of a labelled transition function

A system is a partial function `next` from a state and an action to a state. `Steps` is its
reachability relation, restricted to the actions that a side condition `ok` admits in the state
they are taken in. Claims about every run are invariants of `Steps`; a second transition relation
is connected by `Steps.simulate`.
-/

namespace Runs

variable {σ α τ : Type*}

/-- `Steps next ok s u`: a run from `s` to `u`, every action of which `ok` admits. -/
inductive Steps (next : σ → α → Option σ) (ok : σ → α → Prop) (s : σ) : σ → Prop
  | refl : Steps next ok s s
  | tail {t u : σ} (a : α) : Steps next ok s t → ok t a → next t a = some u → Steps next ok s u

abbrev Reaches (next : σ → α → Option σ) (s u : σ) : Prop := Steps next (fun _ _ => True) s u

variable {next : σ → α → Option σ} {ok ok' : σ → α → Prop} {s t u : σ}

namespace Steps

theorem single (a : α) (hok : ok s a) (h : next s a = some u) : Steps next ok s u :=
  .tail a .refl hok h

theorem trans (h₁ : Steps next ok s t) (h₂ : Steps next ok t u) : Steps next ok s u := by
  induction h₂ with
  | refl => exact h₁
  | tail a _ hok hn ih => exact .tail a ih hok hn

theorem head (a : α) (hok : ok s a) (hn : next s a = some t) (h : Steps next ok t u) :
    Steps next ok s u :=
  (single a hok hn).trans h

theorem mono (hle : ∀ s a, ok s a → ok' s a) (h : Steps next ok s u) : Steps next ok' s u := by
  induction h with
  | refl => exact .refl
  | tail a _ hok hn ih => exact .tail a ih (hle _ _ hok) hn

theorem reaches (h : Steps next ok s u) : Reaches next s u := h.mono fun _ _ _ => trivial

/-- What holds initially and is preserved by every admitted action holds along every run. -/
theorem invariant {I : σ → Prop} (hstep : ∀ t a u, I t → ok t a → next t a = some u → I u)
    (hs : I s) (h : Steps next ok s u) : I u := by
  induction h with
  | refl => exact hs
  | tail a _ hok hn ih => exact hstep _ a _ ih hok hn

/-- As `invariant`, where the step may use that its source is reached by the run. -/
theorem invariant_reached {I : σ → Prop}
    (hstep : ∀ t a u, Steps next ok s t → I t → ok t a → next t a = some u → I u)
    (hs : I s) (h : Steps next ok s u) : I u := by
  induction h with
  | refl => exact hs
  | tail a ht hok hn ih => exact hstep _ a _ ht ih hok hn

/-- A test passed by every state that is entered, and by the first, is passed by every state that is
left. -/
theorem before {P : σ → Prop} (hs : P s)
    (h : Steps next (fun s a => ∀ t, next s a = some t → P t) s u) :
    Steps next (fun s _ => P s) s u := by
  suffices Steps next (fun s _ => P s) s u ∧ P u from this.1
  induction h with
  | refl => exact ⟨.refl, hs⟩
  | tail a _ hok hn ih => exact ⟨.tail a ih.1 ih.2 hn, hok _ hn⟩

/-- Forward simulation: each action is matched by finitely many steps of a relation. -/
theorem simulate {R : σ → τ → Prop} {Step : τ → τ → Prop}
    (hstep : ∀ t a u b, R t b → ok t a → next t a = some u →
      ∃ b', Relation.ReflTransGen Step b b' ∧ R u b')
    {b : τ} (hs : R s b) (h : Steps next ok s u) :
    ∃ b', Relation.ReflTransGen Step b b' ∧ R u b' := by
  induction h with
  | refl => exact ⟨b, .refl, hs⟩
  | tail a _ hok hn ih =>
    obtain ⟨b₁, hb₁, hR₁⟩ := ih
    obtain ⟨b₂, hb₂, hR₂⟩ := hstep _ a _ b₁ hR₁ hok hn
    exact ⟨b₂, hb₁.trans hb₂, hR₂⟩

/-- A run of a system is a run of each of its components: an action of the system moves the
component once, or not at all. -/
theorem component {β : Type*} {next' : τ → β → Option τ} {okτ : τ → β → Prop} (f : τ → σ)
    (hstep : ∀ t b u, okτ t b → next' t b = some u →
      f u = f t ∨ ∃ a, ok (f t) a ∧ next (f t) a = some (f u))
    {t u : τ} (h : Steps next' okτ t u) : Steps next ok (f t) (f u) := by
  induction h with
  | refl => exact .refl
  | tail b _ hok hn ih =>
    rcases hstep _ b _ hok hn with he | ⟨a, hoka, ha⟩
    · rw [he]
      exact ih
    · exact .tail a ih hoka ha

end Steps

/-- Run a fixed schedule; `none` when some action of it is not enabled. -/
def exec (next : σ → α → Option σ) : List α → σ → Option σ
  | [], s => some s
  | a :: as, s => (next s a).bind (exec next as)

/-- A schedule that runs to its end is a run, whose actions are admitted as long as `Q` holds of the
rest of the schedule and the state. -/
theorem steps_of_schedule {Q : List α → σ → Prop}
    (hQ : ∀ a as s t, Q (a :: as) s → next s a = some t → ok s a ∧ Q as t) {as : List α}
    (h : exec next as s = some u) (hq : Q as s) : Steps next ok s u := by
  induction as generalizing s with
  | nil =>
    obtain rfl : s = u := Option.some.inj h
    exact .refl
  | cons a as ih =>
    cases hn : next s a with
    | none => simp [exec, hn] at h
    | some t =>
      have ht : exec next as t = some u := by simpa [exec, hn] using h
      obtain ⟨hok, hq'⟩ := hQ a as s t hq hn
      exact Steps.head a hok hn (ih ht hq')

theorem steps_of_exec {as : List α} (h : exec next as s = some u) (hok : ∀ a ∈ as, ∀ s, ok s a) :
    Steps next ok s u := by
  refine steps_of_schedule (Q := fun as _ => ∀ a ∈ as, ∀ s, ok s a) (fun a as s t hq _ => ?_) h hok
  exact ⟨hq a List.mem_cons_self s, fun b hb => hq b (List.mem_cons_of_mem a hb)⟩

theorem reaches_of_exec {as : List α} (h : exec next as s = some u) : Reaches next s u :=
  steps_of_exec h fun _ _ _ => trivial

def checks (next : σ → α → Option σ) (P : σ → Bool) : List α → σ → Bool
  | [], _ => true
  | a :: as, s =>
    match next s a with
    | none => true
    | some t => P t && checks next P as t

theorem steps_of_checks {P : σ → Bool} {as : List α} (h : exec next as s = some u)
    (hP : checks next P as s = true) :
    Steps next (fun s a => ∀ t, next s a = some t → P t = true) s u := by
  refine steps_of_schedule (Q := fun as s => checks next P as s = true)
    (fun a as s t hq hn => ?_) h hP
  obtain ⟨hPt, hq'⟩ : P t = true ∧ checks next P as t = true := by
    simpa [checks, hn] using hq
  refine ⟨fun t' ht' => ?_, hq'⟩
  obtain rfl := Option.some.inj (hn.symm.trans ht')
  exact hPt

def admits (next : σ → α → Option σ) (P : σ → α → Bool) : List α → σ → Bool
  | [], _ => true
  | a :: as, s => P s a && (next s a).all (admits next P as)

theorem steps_of_admits {P : σ → α → Bool} {as : List α} (h : exec next as s = some u)
    (hP : admits next P as s = true) : Steps next (fun s a => P s a = true) s u :=
  steps_of_schedule (Q := fun as s => admits next P as s = true)
    (fun a as s t hq hn => by simpa [admits, hn] using hq) h hP

def final (next : σ → α → Option σ) (as : List α) (s : σ)
    (h : (exec next as s).isSome = true) : σ :=
  (exec next as s).get h

theorem exec_final {as : List α} (h : (exec next as s).isSome = true) :
    exec next as s = some (final next as s h) :=
  (Option.some_get h).symm

theorem reaches_final {as : List α} (h : (exec next as s).isSome = true) :
    Reaches next s (final next as s h) :=
  reaches_of_exec (exec_final h)

end Runs
