import Mathlib

/-!
# Guarded runs of a partial step function

`Run step ok s₀ s`: from `s₀` the system reaches `s` by steps `step s a = some s'`, each of which
satisfies the guard `ok s a`. The unguarded runs are those of `Free`. A property that holds at
`s₀` and is kept by every guarded step holds in every state of a run (`Run.inv`).

`Must step ok P s`: the guarded steps from `s` cannot but lead to a state with `P`.

`exec` runs a schedule (a list of actions); `execOk` also evaluates a decidable guard before
every action. Both decide concrete runs (`Run.exists_of_exec`, `Run.exists_of_execOk`).

`withHist step record` carries a history along a run without influencing it
(`Run.fst`, `Run.lift`).
-/

set_option autoImplicit false

namespace Lts

section
variable {σ α : Type} (step : σ → α → Option σ) (ok : σ → α → Prop)

/-- The states of the guarded runs from `s₀`. -/
inductive Run (s₀ : σ) : σ → Prop
  | start : Run s₀ s₀
  | next {s s' : σ} {a : α} : Run s₀ s → ok s a → step s a = some s' → Run s₀ s'

end

section
variable {σ α : Type} (step : σ → α → Option σ) (ok : σ → α → Prop)

/-- Guarded steps, whichever they are, lead to a state with `P`, and there is one until then. -/
inductive Must (P : σ → Prop) : σ → Prop
  | now {s : σ} : P s → Must P s
  | next {s : σ} : (∃ a s', ok s a ∧ step s a = some s') →
      (∀ a s', ok s a → step s a = some s' → Must P s') → Must P s

end

section
variable {σ α : Type} {step : σ → α → Option σ} {ok ok' : σ → α → Prop}

/-- The guard every step satisfies. -/
def Free (_ : σ) (_ : α) : Prop := True

namespace Run

/-- The induction rule of invariants: `P` holds at the start and is kept by guarded steps. -/
theorem inv {P : σ → Prop} {s₀ s : σ} (h : Run step ok s₀ s) (h0 : P s₀)
    (hs : ∀ s a s', P s → ok s a → step s a = some s' → P s') : P s := by
  induction h with
  | start => exact h0
  | next _ hok hst ih => exact hs _ _ _ ih hok hst

/-- The same rule, where the step may also use an invariant `Q` that is already proved. -/
theorem inv_of {P Q : σ → Prop} {s₀ s : σ} (h : Run step ok s₀ s)
    (hQ : ∀ s, Run step ok s₀ s → Q s) (h0 : P s₀)
    (hs : ∀ s a s', Q s → P s → ok s a → step s a = some s' → P s') : P s := by
  induction h with
  | start => exact h0
  | next hr hok hst ih => exact hs _ _ _ (hQ _ hr) ih hok hst

theorem mono {s₀ s : σ} (h : Run step ok s₀ s) (hi : ∀ s a, ok s a → ok' s a) :
    Run step ok' s₀ s := by
  induction h with
  | start => exact .start
  | next _ hok hst ih => exact .next ih (hi _ _ hok) hst

theorem free {s₀ s : σ} (h : Run step ok s₀ s) : Run step Free s₀ s :=
  h.mono fun _ _ _ => trivial

theorem trans {s₀ s₁ s₂ : σ} (h : Run step ok s₀ s₁) (h' : Run step ok s₁ s₂) :
    Run step ok s₀ s₂ := by
  induction h' with
  | start => exact h
  | next _ hok hst ih => exact .next ih hok hst

/-- A simulation: every step is answered by one of the other system, that keeps the relation. -/
theorem sim {σ' α' : Type} {step' : σ' → α' → Option σ'} {g : σ' → α' → Prop}
    {Rel : σ → σ' → Prop} {s₀ s : σ} {t₀ : σ'} (h : Run step ok s₀ s) (h0 : Rel s₀ t₀)
    (hs : ∀ s a s' t, Rel s t → ok s a → step s a = some s' →
      ∃ a' t', g t a' ∧ step' t a' = some t' ∧ Rel s' t') :
    ∃ t, Run step' g t₀ t ∧ Rel s t := by
  induction h with
  | start => exact ⟨t₀, .start, h0⟩
  | next _ hok hst ih =>
    obtain ⟨t, hr, hrel⟩ := ih
    obtain ⟨a', t', hok', hst', hrel'⟩ := hs _ _ _ _ hrel hok hst
    exact ⟨t', .next hr hok' hst', hrel'⟩

end Run

/-- What a decreasing measure and an invariant give. -/
theorem Must.of_wf {τ : Type} {r : τ → τ → Prop} (hwf : WellFounded r) (μ : σ → τ)
    {I P : σ → Prop} (hs : ∀ s, I s → ¬ P s → (∃ a s', ok s a ∧ step s a = some s') ∧
      ∀ a s', ok s a → step s a = some s' → I s' ∧ r (μ s') (μ s)) :
    ∀ {s}, I s → Must step ok P s := by
  intro s
  induction hμ : μ s using hwf.induction generalizing s with
  | _ t ih =>
    intro hi
    by_cases hp : P s
    · exact .now hp
    · obtain ⟨hex, hall⟩ := hs s hi hp
      refine .next hex fun a s' hok hst => ?_
      obtain ⟨hi', hlt⟩ := hall a s' hok hst
      exact ih (μ s') (hμ ▸ hlt) rfl hi'

/-! ## Schedules -/

/-- The state after a schedule. -/
def exec (step : σ → α → Option σ) : List α → σ → Option σ
  | [], s => some s
  | a :: as, s =>
    match step s a with
    | some s' => exec step as s'
    | none => none

/-- The state after a schedule all of whose steps satisfy the guard. -/
def execOk (step : σ → α → Option σ) (ok : σ → α → Prop) [∀ s a, Decidable (ok s a)] :
    List α → σ → Option σ
  | [], s => some s
  | a :: as, s =>
    if ok s a then
      match step s a with
      | some s' => execOk step ok as s'
      | none => none
    else none

/-- The schedule that takes each action as often as it says. -/
def repeats (l : List (Nat × α)) : List α := l.flatMap fun x => List.replicate x.1 x.2

theorem Run.of_exec : ∀ {as : List α} {s s' : σ}, exec step as s = some s' →
    Run step Free s s'
  | [], s, s', h => by cases h; exact .start
  | a :: as, s, s', h => by
    simp only [exec] at h
    split at h
    · rename_i s₁ hs
      exact (Run.next .start trivial hs).trans (Run.of_exec h)
    · cases h

theorem Run.of_execOk [∀ s a, Decidable (ok s a)] :
    ∀ {as : List α} {s s' : σ}, execOk step ok as s = some s' → Run step ok s s'
  | [], s, s', h => by cases h; exact .start
  | a :: as, s, s', h => by
    simp only [execOk] at h
    split at h
    · rename_i hok
      split at h
      · rename_i s₁ hs
        exact (Run.next .start hok hs).trans (Run.of_execOk h)
      · cases h
    · cases h

end

section
variable {σ α : Type} (step : σ → α → Option σ) (ok : σ → α → Prop)

/-- A schedule whose last state satisfies `p` reaches a state that does. -/
theorem Run.exists_of_exec (as : List α) (s : σ) (p : σ → Prop) [DecidablePred p]
    (h : ((exec step as s).any fun s => p s) = true) : ∃ s', Run step Free s s' ∧ p s' := by
  cases he : exec step as s with
  | none => simp [he] at h
  | some s' => exact ⟨s', .of_exec he, by simpa [he] using h⟩

theorem Run.exists_of_execOk [∀ s a, Decidable (ok s a)] (as : List α) (s : σ) (p : σ → Prop)
    [DecidablePred p] (h : ((execOk step ok as s).any fun s => p s) = true) :
    ∃ s', Run step ok s s' ∧ p s' := by
  cases he : execOk step ok as s with
  | none => simp [he] at h
  | some s' => exact ⟨s', .of_execOk he, by simpa [he] using h⟩

end

/-! ## Histories -/

section
variable {σ α η : Type} {step : σ → α → Option σ} {record : σ → α → η → η}

/-- The system with a history `record`ed along every step. -/
def withHist (step : σ → α → Option σ) (record : σ → α → η → η) (x : σ × η) (a : α) :
    Option (σ × η) :=
  (step x.1 a).map fun s' => (s', record x.1 a x.2)

theorem withHist_eq_some {x x' : σ × η} {a : α} :
    withHist step record x a = some x' ↔ step x.1 a = some x'.1 ∧ x'.2 = record x.1 a x.2 := by
  simp only [withHist, Option.map_eq_some_iff]
  constructor
  · rintro ⟨s', hs, rfl⟩
    exact ⟨hs, rfl⟩
  · rintro ⟨hs, hh⟩
    exact ⟨x'.1, hs, by rw [← hh]⟩

/-- A run with history is a run. -/
theorem Run.fst {ok : σ → α → Prop} {x₀ x : σ × η}
    (h : Run (withHist step record) (fun x a => ok x.1 a) x₀ x) : Run step ok x₀.1 x.1 := by
  induction h with
  | start => exact .start
  | next _ hok hst ih => exact .next ih hok (withHist_eq_some.1 hst).1

/-- Every run has a history. -/
theorem Run.lift {ok : σ → α → Prop} {s₀ s : σ} (h : Run step ok s₀ s) (h₀ : η) :
    ∃ hist, Run (withHist step record) (fun x a => ok x.1 a) (s₀, h₀) (s, hist) := by
  induction h with
  | start => exact ⟨h₀, .start⟩
  | @next s s' a _ hok hst ih =>
    obtain ⟨hist, hr⟩ := ih
    exact ⟨record s a hist, .next hr hok (withHist_eq_some.2 ⟨hst, rfl⟩)⟩

end

end Lts
