import Mathlib

/-! # Runs of labelled transition systems

Runs are finite sequences of labelled steps. An invariant of every step is an
invariant of every run, and a simulation of every step simulates every run.
-/

namespace Foundation

variable {σ τ α : Type*}

inductive Run (step : α → σ → σ → Prop) (s : σ) : List α → σ → Prop
  | nil : Run step s [] s
  | snoc {as : List α} {a : α} {t u : σ} : Run step s as t → step a t u → Run step s (as ++ [a]) u

def noting (step : α → σ → σ → Prop) (note : α → σ → σ → τ → τ) (a : α) (s s' : σ × τ) : Prop :=
  step a s.1 s'.1 ∧ note a s.1 s'.1 s.2 = s'.2

variable {step : α → σ → σ → Prop} {step' : α → τ → τ → Prop} {s s' : σ} {as : List α}

theorem Run.invariant {P : σ → Prop} (h : Run step s as s') (hs : P s)
    (hst : ∀ a t u, P t → step a t u → P u) : P s' := by
  induction h with
  | nil => exact hs
  | snoc _ ha ih => exact hst _ _ _ ih ha

theorem Run.cons {a : α} {t : σ} (ha : step a s t) (h : Run step t as s') :
    Run step s (a :: as) s' := by
  induction h with
  | nil => exact .snoc .nil ha
  | snoc _ hb ih => exact .snoc ih hb

theorem Run.mono {step'' : α → σ → σ → Prop} (h : Run step s as s')
    (hs : ∀ a t u, step a t u → step'' a t u) : Run step'' s as s' := by
  induction h with
  | nil => exact .nil
  | snoc _ ha ih => exact .snoc ih (hs _ _ _ ha)

theorem Run.simulate {R : σ → τ → Prop} {t : τ} (h : Run step s as s') (hs : R s t)
    (hst : ∀ a u u' v, R u v → step a u u' → ∃ v', step' a v v' ∧ R u' v') :
    ∃ t', Run step' t as t' ∧ R s' t' := by
  induction h with
  | nil => exact ⟨t, .nil, hs⟩
  | snoc _ ha ih =>
    obtain ⟨v, hr, hv⟩ := ih
    obtain ⟨v', hv', hR⟩ := hst _ _ _ _ hv ha
    exact ⟨v', .snoc hr hv', hR⟩

/-- Where a list of labels leads, if each of them is accepted. -/
def execAll (exec : α → σ → Option σ) (s : σ) (as : List α) : Option σ :=
  as.foldlM (fun s a => exec a s) s

theorem Run.of_execAll {exec : α → σ → Option σ} (h : execAll exec s as = some s')
    (he : ∀ a t u, exec a t = some u → step a t u) : Run step s as s' := by
  induction as generalizing s with
  | nil =>
    obtain rfl := Option.some.inj h
    exact .nil
  | cons a as ih =>
    rw [execAll, List.foldlM_cons, Option.bind_eq_bind, Option.bind_eq_some_iff] at h
    obtain ⟨t, ha, h⟩ := h
    exact .cons (he a s t ha) (ih h)

/-- Every step of a run is as a predicate says, in the state it is taken in. -/
def Always (next : σ → α → σ) (P : σ → α → Prop) (s : σ) : List α → Prop
  | [] => True
  | a :: as => P s a ∧ Always next P (next s a) as

/-- Two predicates on steps hold along the same runs if an invariant, kept by the steps that are as
the second says, makes them the same. -/
theorem Always.iff_of_invariant {next : σ → α → σ} {P Q : σ → α → Prop} {I : σ → Prop}
    (hiff : ∀ s a, I s → (P s a ↔ Q s a)) (hn : ∀ s a, I s → Q s a → I (next s a)) (hs : I s) :
    Always next P s as ↔ Always next Q s as := by
  induction as generalizing s with
  | nil => exact .rfl
  | cons a as ih =>
    rw [Always, Always, hiff s a hs]
    exact and_congr_right fun hq => ih (hn s a hs hq)

def execNoting (exec : α → σ → Option σ) (note : α → σ → σ → τ → τ) (a : α) (s : σ × τ) :
    Option (σ × τ) :=
  (exec a s.1).map fun s' => (s', note a s.1 s' s.2)

theorem Run.of_execNoting {exec : α → σ → Option σ} {note : α → σ → σ → τ → τ} {x x' : σ × τ}
    (h : execAll (execNoting exec note) x as = some x')
    (he : ∀ a t u, exec a t = some u → step a t u) : Run (noting step note) x as x' := by
  refine .of_execAll h fun a t u ha => ?_
  obtain ⟨s, hs, rfl⟩ := Option.map_eq_some_iff.1 ha
  exact ⟨he a t.1 s hs, rfl⟩

end Foundation
