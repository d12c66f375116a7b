import Equinox.Foundation.Result

/-! # Frames

A computation keeps a view of the state if the view is the same whenever it
returns, and spares it if the view is the same also where it fails. There is one
instance for each way to build a computation, so that the frame of a program is
inferred from its text. In the same way the steps that a program takes follow from
the steps that its parts take.
-/

namespace Foundation

open Relation

variable {ε σ α β γ τ : Type} {f : σ → τ} {R step : σ → σ → Prop} {x y : EStateM ε σ α}
  {k : α → EStateM ε σ β} {p : Prop} {g : σ → σ} {s s' : σ}

/-- Whenever the computation returns, the states before and after it are related. -/
class Leads (R : σ → σ → Prop) (x : EStateM ε σ α) : Prop where
  of_ok : ∀ {s a s'}, x s = .ok a s' → R s s'

/-- A view of two states is the same. -/
def Unchanged (f : σ → τ) (s s' : σ) : Prop := f s' = f s

instance unchanged_refl : Std.Refl (Unchanged f) := ⟨fun _ => rfl⟩

instance unchanged_trans : IsTrans σ (Unchanged f) := ⟨fun _ _ _ h h' => h'.trans h⟩

/-- The computation leaves a view of the state as it is. -/
abbrev Keeps (f : σ → τ) (x : EStateM ε σ α) : Prop := Leads (Unchanged f) x

/-- Whenever the computation returns, it has taken some number of steps of a relation. -/
abbrev Takes (step : σ → σ → Prop) (x : EStateM ε σ α) : Prop := Leads (ReflTransGen step) x

theorem kept_of_ok (f : σ → τ) [hx : Keeps f x] {a : α} (h : x s = .ok a s') : f s' = f s :=
  hx.of_ok h

theorem Takes.one (h : ∀ {s a s'}, x s = .ok a s' → step s s') : Takes step x where
  of_ok hs := .single (h hs)

namespace Leads

instance throw (e : ε) : Leads R (throw e : EStateM ε σ α) where
  of_ok h := absurd h run_throw_ne_ok

instance ite [Decidable p] [hx : Leads R x] [hy : Leads R y] : Leads R (if p then x else y) := by
  split
  · exact hx
  · exact hy

theorem modify (h : ∀ s, R s (g s)) : Leads R (modify g : EStateM ε σ PUnit) where
  of_ok {s a s'} hs := by
    rw [← run_modify_eq_ok.1 hs]
    exact h s

variable [Std.Refl R]

instance reading (g : σ → Except ε α) : Leads R (reading g) where
  of_ok h := by
    rw [(run_reading_eq_ok.1 h).2]
    exact refl _

instance pure (a : α) : Leads R (pure a : EStateM ε σ α) where
  of_ok h := by
    rw [(run_pure_eq_ok.1 h).2]
    exact refl _

instance get : Leads R (get : EStateM ε σ σ) where
  of_ok h := by
    rw [(run_get_eq_ok.1 h).2]
    exact refl _

instance lift (x : Except ε α) : Leads R (liftM x : EStateM ε σ α) := reading fun _ => x

instance asking (g : σ → α) : Leads R (asking g : EStateM ε σ α) where
  of_ok h := by
    obtain ⟨-, rfl⟩ := EStateM.Result.ok.inj h
    exact refl _

variable [IsTrans σ R]

section

omit [Std.Refl R]

theorem andThen (hx : Leads R x) (hk : ∀ a, Leads R (k a)) : Leads R (x >>= k) where
  of_ok h := by
    obtain ⟨a, s₁, h₁, h₂⟩ := run_bind_eq_ok.1 h
    exact IsTrans.trans _ _ _ (hx.of_ok h₁) ((hk a).of_ok h₂)

instance bind [hx : Leads R x] [hk : ∀ a, Leads R (k a)] : Leads R (x >>= k) := andThen hx hk

/-- The continuation takes a pair apart. -/
instance bind_prod {x : EStateM ε σ (α × β)} {k : α × β → EStateM ε σ γ} [hx : Leads R x]
    [hk : ∀ a b, Leads R (k (a, b))] : Leads R (x >>= k) := andThen hx fun a => hk a.1 a.2

end

instance forM {x : α → EStateM ε σ PUnit} [hx : ∀ a, Leads R (x a)] (l : List α) :
    Leads R (l.forM x) := by
  induction l with
  | nil => exact pure PUnit.unit
  | cons a l ih => exact inferInstanceAs (Leads R (x a >>= fun _ => l.forM x))

end Leads

/-- The computation leaves a view of the state as it is, whether it returns or fails. -/
class Spares (f : σ → τ) (x : EStateM ε σ α) : Prop where
  eq_final : ∀ s, f (finalState (x s)) = f s

namespace Spares

theorem eq_of_ok {a : α} (hx : Spares f x) (h : x s = .ok a s') : f s' = f s := by
  have heq := hx.eq_final s
  rwa [h] at heq

theorem eq_of_error {e : ε} (hx : Spares f x) (h : x s = .error e s') : f s' = f s := by
  have heq := hx.eq_final s
  rwa [h] at heq

instance (priority := low) keeps [hx : Spares f x] : Keeps f x := ⟨hx.eq_of_ok⟩

instance pure (a : α) : Spares f (pure a : EStateM ε σ α) := ⟨fun _ => rfl⟩

instance reading (g : σ → Except ε α) : Spares f (reading g) where
  eq_final s := by
    unfold Foundation.reading
    split <;> rfl

instance lift (x : Except ε α) : Spares f (liftM x : EStateM ε σ α) := reading fun _ => x

instance asking (g : σ → α) : Spares f (asking g : EStateM ε σ α) := ⟨fun _ => rfl⟩

theorem modify (h : ∀ s, f (g s) = f s) : Spares f (modify g : EStateM ε σ PUnit) := ⟨h⟩

theorem andThen (hx : Spares f x) (hk : ∀ a, Spares f (k a)) : Spares f (x >>= k) where
  eq_final s := by
    cases hs : x s with
    | ok a s₁ => rw [run_bind_of_ok hs, (hk a).eq_final, hx.eq_of_ok hs]
    | error e s₁ => rw [run_bind_of_error hs, finalState, hx.eq_of_error hs]

instance bind [hx : Spares f x] [hk : ∀ a, Spares f (k a)] : Spares f (x >>= k) := andThen hx hk

instance bind_prod {x : EStateM ε σ (α × β)} {k : α × β → EStateM ε σ γ} [hx : Spares f x]
    [hk : ∀ a b, Spares f (k (a, b))] : Spares f (x >>= k) := andThen hx fun a => hk a.1 a.2

instance ite [Decidable p] [hx : Spares f x] [hy : Spares f y] :
    Spares f (if p then x else y) := by
  split
  · exact hx
  · exact hy

instance forM {x : α → EStateM ε σ PUnit} [hx : ∀ a, Spares f (x a)] (l : List α) :
    Spares f (l.forM x) := by
  induction l with
  | nil => exact pure PUnit.unit
  | cons a l ih => exact inferInstanceAs (Spares f (x a >>= fun _ => l.forM x))

end Spares

/-- A view of the state is as it was where the computation fails. -/
class FailsClean (f : σ → τ) (x : EStateM ε σ α) : Prop where
  eq_of_error : ∀ {s e s'}, x s = .error e s' → f s' = f s

namespace FailsClean

instance (priority := low) of_spares [hx : Spares f x] : FailsClean f x := ⟨hx.eq_of_error⟩

instance bind [hx : Spares f x] [hk : ∀ a, FailsClean f (k a)] : FailsClean f (x >>= k) where
  eq_of_error {s e s'} h := by
    cases hs : x s with
    | ok a s₁ =>
      rw [run_bind_of_ok hs] at h
      rw [(hk a).eq_of_error h, hx.eq_of_ok hs]
    | error e₁ s₁ =>
      rw [run_bind_of_error hs] at h
      obtain ⟨-, rfl⟩ := EStateM.Result.error.inj h
      exact hx.eq_of_error hs

instance bind_modify [hx : FailsClean f x] (g : α → σ → σ) :
    FailsClean f (x >>= fun a => (modify (g a) : EStateM ε σ PUnit)) where
  eq_of_error h := by
    rcases run_bind_eq_error h with h | ⟨_, _, -, h⟩
    · exact hx.eq_of_error h
    · cases h

end FailsClean

theorem kept_of_error (f : σ → τ) [hx : FailsClean f x] {e : ε} (h : x s = .error e s') :
    f s' = f s := hx.eq_of_error h

end Foundation
