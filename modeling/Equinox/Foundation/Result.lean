import Mathlib

/-! # Fallible computations

Inversion rules for programs in the `Except` monad: a computation that returns
was a chain of steps that each returned.
-/

namespace Foundation

open EStateM

variable {ε α β : Type}

def require (p : Prop) [Decidable p] (e : ε) : Except ε Unit := if p then .ok () else .error e

def okOr (x : Option α) (e : ε) : Except ε α := x.elim (.error e) .ok

variable {x : Except ε α} {b : β}

@[simp] theorem bind_eq_ok {f : α → Except ε β} :
    x >>= f = .ok b ↔ ∃ a, x = .ok a ∧ f a = .ok b := by
  cases x <;> simp [bind, Except.bind]

@[simp] theorem map_eq_ok {f : α → β} : f <$> x = .ok b ↔ ∃ a, x = .ok a ∧ f a = b := by
  cases x <;> simp [Functor.map, Except.map]

variable {a : α}

@[simp] theorem pure_eq_ok {b : α} : (pure a : Except ε α) = .ok b ↔ a = b := by
  simp [pure, Except.pure]

variable {e : ε}

@[simp] theorem throw_ne_ok {b : α} : (throw e : Except ε α) ≠ .ok b := by
  simp [throw, throwThe, MonadExceptOf.throw]

variable {p : Prop}

@[simp] theorem require_eq_ok [Decidable p] {u : Unit} : require p e = .ok u ↔ p := by
  unfold require; split <;> simp [*]

theorem exists_require [Decidable p] {q : Unit → Prop} :
    (∃ u, require p e = .ok u ∧ q u) ↔ p ∧ q () := by
  simp only [require_eq_ok]
  exact ⟨fun ⟨_, h⟩ => h, fun h => ⟨(), h⟩⟩

/-- The rules that take a program in `Except` apart, as one list for `simp`. -/
theorem ok_rules :
    (∀ {ε α β : Type} {x : Except ε α} {f : α → Except ε β} {b : β},
      x >>= f = .ok b ↔ ∃ a, x = .ok a ∧ f a = .ok b) ∧
    (∀ {ε α : Type} {a b : α}, (pure a : Except ε α) = .ok b ↔ a = b) ∧
    ∀ {ε : Type} {p : Prop} [Decidable p] {e : ε} {q : Unit → Prop},
      (∃ u, require p e = .ok u ∧ q u) ↔ p ∧ q () := ⟨bind_eq_ok, pure_eq_ok, exists_require⟩

/-- The same for a program in `Option`. -/
theorem some_rules :
    (∀ {α β : Type} {x : Option α} {f : α → Option β} {b : β},
      x >>= f = some b ↔ ∃ a, x = some a ∧ f a = some b) ∧
    (∀ {α : Type} {a b : α}, (pure a : Option α) = some b ↔ a = b) ∧
    ∀ {p : Prop} [Decidable p] {q : Unit → Prop}, (∃ u, guard p = some u ∧ q u) ↔ p ∧ q () := by
  refine ⟨Option.bind_eq_some_iff, Option.some_inj, fun {p _ q} => ?_⟩
  simp only [Option.guard_eq_some']
  exact ⟨fun ⟨_, h⟩ => h, fun h => ⟨(), h⟩⟩

@[simp] theorem okOr_eq_ok {x : Option α} : okOr x e = .ok a ↔ x = some a := by
  cases x <;> simp [okOr]

@[simp] theorem mapError_eq_ok {ε' : Type*} {f : ε → ε'} : x.mapError f = .ok a ↔ x = .ok a := by
  cases x <;> simp [Except.mapError]

theorem ok_bind (a : α) (f : α → Except ε β) : (Except.ok a >>= f) = f a := rfl

variable {u : PUnit} {l : List α}

theorem forM_eq_ok {f : α → Except ε PUnit} : l.forM f = .ok u ↔ ∀ a ∈ l, f a = .ok () := by
  induction l with
  | nil => simp [List.forM, pure, Except.pure]
  | cons a l ih =>
    change (f a >>= fun _ => l.forM f) = .ok u ↔ _
    rw [bind_eq_ok, List.forall_mem_cons, ← ih]
    exact ⟨fun ⟨_, h⟩ => h, fun h => ⟨_, h⟩⟩

variable {b' : β}

theorem foldlM_invariant {P : β → Prop} {f : β → α → Except ε β}
    (hs : ∀ a ∈ l, ∀ b b', P b → f b a = .ok b' → P b') (hb : P b)
    (h : l.foldlM f b = .ok b') : P b' := by
  induction l generalizing b with
  | nil =>
    obtain rfl := pure_eq_ok.1 h
    exact hb
  | cons a l ih =>
    rw [List.foldlM_cons, bind_eq_ok] at h
    obtain ⟨b₁, ha, h⟩ := h
    exact ih (fun a' ha' => hs a' (by simp [ha'])) (hs a (by simp) _ _ hb ha) h

theorem exists_step_of_foldlM {f : β → α → Except ε β}
    (h : l.foldlM f b = .ok b') (ha : a ∈ l) : ∃ c c', f c a = .ok c' := by
  induction l generalizing b with
  | nil => simp at ha
  | cons a' l ih =>
    rw [List.foldlM_cons, bind_eq_ok] at h
    obtain ⟨b₁, hf, h⟩ := h
    rcases List.mem_cons.1 ha with rfl | ha
    · exact ⟨b, b₁, hf⟩
    · exact ih h ha

theorem foldlM_sum {M : Type*} [AddCommMonoid M] {P : β → Prop} {f : β → α → Except ε β} {g : β → M}
    {d : α → M}
    (hs : ∀ a ∈ l, ∀ b b', P b → f b a = .ok b' → P b' ∧ g b' = g b + d a)
    (hb : P b) (h : l.foldlM f b = .ok b') : P b' ∧ g b' = g b + (l.map d).sum := by
  induction l generalizing b with
  | nil =>
    obtain rfl := pure_eq_ok.1 h
    exact ⟨hb, by simp⟩
  | cons a l ih =>
    rw [List.foldlM_cons, bind_eq_ok] at h
    obtain ⟨b₁, ha, h⟩ := h
    obtain ⟨hb₁, hd⟩ := hs a (by simp) _ _ hb ha
    obtain ⟨hb', hl⟩ := ih (fun a' ha' => hs a' (by simp [ha'])) hb₁ h
    exact ⟨hb', by rw [hl, hd, List.map_cons, List.sum_cons, add_assoc]⟩

/-- A fold that adds amounts up and refuses sums that are too large succeeds if the whole sum is
not. -/
theorem foldlM_add_of_lt {f : ℤ → α → Except ε ℤ} {d : α → ℤ} {start bound : ℤ}
    (hs : ∀ a ∈ l, ∀ t, 0 ≤ t → t + d a < bound → f t a = .ok (t + d a))
    (hd : ∀ a ∈ l, 0 ≤ d a) (hst : 0 ≤ start) (hsum : start + (l.map d).sum < bound) :
    l.foldlM f start = .ok (start + (l.map d).sum) := by
  induction l generalizing start with
  | nil => simp [pure, Except.pure]
  | cons a l ih =>
    rw [List.forall_mem_cons] at hs hd
    have hr : 0 ≤ (l.map d).sum := by
      refine List.sum_nonneg fun x hx => ?_
      obtain ⟨b, hb, rfl⟩ := List.mem_map.1 hx
      exact hd.2 b hb
    have ha := hd.1
    rw [List.map_cons, List.sum_cons] at hsum ⊢
    rw [List.foldlM_cons, hs.1 start hst (by omega), ok_bind,
      ih hs.2 hd.2 (by omega) (by omega), add_assoc]

section State

variable {σ : Type} {s s' : σ}

/-- Run a reader of the state, which leaves the state as it is. -/
def reading (f : σ → Except ε α) : EStateM ε σ α := fun s =>
  match f s with
  | .ok a => .ok a s
  | .error e => .error e s

def asking (g : σ → α) : EStateM ε σ α := fun s => .ok (g s) s

instance instMonadLiftExcept : MonadLift (Except ε) (EStateM ε σ) := ⟨fun x => reading fun _ => x⟩

@[simp] theorem run_bind_eq_ok {x : EStateM ε σ α} {f : α → EStateM ε σ β} :
    (x >>= f) s = .ok b s' ↔ ∃ a s₁, x s = .ok a s₁ ∧ f a s₁ = .ok b s' := by
  simp only [bind, EStateM.bind]
  cases x s <;> simp

@[simp] theorem run_pure_eq_ok {b : α} :
    (pure a : EStateM ε σ α) s = .ok b s' ↔ a = b ∧ s = s' := by
  simp [pure, EStateM.pure]

@[simp] theorem run_throw_ne_ok {b : α} : (throw e : EStateM ε σ α) s ≠ .ok b s' := by
  simp [throw, throwThe, MonadExceptOf.throw, EStateM.throw]

@[simp] theorem run_reading_eq_ok {f : σ → Except ε α} :
    reading f s = .ok a s' ↔ f s = .ok a ∧ s = s' := by
  unfold reading; split <;> simp [*]

@[simp] theorem run_get_eq_ok {a : σ} : (get : EStateM ε σ σ) s = .ok a s' ↔ s = a ∧ s = s' := by
  simp [get, getThe, MonadStateOf.get, EStateM.get]

@[simp] theorem run_modify_eq_ok {g : σ → σ} :
    (modify g : EStateM ε σ PUnit) s = .ok u s' ↔ g s = s' := by
  simp [modify, modifyGet, MonadStateOf.modifyGet, EStateM.modifyGet]

/-! A computation after a part whose outcome is known. -/

theorem run_bind_of_ok {x : EStateM ε σ α} {f : α → EStateM ε σ β} (h : x s = .ok a s') :
    (x >>= f) s = f a s' := by
  simp only [bind, EStateM.bind, h]

theorem run_bind_of_error {x : EStateM ε σ α} {f : α → EStateM ε σ β}
    (h : x s = .error e s') : (x >>= f) s = .error e s' := by
  simp only [bind, EStateM.bind, h]

theorem run_bind_eq_error {x : EStateM ε σ α} {f : α → EStateM ε σ β}
    (h : (x >>= f) s = .error e s') :
    x s = .error e s' ∨ ∃ a s₁, x s = .ok a s₁ ∧ f a s₁ = .error e s' := by
  cases hx : x s with
  | ok a s₁ =>
    rw [run_bind_of_ok hx] at h
    exact .inr ⟨a, s₁, rfl, h⟩
  | error e₁ s₁ =>
    rw [run_bind_of_error hx] at h
    obtain ⟨rfl, rfl⟩ := Result.error.inj h
    exact .inl rfl

theorem run_get_bind {f : σ → EStateM ε σ β} : (get >>= f) s = f s s := rfl

theorem run_reading_of_ok {f : σ → Except ε α} (h : f s = .ok a) :
    reading f s = .ok a s := run_reading_eq_ok.2 ⟨h, rfl⟩

theorem run_reading_of_error {f : σ → Except ε α} (h : f s = .error e) :
    reading f s = .error e s := by
  unfold reading
  rw [h]

theorem run_require_of [Decidable p] (hp : p) :
    (liftM (require p e) : EStateM ε σ Unit) s = .ok () s := run_reading_of_ok (require_eq_ok.2 hp)

theorem run_require_of_not [Decidable p] (hp : ¬p) :
    (liftM (require p e) : EStateM ε σ Unit) s = .error e s := run_reading_of_error (if_neg hp)

variable {k : α → EStateM ε σ β}

theorem run_reading_bind {f : σ → Except ε α} :
    (reading f >>= k) s = .ok b s' ↔ ∃ a, f s = .ok a ∧ k a s = .ok b s' := by
  simp only [run_bind_eq_ok, run_reading_eq_ok]
  constructor
  · rintro ⟨a, _, ⟨ha, rfl⟩, h⟩
    exact ⟨a, ha, h⟩
  · rintro ⟨a, ha, h⟩
    exact ⟨a, s, ⟨ha, rfl⟩, h⟩

theorem run_asking_bind {g : σ → α} : (asking g >>= k) s = .ok b s' ↔ k (g s) s = .ok b s' := by
  simp only [run_bind_eq_ok, asking, Result.ok.injEq]
  constructor
  · rintro ⟨_, _, ⟨rfl, rfl⟩, h⟩
    exact h
  · intro h
    exact ⟨_, _, ⟨rfl, rfl⟩, h⟩

theorem run_lift_bind :
    ((liftM x : EStateM ε σ α) >>= k) s = .ok b s' ↔ ∃ a, x = .ok a ∧ k a s = .ok b s' :=
  run_reading_bind

/-- The rules that take a handler apart up to its first write, as one list for `simp`. -/
theorem run_rules :
    (∀ {ε σ α β : Type} {g : σ → α} {k : α → EStateM ε σ β} {b : β} {s s' : σ},
      (asking g >>= k) s = .ok b s' ↔ k (g s) s = .ok b s') ∧
    (∀ {ε σ α β : Type} {x : Except ε α} {k : α → EStateM ε σ β} {b : β} {s s' : σ},
      ((liftM x : EStateM ε σ α) >>= k) s = .ok b s' ↔ ∃ a, x = .ok a ∧ k a s = .ok b s') ∧
    (∀ {ε : Type} {p : Prop} [Decidable p] {e : ε} {q : Unit → Prop},
      (∃ u, require p e = .ok u ∧ q u) ↔ p ∧ q ()) ∧ ∀ {α : Type} (a : α), id a = a :=
  ⟨run_asking_bind, run_lift_bind, exists_require, fun _ => rfl⟩

theorem run_modify_bind {g : σ → σ} {k : PUnit → EStateM ε σ β} :
    (modify g >>= k) s = .ok b s' ↔ k ⟨⟩ (g s) = .ok b s' := by
  simp only [run_bind_eq_ok, run_modify_eq_ok]
  constructor
  · rintro ⟨⟨⟩, _, rfl, h⟩
    exact h
  · intro h
    exact ⟨⟨⟩, _, rfl, h⟩

variable {f : α → EStateM ε σ PUnit}

theorem run_forM_cons :
    (a :: l).forM f s = .ok u s' ↔ ∃ s₁, f a s = .ok () s₁ ∧ l.forM f s₁ = .ok u s' := by
  change (f a >>= fun _ => l.forM f) s = _ ↔ _
  rw [run_bind_eq_ok]
  exact ⟨fun ⟨_, s₁, h⟩ => ⟨s₁, h⟩, fun ⟨s₁, h⟩ => ⟨_, s₁, h⟩⟩

theorem run_forM_append {l' : List α} :
    (l ++ l').forM f s = .ok u s' ↔ ∃ s₁, l.forM f s = .ok () s₁ ∧ l'.forM f s₁ = .ok u s' := by
  induction l generalizing s with
  | nil => simp [List.forM]
  | cons a l ih =>
    simp only [List.cons_append, run_forM_cons, ih]
    exact ⟨fun ⟨s₁, ha, s₂, h⟩ => ⟨s₂, ⟨s₁, ha, h.1⟩, h.2⟩,
      fun ⟨s₂, ⟨s₁, ha, h⟩, h'⟩ => ⟨s₁, ha, s₂, h, h'⟩⟩

theorem run_forM_reading {f : α → σ → Except ε PUnit} :
    (l.forM fun a => reading (f a)) s = .ok u s' ↔ (∀ a ∈ l, f a s = .ok ()) ∧ s = s' := by
  induction l with
  | nil => simp [List.forM]
  | cons a l ih =>
    simp only [run_forM_cons, run_reading_eq_ok, List.forall_mem_cons]
    constructor
    · rintro ⟨_, ⟨ha, rfl⟩, h⟩
      exact ⟨⟨ha, (ih.1 h).1⟩, (ih.1 h).2⟩
    · rintro ⟨⟨ha, hl⟩, rfl⟩
      exact ⟨s, ⟨ha, rfl⟩, ih.2 ⟨hl, rfl⟩⟩

theorem run_forM_reading_cases (l : List α) (f : α → σ → Except ε PUnit) (s : σ) :
    (l.forM fun a => reading (f a)) s = .ok () s ∨
      ∃ e, (l.forM fun a => reading (f a)) s = .error e s := by
  induction l with
  | nil => exact .inl rfl
  | cons a l ih =>
    change (reading (f a) >>= fun _ => l.forM fun a => reading (f a)) s = _ ∨
      ∃ e, (reading (f a) >>= fun _ => l.forM fun a => reading (f a)) s = _
    cases ha : f a s with
    | ok u =>
      rw [run_bind_of_ok (run_reading_of_ok ha)]
      exact ih
    | error e =>
      exact .inr ⟨e, run_bind_of_error (run_reading_of_error ha)⟩

theorem run_forM_foldl {τ : Type*} {R : σ → τ → Prop}
    {g : τ → α → τ} {t : τ}
    (hst : ∀ a ∈ l, ∀ s s' t, R s t → f a s = .ok () s' → R s' (g t a))
    (hs : R s t) (h : l.forM f s = .ok u s') : R s' (l.foldl g t) := by
  induction l generalizing s t with
  | nil =>
    obtain ⟨-, rfl⟩ := run_pure_eq_ok.1 h
    exact hs
  | cons a l ih =>
    obtain ⟨s₁, ha, h⟩ := run_forM_cons.1 h
    exact ih (fun a' ha' => hst a' (by simp [ha'])) (hst a (by simp) _ _ _ hs ha) h

theorem run_forM_sum {M : Type*} [AddCommMonoid M] {P : σ → Prop} {g : σ → M} {d : α → M}
    (hst : ∀ a ∈ l, ∀ s s', P s → f a s = .ok () s' → P s' ∧ g s' = g s + d a)
    (hs : P s) (h : l.forM f s = .ok u s') : P s' ∧ g s' = g s + (l.map d).sum := by
  induction l generalizing s with
  | nil =>
    obtain ⟨-, rfl⟩ := run_pure_eq_ok.1 h
    exact ⟨hs, by simp⟩
  | cons a l ih =>
    obtain ⟨s₁, ha, h⟩ := run_forM_cons.1 h
    obtain ⟨hs₁, hd⟩ := hst a (by simp) _ _ hs ha
    obtain ⟨hs', hl⟩ := ih (fun a' ha' => hst a' (by simp [ha'])) hs₁ h
    exact ⟨hs', by rw [hl, hd, List.map_cons, List.sum_cons, add_assoc]⟩

theorem run_forM_invariant {P : σ → Prop}
    (hst : ∀ a ∈ l, ∀ s s', P s → f a s = .ok () s' → P s') (hs : P s)
    (h : l.forM f s = .ok u s') : P s' :=
  run_forM_foldl (R := fun s (_ : Unit) => P s) (g := fun t _ => t) (t := ())
    (fun a ha s s' _ hP hf => hst a ha s s' hP hf) hs h

def finalState : Result ε σ α → σ
  | .ok _ s => s
  | .error _ s => s

def isOk : Result ε σ α → Bool
  | .ok _ _ => true
  | .error _ _ => false

theorem eq_ok_of_isOk {r : Result ε σ PUnit} (h : isOk r = true) : r = .ok () (finalState r) := by
  cases r with
  | ok => rfl
  | error => simp [isOk] at h

end State

end Foundation
