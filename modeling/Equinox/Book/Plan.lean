import Equinox.Book.Makers

/-! # What a plan does

A plan walks down the sorted makers and uses each one in turn: it fills the
orders of others, and cancels or passes its own. The planner computes exactly
this walk, and applying a plan exchanges the used leaves of the book.
-/

namespace Equinox

open Foundation CritBit List V3MatchPlan Except

/-- What a taker does with a maker. -/
inductive Use where
  | cancelled | passed
  | filled (quantity : ℕ)
  deriving DecidableEq

namespace Maker

def toFill (x : Maker) (quantity : ℕ) : V3Fill where
  makerTree := x.tree
  makerHandle := x.handle
  makerOwner := x.leaf.owner
  key := x.leaf.key
  price := x.price.val.toNat
  reservePrice := fillReservePrice x.leaf x.price
  quantity
  makerRemaining := x.leaf.quantity - quantity

def toCancellation (x : Maker) : V3SelfTradeCancellation where
  makerTree := x.tree
  makerHandle := x.handle
  makerOwner := x.leaf.owner
  key := x.leaf.key
  quantity := x.leaf.quantity
  price := x.price.val.toNat
  reservePrice := fillReservePrice x.leaf x.price
  side := x.leaf.side

end Maker

def fillOf : Maker × Use → Option V3Fill
  | (x, .filled quantity) => some (x.toFill quantity)
  | _ => none

def cancellationOf : Maker × Use → Option V3SelfTradeCancellation
  | (x, .cancelled) => some x.toCancellation
  | _ => none

def consumed : Maker × Use → ℕ
  | (_, .cancelled) => 0
  | (x, _) => x.leaf.quantity

def V3MatchPlan.extend (plan : V3MatchPlan) (uses : List (Maker × Use)) : V3MatchPlan where
  fills := plan.fills ++ uses.filterMap fillOf
  takerRemaining := plan.takerRemaining - (uses.map consumed).sum
  cancellations := plan.cancellations ++ uses.filterMap cancellationOf

namespace PagedBookV3

/-- Walk down a list of makers with some room, until nothing remains or the price is not reached. -/
def Taker.uses (taker : Taker) : (room remaining : ℕ) → List Maker →
    Except ProgramError (List (Maker × Use))
  | 0, _, _ => pure []
  | _ + 1, _, [] => pure []
  | room + 1, remaining, x :: xs =>
    if remaining = 0 ∨ crosses taker.side taker.price.val x.price.val = false then pure []
    else if x.leaf.owner = taker.owner then
      match taker.selfTradeBehavior with
      | .abortTransaction => throw (.custom .selfTradeAborted)
      | .decrementTake => do
        let rest ← taker.uses room (remaining - x.leaf.quantity) xs
        pure ((x, .passed) :: rest)
      | .cancelProvide => do
        let rest ← taker.uses room remaining xs
        pure ((x, .cancelled) :: rest)
    else do
      let rest ← taker.uses room (remaining - x.leaf.quantity) xs
      pure ((x, .filled (min x.leaf.quantity remaining)) :: rest)

variable {b : PagedBookV3} {taker : Taker} {oracle : Option I64} {now room : ℕ}
  {selected : List (TreeKind × ℕ)} {plan : V3MatchPlan} {x : Maker} {xs : List Maker}

theorem Taker.uses_zero (taker : Taker) (room : ℕ) (xs : List Maker) :
    taker.uses room 0 xs = .ok [] := by
  cases room with
  | zero => rfl
  | succ room =>
    cases xs with
    | nil => rfl
    | cons x xs => rw [Taker.uses, if_pos (.inl rfl)]; rfl

theorem extend_nil (plan : V3MatchPlan) : plan.extend [] = plan := by
  simp [extend]

theorem sub_min (a b : ℕ) : b - min a b = b - a := by omega

theorem extend_passed (plan : V3MatchPlan) (uses : List (Maker × Use)) :
    { plan with takerRemaining := plan.takerRemaining - x.leaf.quantity }.extend uses =
      plan.extend ((x, .passed) :: uses) := by
  simp [extend, filterMap_cons, fillOf, cancellationOf, consumed, Nat.sub_sub]

theorem extend_cancelled (plan : V3MatchPlan) (uses : List (Maker × Use)) :
    { plan with cancellations := plan.cancellations ++ [x.toCancellation] }.extend uses =
      plan.extend ((x, .cancelled) :: uses) := by
  simp [extend, filterMap_cons, fillOf, cancellationOf, consumed]

theorem extend_filled (plan : V3MatchPlan) (uses : List (Maker × Use)) (quantity : ℕ) : { plan with
      fills := plan.fills ++ [x.toFill quantity]
      takerRemaining := plan.takerRemaining - x.leaf.quantity }.extend uses =
      plan.extend ((x, .filled quantity) :: uses) := by
  simp [extend, filterMap_cons, fillOf, cancellationOf, consumed, Nat.sub_sub]

theorem map_uses (f : List (Maker × Use) → V3MatchPlan) (u : Maker × Use)
    (r : Except ProgramError (List (Maker × Use))) :
    (do let rest ← r; pure (u :: rest)).map f = r.map fun rest => f (u :: rest) := by
  cases r <;> rfl

/-- The planner walks down the queue of makers. -/
theorem WellFormed.planFrom_eq (hb : b.WellFormed)
    {done rest : List Maker} (hs : b.queue taker.side.opposite oracle now = done ++ rest)
    (hsel : Selected selected done)
    (hr : plan.cancellations.length + room ≤ maxFillsPerInstruction) :
    b.planFrom [.fixed, .oraclePegged] taker oracle now room plan selected =
      (taker.uses room plan.takerRemaining rest).map plan.extend := by
  induction room generalizing plan selected done rest with
  | zero =>
    simp only [planFrom, Taker.uses]
    exact congrArg ok (extend_nil plan).symm
  | succ room ih =>
    by_cases hz : plan.takerRemaining = 0
    · rw [planFrom, if_pos hz, hz, Taker.uses_zero]
      exact congrArg ok (extend_nil plan).symm
    rw [planFrom, if_neg hz, hb.bestUnselectedAcross_eq hs hsel, ok_bind]
    cases rest with
    | nil =>
      exact congrArg ok (extend_nil plan).symm
    | cons x xs =>
      have hx : x ∈ b.queue taker.side.opposite oracle now := by simp [hs]
      obtain ⟨hmem, hp⟩ := mem_queue.1 hx
      obtain ⟨-, -, he, hsi⟩ := executablePrice_eq_some hp
      have hsp' : b.queue taker.side.opposite oracle now = (done ++ [x]) ++ xs := by
        simp [hs]
      have hs' := hsel.snoc x
      have hl : ¬(x.leaf.expiresAt ≤ now ∨ x.leaf.side ≠ taker.side.opposite) := by
        rintro (hle | hne)
        · omega
        · exact hne hsi
      simp only [head?_cons, Option.map_some, Maker.candidate, hb.leaf_eq hmem, ok_bind, if_neg hl]
      rw [Taker.uses]
      by_cases hc : crosses taker.side taker.price.val x.price.val = false
      · rw [if_pos hc, if_pos (.inr hc)]
        exact congrArg ok (extend_nil plan).symm
      rw [if_neg hc, if_neg (not_or.2 ⟨hz, hc⟩)]
      by_cases ho : x.leaf.owner = taker.owner
      · rw [if_pos ho, if_pos ho]
        cases taker.selfTradeBehavior with
        | abortTransaction => rfl
        | decrementTake =>
          simp only [map_uses, sub_min, ← extend_passed]
          refine ih hsp' hs' ?_
          dsimp only
          omega
        | cancelProvide =>
          have hf : ¬maxFillsPerInstruction ≤ plan.cancellations.length := by omega
          simp only [map_uses, ← extend_cancelled, if_neg hf]
          refine ih hsp' hs' ?_
          simp only [length_append, length_singleton]
          omega
      · rw [if_neg ho, if_neg ho, map_uses]
        simp only [sub_min, ← extend_filled]
        split
        · rename_i hlt
          have hd : plan.takerRemaining - x.leaf.quantity = 0 := by omega
          rw [hd, Taker.uses_zero]
          exact congrArg ok (extend_nil _).symm
        · refine ih hsp' hs' ?_
          dsimp only
          omega

theorem WellFormed.planCrossingTrees_eq (hb : b.WellFormed) {quantity : ℕ}
    (hpos : 0 < taker.price.val ∧ 0 < quantity) :
    b.planCrossingTrees [.fixed, .oraclePegged] taker quantity oracle now =
      (taker.uses maxFillsPerInstruction quantity
        (b.queue taker.side.opposite oracle now)).map (extend ⟨[], quantity, []⟩) := by
  have hs : Selected [] [] := fun p => by simp
  rw [planCrossingTrees, require, if_pos hpos]
  exact hb.planFrom_eq (nil_append _).symm hs (by simp)

theorem WellFormed.planCrossingTrees_eq_ok (hb : b.WellFormed) {quantity : ℕ}
    (h : b.planCrossingTrees [.fixed, .oraclePegged] taker quantity oracle now = .ok plan) :
    ∃ uses, taker.uses maxFillsPerInstruction quantity (b.queue taker.side.opposite oracle now) =
      .ok uses ∧ plan = extend ⟨[], quantity, []⟩ uses := by
  have hpos : 0 < taker.price.val ∧ 0 < quantity := by
    simp only [planCrossingTrees, ok_rules] at h
    exact h.1
  rw [hb.planCrossingTrees_eq hpos] at h
  obtain ⟨uses, hu, rfl⟩ := map_eq_ok.1 h
  exact ⟨uses, hu, rfl⟩

theorem WellFormed.planCrossingCrossTree_eq (hb : b.WellFormed) (hs : b.DistinctSequences)
    {quantity : ℕ} (hpos : 0 < taker.price.val ∧ 0 < quantity) :
    b.planCrossingCrossTree taker quantity oracle now =
      (taker.uses maxFillsPerInstruction quantity
        (b.makers taker.side.opposite oracle now)).map (extend ⟨[], quantity, []⟩) := by
  rw [← hb.queue_eq_makers hs]
  exact hb.planCrossingTrees_eq hpos

theorem WellFormed.planCrossingCrossTree_eq_ok (hb : b.WellFormed) (hs : b.DistinctSequences)
    {quantity : ℕ} (h : b.planCrossingCrossTree taker quantity oracle now = .ok plan) :
    ∃ uses, taker.uses maxFillsPerInstruction quantity (b.makers taker.side.opposite oracle now) =
      .ok uses ∧ plan = extend ⟨[], quantity, []⟩ uses := by
  rw [← hb.queue_eq_makers hs]
  exact hb.planCrossingTrees_eq_ok h

/-! ## Walks -/

/-- The ways a walk over makers can go. -/
inductive Taker.Walk (taker : Taker) : ℕ → ℕ → List Maker → List (Maker × Use) → Prop
  | full {remaining : ℕ} {xs : List Maker} : Walk taker 0 remaining xs []
  | done {room : ℕ} {xs : List Maker} : Walk taker room 0 xs []
  | ended {room remaining : ℕ} : Walk taker room remaining [] []
  | stopped {room remaining : ℕ} {x : Maker} {xs : List Maker}
    (beyond : crosses taker.side taker.price.val x.price.val = false) :
    Walk taker room remaining (x :: xs) []
  | passed {room remaining : ℕ} {x : Maker} {xs : List Maker} {uses : List (Maker × Use)}
    (more : remaining ≠ 0) (reached : crosses taker.side taker.price.val x.price.val = true)
    (own : x.leaf.owner = taker.owner) (behavior : taker.selfTradeBehavior = .decrementTake)
    (rest : Walk taker room (remaining - x.leaf.quantity) xs uses) :
    Walk taker (room + 1) remaining (x :: xs) ((x, .passed) :: uses)
  | cancelled {room remaining : ℕ} {x : Maker} {xs : List Maker} {uses : List (Maker × Use)}
    (more : remaining ≠ 0) (reached : crosses taker.side taker.price.val x.price.val = true)
    (own : x.leaf.owner = taker.owner) (behavior : taker.selfTradeBehavior = .cancelProvide)
    (rest : Walk taker room remaining xs uses) :
    Walk taker (room + 1) remaining (x :: xs) ((x, .cancelled) :: uses)
  | filled {room remaining : ℕ} {x : Maker} {xs : List Maker} {uses : List (Maker × Use)}
    (more : remaining ≠ 0) (reached : crosses taker.side taker.price.val x.price.val = true)
    (other : x.leaf.owner ≠ taker.owner)
    (rest : Walk taker room (remaining - x.leaf.quantity) xs uses) :
    Walk taker (room + 1) remaining (x :: xs)
      ((x, .filled (min x.leaf.quantity remaining)) :: uses)

variable {remaining : ℕ} {uses : List (Maker × Use)} {u : Maker × Use}

theorem Taker.walk_of_uses (h : taker.uses room remaining xs = .ok uses) :
    taker.Walk room remaining xs uses := by
  induction room generalizing remaining xs uses with
  | zero =>
    obtain rfl := pure_eq_ok.1 h
    exact .full
  | succ room ih =>
    cases xs with
    | nil =>
      obtain rfl := pure_eq_ok.1 h
      exact .ended
    | cons x xs =>
      rw [Taker.uses] at h
      split_ifs at h with hs ho
      · obtain rfl := pure_eq_ok.1 h
        rcases hs with rfl | hbe
        · exact .done
        · exact .stopped hbe
      · obtain ⟨hm, hre⟩ := not_or.1 hs
        split at h
        · simp at h
        · rename_i hb
          simp only [ok_rules] at h
          obtain ⟨rest, hr, rfl⟩ := h
          exact .passed hm (by simpa using hre) ho hb (ih hr)
        · rename_i hb
          simp only [ok_rules] at h
          obtain ⟨rest, hr, rfl⟩ := h
          exact .cancelled hm (by simpa using hre) ho hb (ih hr)
      · obtain ⟨hm, hre⟩ := not_or.1 hs
        simp only [ok_rules] at h
        obtain ⟨rest, hr, rfl⟩ := h
        exact .filled hm (by simpa using hre) ho (ih hr)

namespace Taker.Walk

theorem isPrefix (h : taker.Walk room remaining xs uses) : uses.map Prod.fst <+: xs := by
  induction h with
  | full | done | ended | stopped => exact nil_prefix
  | passed _ _ _ _ _ ih | cancelled _ _ _ _ _ ih | filled _ _ _ _ ih =>
    exact cons_prefix_cons.2 ⟨rfl, ih⟩

/-- A maker that is filled gives what is wanted still, at most all it has. -/
theorem filled_of_mem (h : taker.Walk room remaining xs uses) {x : Maker} {n : ℕ}
    (hu : (x, .filled n) ∈ uses) :
    x.leaf.owner ≠ taker.owner ∧ ∃ wanted ≠ 0, n = min x.leaf.quantity wanted := by
  induction h with
  | full | done | ended | stopped => simp at hu
  | passed _ _ _ _ _ ih | cancelled _ _ _ _ _ ih => exact ih (by simpa using hu)
  | filled more _ other _ ih =>
    rcases mem_cons.1 hu with heq | hu
    · simp only [Prod.mk.injEq, Use.filled.injEq] at heq
      obtain ⟨rfl, rfl⟩ := heq
      exact ⟨other, _, more, rfl⟩
    · exact ih hu

theorem filled_le (h : taker.Walk room remaining xs uses) {x : Maker} {n : ℕ}
    (hu : (x, .filled n) ∈ uses) : n ≤ x.leaf.quantity := by
  obtain ⟨-, wanted, -, rfl⟩ := h.filled_of_mem hu
  exact min_le_left _ _

end Taker.Walk

end PagedBookV3

end Equinox
