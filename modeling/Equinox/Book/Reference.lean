import Equinox.Book.Applied
import Equinox.Book.Reach

/-! # The reference matcher

A taker meets the makers whose price it reaches in price-time order, at most four
of them, as long as some of its quantity is open. The planner's repeated scans
over all slots compute exactly the plan of this walk.
-/

namespace Equinox

open Foundation CritBit List V3MatchPlan

namespace PagedBookV3

variable {b : PagedBookV3} {taker : Taker} {oracle : Option I64} {now room due : ℕ} {x : Maker}
  {xs : List Maker} {uses : List (Maker × Use)} {plan : V3MatchPlan}

/-- How much of a quantity still open a maker takes away. -/
def Taker.taken (taker : Taker) (x : Maker) (due : ℕ) : ℕ :=
  if x.leaf.owner = taker.owner ∧ taker.selfTradeBehavior ≠ .decrementTake then 0
  else min x.leaf.quantity due

/-- The makers that a taker meets, each with the quantity then still open. -/
def Taker.meets (taker : Taker) : (room due : ℕ) → List Maker → List (Maker × ℕ)
  | 0, _, _ => []
  | _ + 1, _, [] => []
  | room + 1, due, x :: xs =>
    if due = 0 then [] else (x, due) :: taker.meets room (due - taker.taken x due) xs

def Taker.fill (taker : Taker) (u : Maker × ℕ) : Option V3Fill :=
  if u.1.leaf.owner = taker.owner then none else some (u.1.toFill (min u.1.leaf.quantity u.2))

def Taker.cancellation (taker : Taker) (u : Maker × ℕ) : Option V3SelfTradeCancellation :=
  if u.1.leaf.owner = taker.owner ∧ taker.selfTradeBehavior = .cancelProvide then
    some u.1.toCancellation
  else none

/-- Own quantities are skipped under decrement-take. -/
def Taker.skipped (taker : Taker) (u : Maker × ℕ) : ℕ :=
  if u.1.leaf.owner = taker.owner ∧ taker.selfTradeBehavior = .decrementTake then
    min u.1.leaf.quantity u.2
  else 0

/-- The executable orders of one side of a book, in price-time order. -/
structure PriceTime (b : PagedBookV3) (side : Side) (oracle : Option I64) (now : ℕ)
    (makers : List Maker) : Prop where
  nodup : makers.Nodup
  mem_iff : ∀ x, x ∈ makers ↔ (x.handle, x.leaf) ∈ b.leaves x.tree ∧
    executablePrice x.leaf x.tree side oracle now = some x.price
  key : ∀ x ∈ makers, priceTimeKey side x.price x.leaf.sequence = .ok (x.rank side)
  sorted : makers.Pairwise fun x y => x.rank side < y.rank side ∨
    x.rank side = y.rank side ∧ visit x.place < visit y.place

/-- The plan that matches a quantity against the makers it reaches, by those that it meets. -/
structure Taker.Matched (taker : Taker) (quantity : ℕ) (makers : List Maker) (plan : V3MatchPlan)
    (met : List (Maker × ℕ)) : Prop where
  selected : met.map Prod.fst <+: makers.take maxFillsPerInstruction
  complete : plan.takerRemaining ≠ 0 → met.map Prod.fst = makers.take maxFillsPerInstruction
  others : taker.selfTradeBehavior = .abortTransaction → ∀ u ∈ met, u.1.leaf.owner ≠ taker.owner
  fills : plan.fills = met.filterMap taker.fill
  cancellations : plan.cancellations = met.filterMap taker.cancellation
  balance : quantity =
    (plan.fills.map (·.quantity)).sum + (met.map taker.skipped).sum + plan.takerRemaining

/-! ## Walks and meetings -/

theorem Taker.meets_zero (taker : Taker) (room : ℕ) (xs : List Maker) :
    taker.meets room 0 xs = [] := by
  cases room with
  | zero => rfl
  | succ room =>
    cases xs with
    | nil => rfl
    | cons x xs => rw [Taker.meets, if_pos rfl]

theorem Taker.meets_nil (taker : Taker) (room due : ℕ) : taker.meets room due [] = [] := by
  cases room <;> rfl

def Taker.use (taker : Taker) (u : Maker × ℕ) : Use :=
  if u.1.leaf.owner = taker.owner then
    match taker.selfTradeBehavior with
    | .decrementTake => .passed
    | _ => .cancelled
  else .filled (min u.1.leaf.quantity u.2)

theorem Taker.Walk.eq_meets (h : taker.Walk room due xs uses) :
    uses = (taker.meets room due (taker.reached xs)).map fun u => (u.1, taker.use u) := by
  induction h with
  | full => rfl
  | done => rw [meets_zero]; rfl
  | ended => rw [reached, takeWhile_nil, meets_nil]; rfl
  | stopped beyond => rw [reached, takeWhile_cons_of_neg (by simp [beyond]), meets_nil]; rfl
  | passed more reached own behavior _ ih =>
    rw [reached_cons reached, meets, if_neg more, map_cons, ih]
    simp [use, taken, own, behavior, sub_min]
  | cancelled more reached own behavior _ ih =>
    rw [reached_cons reached, meets, if_neg more, map_cons, ih]
    simp [use, taken, own, behavior]
  | filled more reached other _ ih =>
    rw [reached_cons reached, meets, if_neg more, map_cons, ih]
    simp [use, taken, other, sub_min]

theorem Taker.Walk.others (h : taker.Walk room due xs uses)
    (ha : taker.selfTradeBehavior = .abortTransaction) :
    ∀ u ∈ uses, u.1.leaf.owner ≠ taker.owner := by
  induction h with
  | full | done | ended | stopped => simp
  | passed _ _ _ behavior _ _ | cancelled _ _ _ behavior _ _ => simp [behavior] at ha
  | filled _ _ other _ ih => exact forall_mem_cons.2 ⟨other, ih⟩

/-- What is filled, skipped and left makes up the whole quantity. -/
theorem Taker.meets_balance (taker : Taker) (room due : ℕ) (xs : List Maker) :
    due = (((taker.meets room due xs).filterMap taker.fill).map (·.quantity)).sum +
      ((taker.meets room due xs).map taker.skipped).sum +
      (due - ((taker.meets room due xs).map fun u => consumed (u.1, taker.use u)).sum) := by
  induction room generalizing due xs with
  | zero => simp [meets]
  | succ room ih =>
    cases xs with
    | nil => simp [meets]
    | cons x xs =>
      rw [meets]
      split
      · simp [*]
      · have ih := ih (due - taker.taken x due) xs
        simp only [filterMap_cons, map_cons, sum_cons]
        by_cases ho : x.leaf.owner = taker.owner
        · cases hb : taker.selfTradeBehavior with
          | decrementTake =>
            simp only [taken, ho, hb, fill, skipped, use, consumed, ne_eq,
              not_true_eq_false, and_false, if_false, and_self, if_true] at ih ⊢
            omega
          | abortTransaction | cancelProvide =>
            simp only [taken, ho, hb, fill, skipped, use, consumed, ne_eq, reduceCtorEq,
              not_false_eq_true, and_self, if_true, and_false, if_false, Nat.sub_zero] at ih ⊢
            omega
        · simp only [taken, ho, fill, skipped, use, consumed, false_and, if_false, map_cons,
            sum_cons, Maker.toFill] at ih ⊢
          omega

theorem WellFormed.priceTime (hb : b.WellFormed) (side : Side) (oracle : Option I64) (now : ℕ) :
    b.PriceTime side oracle now (b.queue side oracle now) where
  nodup := Nodup.of_map _ hb.queue_places_nodup
  mem_iff _ := mem_queue
  key _ hx := priceTimeKey_of_pos (executablePrice_eq_some (mem_queue.1 hx).2).1 _
  sorted := hb.queue_sorted.imp Prod.Lex.toLex_lt_toLex.1

theorem WellFormed.reached_queue (hb : b.WellFormed) (taker : Taker) (oracle : Option I64)
    (now : ℕ) : taker.reached (b.queue taker.side.opposite oracle now) =
      (b.queue taker.side.opposite oracle now).filter fun x =>
        crosses taker.side taker.price.val x.price.val := by
  have hpos : ∀ y ∈ b.queue taker.side.opposite oracle now, 0 < y.price.val := fun y hy =>
    (executablePrice_eq_some (mem_queue.1 hy).2).1
  refine takeWhile_eq_filter (hb.queue_sorted.imp_of_mem fun {y z} hy hz hlt => ?_)
  exact crosses_of_rank_le (hpos y hy) (hpos z hz) (rank_le_of_priority_lt hlt)

theorem Taker.fillOf_use (taker : Taker) (u : Maker × ℕ) :
    fillOf (u.1, taker.use u) = taker.fill u := by
  unfold use fill
  split
  · cases taker.selfTradeBehavior <;> rfl
  · rfl

theorem Taker.cancellationOf_use {u : Maker × ℕ}
    (h : taker.selfTradeBehavior = .abortTransaction → u.1.leaf.owner ≠ taker.owner) :
    cancellationOf (u.1, taker.use u) = taker.cancellation u := by
  unfold use cancellation
  by_cases ho : u.1.leaf.owner = taker.owner
  · cases hb : taker.selfTradeBehavior with
    | abortTransaction => exact absurd ho (h hb)
    | decrementTake | cancelProvide => simp [ho, cancellationOf]
  · simp [ho, cancellationOf]

theorem Taker.matched_of_uses {quantity : ℕ}
    (h : taker.uses maxFillsPerInstruction quantity xs = .ok uses) :
    taker.Matched quantity (taker.reached xs) (extend ⟨[], quantity, []⟩ uses)
      (taker.meets maxFillsPerInstruction quantity (taker.reached xs)) := by
  have hw := taker.walk_of_uses h
  have heq := hw.eq_meets
  have hb := taker.meets_balance maxFillsPerInstruction quantity (taker.reached xs)
  generalize taker.meets maxFillsPerInstruction quantity (taker.reached xs) = met at heq hb ⊢
  have hfst : met.map Prod.fst = uses.map Prod.fst := by
    rw [heq, map_map]
    rfl
  have ho (ha : taker.selfTradeBehavior = .abortTransaction) :
      ∀ u ∈ met, u.1.leaf.owner ≠ taker.owner := by
    intro u hu
    have hmem : (u.1, taker.use u) ∈ uses := heq ▸ mem_map_of_mem hu
    exact hw.others ha _ hmem
  have hf : uses.filterMap fillOf = met.filterMap taker.fill := by
    rw [heq, filterMap_map]
    exact filterMap_congr fun u _ => taker.fillOf_use u
  have hc : uses.filterMap cancellationOf = met.filterMap taker.cancellation := by
    rw [heq, filterMap_map]
    exact filterMap_congr fun u hu => cancellationOf_use fun ha => ho ha u hu
  have hco : (met.map fun u => consumed (u.1, taker.use u)) = uses.map consumed := by
    rw [heq, map_map]
    rfl
  constructor
  · rw [hfst]
    exact hw.isPrefix_reached
  · intro hm
    rw [hfst]
    refine hw.map_fst_eq ?_
    simp only [extend] at hm
    omega
  · exact ho
  · exact hf
  · exact hc
  · simp only [extend, nil_append, hf]
    rwa [hco] at hb

/-- The planner leaves the book alone, and what it plans is the match of the taker with the makers
of the other side that cross its price, in price-time order. -/
theorem planCrossingTrees_matches (hb : b.WellFormed) (taker : Taker) (quantity : ℕ)
    (oracle : Option I64) (now : ℕ) :
    finalState ((reading (·.planCrossingTrees [.fixed, .oraclePegged] taker quantity oracle now) :
      BookM V3MatchPlan) b) = b ∧
    ∀ plan, b.planCrossingTrees [.fixed, .oraclePegged] taker quantity oracle now = .ok plan →
      ∃ makers, b.PriceTime taker.side.opposite oracle now makers ∧
        taker.Matched quantity
          (makers.filter fun x => crosses taker.side taker.price.val x.price.val) plan
          (taker.meets maxFillsPerInstruction quantity
            (makers.filter fun x => crosses taker.side taker.price.val x.price.val)) := by
  constructor
  · unfold reading
    split <;> rfl
  · intro plan h
    obtain ⟨uses, hu, rfl⟩ := hb.planCrossingTrees_eq_ok h
    refine ⟨_, hb.priceTime taker.side.opposite oracle now, ?_⟩
    rw [← hb.reached_queue taker oracle now]
    exact Taker.matched_of_uses hu

def sampleTaker : Taker where
  side := .bid
  owner := 2
  selfTradeBehavior := .cancelProvide
  price := 12

/-- It buys both orders of the book, the second one in part. -/
def samplePlanned : V3MatchPlan where
  fills := [
    { makerTree := .fixed, makerHandle := 0, makerOwner := 1, key := 5, price := 10,
      reservePrice := 10, quantity := 2, makerRemaining := 0 },
    { makerTree := .fixed, makerHandle := 1, makerOwner := 1, key := 9, price := 10,
      reservePrice := 10, quantity := 2, makerRemaining := 1 }]
  takerRemaining := 0
  cancellations := []

theorem planCrossingTrees_matches_of_pair : ∃ b, insertPair fresh = .ok () b ∧
    b.planCrossingTrees [.fixed, .oraclePegged] sampleTaker 4 none 0 = .ok samplePlanned ∧
    ∃ makers, b.PriceTime .ask none 0 makers ∧
      sampleTaker.Matched 4 (makers.filter fun x => crosses .bid 12 x.price.val) samplePlanned
        (sampleTaker.meets maxFillsPerInstruction 4
          (makers.filter fun x => crosses .bid 12 x.price.val)) := by
  have hr : insertPair fresh = .ok () (finalState (insertPair fresh)) :=
    eq_ok_of_isOk (by decide +kernel)
  have hp : (finalState (insertPair fresh)).planCrossingTrees [.fixed, .oraclePegged]
      sampleTaker 4 none 0 = .ok samplePlanned := by
    decide +kernel
  exact ⟨_, hr, hp, (planCrossingTrees_matches (wellFormed_of_insertPair hr) sampleTaker 4
    none 0).2 samplePlanned hp⟩

end PagedBookV3

end Equinox
