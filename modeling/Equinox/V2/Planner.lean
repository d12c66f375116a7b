import Equinox.Book.Matching
import Equinox.V2.Arena

/-! # Planning a match

A new order is matched against the opposite arena without writing it. The plan
lists the fills and what becomes of each leaf they touch; until it is applied,
the leaves are seen through the actions planned for them.
-/

namespace Equinox.V2

open Foundation CritBit

inductive TimeInForce where
  | goodTilCancelled | immediateOrCancel
  deriving DecidableEq, Repr

structure OrderInput extends Equinox.OrderInput where
  timeInForce : TimeInForce
  selfTradeBehavior : SelfTradeBehavior

/-- A pegged leaf under a zero expiry that stands for none. -/
def peggedState (leaf : LeafNode) (oracle : Option I64) (now : ℕ) : PeggedState :=
  Equinox.peggedState { leaf with expiresAt := expiryOf leaf } oracle now

/-- The key a leaf competes with: its own, or that of the price its offset stands for now. -/
def normalizedKey (leaf : LeafNode) (tree : TreeKind) (oracle : Option I64) (now : ℕ) :
    Except BookError (Option Key) :=
  match tree with
  | .fixed => pure (if leaf.quantity ≠ 0 ∧ now < expiryOf leaf then some leaf.key else none)
  | .oraclePegged =>
    match peggedState leaf oracle now with
    | .valid price => do
      let key ← priceTimeKey leaf.side price leaf.sequence
      pure (some key)
    | .invalid | .skipped => pure none

structure FillRecord where
  maker : ℕ
  taker : ℕ
  price : I64
  quantity : ℕ
  makerClientOrderId : ℕ
  makerRemaining : ℕ
  makerHandle : ℕ
  makerTree : TreeKind
  deriving DecidableEq

structure MatchLimits where
  maxFills : ℕ
  maxInvalidRemovals : ℕ
  maxExpiredRemovals : ℕ

def maxPlanActions : ℕ := 16

/-- What becomes of one leaf. A `phantom` action hides its leaf from the rest of the plan and
leaves it as it is. -/
structure PlanAction where
  handle : ℕ
  side : Side
  tree : TreeKind
  remove : Bool
  newQuantity : ℕ
  key : Key
  owner : ℕ
  expectedQuantity : ℕ
  phantom : Bool
  deriving DecidableEq

structure PlannedMatch where
  fills : List FillRecord
  remaining : ℕ
  invalidRemoved : ℕ
  expiredRemoved : ℕ
  selfCancelled : ℕ
  postOnlyRejected : Bool
  selfTradeAborted : Bool
  actions : List PlanAction
  deriving DecidableEq

def PlannedMatch.start (quantity : ℕ) : PlannedMatch where
  fills := []
  remaining := quantity
  invalidRemoved := 0
  expiredRemoved := 0
  selfCancelled := 0
  postOnlyRejected := false
  selfTradeAborted := false
  actions := []

/-- The actions with one more, which replaces an earlier one for the same leaf. -/
def addPlanAction (actions : List PlanAction) (action : PlanAction) :
    Except BookError (List PlanAction) :=
  match actions.findIdx? fun other => other.handle = action.handle ∧ other.tree = action.tree with
  | some i => pure (actions.set i action)
  | none => do
    require (actions.length < maxPlanActions) .badLimit
    pure (actions ++ [action])

def planAction (side : Side) (tree : TreeKind) (handle : ℕ) (leaf : LeafNode) (remove : Bool)
    (newQuantity : ℕ) (phantom : Bool) : PlanAction where
  handle
  side
  tree
  remove
  newQuantity
  key := leaf.key
  owner := leaf.owner
  expectedQuantity := leaf.quantity
  phantom

/-! ## Cleanup -/

def isInvalid (leaf : LeafNode) (tree : TreeKind) (oracle : Option I64) (now : ℕ) : Bool :=
  match tree with
  | .fixed => leaf.quantity = 0 || expiryOf leaf ≤ now
  | .oraclePegged => peggedState leaf oracle now = .invalid

/-- Plan the removal of a leaf that cannot trade, within the limits. -/
def planCleanup (side : Side) (oracle : Option I64) (now : ℕ) (limits : MatchLimits)
    (tree : TreeKind) (handle : ℕ) (leaf : LeafNode) (plan : PlannedMatch) :
    Except BookError PlannedMatch := do
  if isInvalid leaf tree oracle now then
    let expired := expiryOf leaf ≤ now
    require (if expired then plan.expiredRemoved < limits.maxExpiredRemovals
      else plan.invalidRemoved < limits.maxInvalidRemovals) .badLimit
    let actions ← addPlanAction plan.actions (planAction side tree handle leaf true 0 false)
    pure { plan with
      expiredRemoved := if expired then plan.expiredRemoved + 1 else plan.expiredRemoved
      invalidRemoved := if expired then plan.invalidRemoved else plan.invalidRemoved + 1
      actions }
  else pure plan

/-- Run a step for each tree that holds the leaf of a slot. -/
def Arena.forTrees {α : Type} (a : Arena) (step : TreeKind → LeafNode → α → Except BookError α)
    (acc : α) (handle : ℕ) : Except BookError α := do
  match ← a.tag handle with
  | .leaf leaf =>
    [TreeKind.fixed, TreeKind.oraclePegged].foldlM (fun acc tree => do
      if ← a.findsAt tree leaf.key handle then step tree leaf acc else pure acc) acc
  | _ => pure acc

/-! ## Candidates -/

/-- The quantity a leaf has left once the planned actions are done. -/
def virtualQuantity (actions : List PlanAction) (tree : TreeKind) (handle quantity : ℕ) : ℕ :=
  match actions.find? fun action => action.handle = handle ∧ action.tree = tree with
  | some action => if action.remove || action.phantom then 0 else action.newQuantity
  | none => quantity

structure VirtualCandidate where
  tree : TreeKind
  handle : ℕ
  leaf : LeafNode
  price : I64
  normalized : Key

def candidatePrice (leaf : LeafNode) (tree : TreeKind) (oracle : Option I64) (now : ℕ) :
    Option I64 :=
  match tree with
  | .fixed => some leaf.priceOrOffset
  | .oraclePegged =>
    match peggedState leaf oracle now with
    | .valid price => some price
    | .invalid | .skipped => none

/-- Keep the candidate with the lesser key; the one found first wins a tie. -/
def lesser (selected : Option VirtualCandidate) (next : VirtualCandidate) :
    Option VirtualCandidate :=
  match selected with
  | none => some next
  | some current => if next.normalized < current.normalized then some next else some current

def considerLeaf (oracle : Option I64) (now : ℕ) (actions : List PlanAction) (handle : ℕ)
    (tree : TreeKind) (leaf : LeafNode) (selected : Option VirtualCandidate) :
    Except BookError (Option VirtualCandidate) := do
  let candidate := { leaf with quantity := virtualQuantity actions tree handle leaf.quantity }
  if candidate.quantity = 0 then pure selected
  else
    match ← normalizedKey candidate tree oracle now, candidatePrice candidate tree oracle now with
    | some normalized, some price =>
      pure (lesser selected { tree, handle, leaf := candidate, price, normalized })
    | _, _ => pure selected

def bestVirtualCandidate (a : Arena) (oracle : Option I64) (now : ℕ) (actions : List PlanAction) :
    Except BookError (Option VirtualCandidate) :=
  (List.range a.bumpIndex).foldlM
    (fun selected handle => a.forTrees (considerLeaf oracle now actions handle) selected handle)
    none

/-! ## The plan -/

def planSelfTrade (order : OrderInput) (maker : VirtualCandidate) (plan : PlannedMatch) :
    Except BookError PlannedMatch :=
  let side := order.side.opposite
  match order.selfTradeBehavior with
  | .abortTransaction => pure { plan with selfTradeAborted := true }
  | .cancelProvide => do
    let actions ← addPlanAction plan.actions
      (planAction side maker.tree maker.handle maker.leaf true 0 false)
    pure { plan with actions, selfCancelled := min (plan.selfCancelled + 1) 255 }
  | .decrementTake => do
    let actions ← addPlanAction plan.actions
      (planAction side maker.tree maker.handle maker.leaf false maker.leaf.quantity true)
    pure { plan with
      actions
      remaining := plan.remaining - min maker.leaf.quantity plan.remaining
      selfCancelled := min (plan.selfCancelled + 1) 255 }

def planFill (order : OrderInput) (maker : VirtualCandidate) (plan : PlannedMatch) :
    Except BookError PlannedMatch := do
  let amount := min maker.leaf.quantity plan.remaining
  let after := maker.leaf.quantity - amount
  let actions ← addPlanAction plan.actions
    (planAction order.side.opposite maker.tree maker.handle maker.leaf (after = 0) after false)
  pure { plan with
    fills := plan.fills ++ [{
      maker := maker.leaf.owner
      taker := order.owner
      price := maker.price
      quantity := amount
      makerClientOrderId := maker.leaf.clientOrderId
      makerRemaining := after
      makerHandle := maker.handle
      makerTree := maker.tree }]
    remaining := plan.remaining - amount
    actions }

def planFrom (a : Arena) (order : OrderInput) (takerPrice : I64) (oracle : Option I64) (now : ℕ)
    (maxFills : ℕ) : (room : ℕ) → PlannedMatch → Except BookError PlannedMatch
  | 0, plan => pure plan
  | room + 1, plan =>
    if plan.remaining = 0 ∨ maxFills ≤ plan.fills.length then pure plan
    else do
      match ← bestVirtualCandidate a oracle now plan.actions with
      | none => pure plan
      | some maker =>
        if crosses order.side takerPrice.val maker.price.val = false then pure plan
        else if order.postOnly then pure { plan with postOnlyRejected := true }
        else if maker.leaf.owner = order.owner then
          let plan ← planSelfTrade order maker plan
          if plan.selfTradeAborted then pure plan
          else planFrom a order takerPrice oracle now maxFills room plan
        else
          let plan ← planFill order maker plan
          planFrom a order takerPrice oracle now maxFills room plan

def takerPrice (order : OrderInput) (oracle : Option I64) : Except BookError I64 := do
  let price ← match order.tree with
    | .fixed => pure order.priceOrOffset
    | .oraclePegged => okOr (oracle.bind (·.checkedAdd order.priceOrOffset)) .badPrice
  require (0 < price.val) .badPrice
  pure price

/-- The plan of an order against an arena of the opposite side. -/
def planLimitArena (a : Arena) (order : OrderInput) (oracle : Option I64) (now : ℕ)
    (limits : MatchLimits) : Except BookError PlannedMatch := do
  require (order.quantity ≠ 0 ∧ limits.maxFills ≤ maxFillsPerInstruction ∧
    limits.maxInvalidRemovals + limits.maxExpiredRemovals + limits.maxFills + 2 ≤ maxPlanActions)
    .badLimit
  let price ← takerPrice order oracle
  let cleaned ← (List.range a.bumpIndex).foldlM (fun plan handle =>
    a.forTrees (fun tree leaf plan =>
      planCleanup order.side.opposite oracle now limits tree handle leaf plan) plan handle)
    (.start order.quantity)
  planFrom a order price oracle now limits.maxFills maxPlanActions cleaned

def planLimitArenas (arenas : Side → Arena) (order : OrderInput) (oracle : Option I64) (now : ℕ)
    (limits : MatchLimits) : Except BookError PlannedMatch :=
  planLimitArena (arenas order.side.opposite) order oracle now limits

end Equinox.V2
