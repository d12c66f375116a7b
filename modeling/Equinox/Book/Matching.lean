import Equinox.Book.Paged

/-! # Matching against a paged book

The planner selects at most four crossing makers by executable price and time,
without touching the book; a plan is applied only if every planned maker is
still as planned.
-/

namespace Equinox

open Foundation CritBit

inductive SelfTradeBehavior where
  | abortTransaction | cancelProvide | decrementTake
  deriving DecidableEq, Repr

def SelfTradeBehavior.fromU8 : ℕ → Option SelfTradeBehavior
  | 0 => some .abortTransaction
  | 1 => some .cancelProvide
  | 2 => some .decrementTake
  | _ => none

def maxFillsPerInstruction : ℕ := 4

structure V3Fill where
  makerTree : TreeKind
  makerHandle : ℕ
  makerOwner : ℕ
  key : Key
  price : ℕ
  reservePrice : ℕ
  quantity : ℕ
  makerRemaining : ℕ
  deriving DecidableEq

structure V3SelfTradeCancellation where
  makerTree : TreeKind
  makerHandle : ℕ
  makerOwner : ℕ
  key : Key
  quantity : ℕ
  price : ℕ
  reservePrice : ℕ
  side : Side
  deriving DecidableEq

structure V3MatchPlan where
  fills : List V3Fill
  takerRemaining : ℕ
  cancellations : List V3SelfTradeCancellation
  deriving DecidableEq

/-- A maker the planner may select next. -/
structure Candidate where
  key : Key
  tree : TreeKind
  handle : ℕ
  price : I64

/-- The price a live leaf of one side executes at, if any. -/
def executablePrice (leaf : LeafNode) (tree : TreeKind) (side : Side) (oracle : Option I64)
    (now : ℕ) : Option I64 :=
  if leaf.quantity = 0 ∨ leaf.expiresAt ≤ now ∨ leaf.side ≠ side then none
  else match tree with
    | .fixed => if leaf.priceOrOffset.val ≤ 0 then none else some leaf.priceOrOffset
    | .oraclePegged => match peggedState leaf oracle now with
      | .valid price => some price
      | .invalid | .skipped => none

/-- Whether a taker's limit reaches a maker's price. -/
def crosses (takerSide : Side) (takerPrice makerPrice : ℤ) : Bool :=
  match takerSide with
  | .bid => makerPrice ≤ takerPrice
  | .ask => takerPrice ≤ makerPrice

/-- The price a maker's margin was reserved at: the stored one, else the price it executes at. -/
def fillReservePrice (leaf : LeafNode) (makerPrice : I64) : ℕ :=
  match storedV3ReservePrice leaf with
  | some price => price.toNat
  | none => makerPrice.val.toNat

namespace PagedBookV3

def bestExecutablePrice (b : PagedBookV3) (tree : TreeKind) (side : Side) (oracle : I64)
    (now : ℕ) : Except ProgramError (Option I64) := do
  match ← b.best tree with
  | none => pure none
  | some handle =>
    let leaf ← b.leaf handle
    pure (executablePrice leaf tree side (some oracle) now)

/-- One handle as the planner's scan of a tree sees it. -/
def candidate (b : PagedBookV3) (tree : TreeKind) (side : Side) (oracle : Option I64) (now : ℕ)
    (selected : List (TreeKind × ℕ)) (handle : ℕ) : Except ProgramError (Option Candidate) :=
  if (tree, handle) ∈ selected then pure none
  else do
    match ← b.nodeBytes handle with
    | .leaf leaf =>
      if b.find tree leaf.key = .ok handle then
        match executablePrice leaf tree side oracle now with
        | none => pure none
        | some price =>
          match priceTimeKey side price leaf.sequence with
          | .error _ => throw bundleError
          | .ok key => pure (some { key, tree, handle, price })
      else pure none
    | _ => pure none

def better (best : Option Candidate) (next : Candidate) : Option Candidate :=
  match best with
  | none => some next
  | some current => if next.key < current.key then some next else some current

def bestUnselectedAcross (b : PagedBookV3) (trees : List TreeKind) (side : Side)
    (oracle : Option I64) (now : ℕ) (selected : List (TreeKind × ℕ)) :
    Except ProgramError (Option Candidate) :=
  trees.foldlM (fun best tree =>
    (List.range b.bumpIndex).foldlM (fun best handle => do
      match ← b.candidate tree side oracle now selected handle with
      | none => pure best
      | some next => pure (better best next)) best) none

/-- The taker's side of a plan. -/
structure Taker where
  side : Side
  owner : ℕ
  selfTradeBehavior : SelfTradeBehavior
  price : I64

def planFrom (b : PagedBookV3) (trees : List TreeKind) (taker : Taker) (oracle : Option I64)
    (now : ℕ) : (room : ℕ) → V3MatchPlan → List (TreeKind × ℕ) → Except ProgramError V3MatchPlan
  | 0, plan, _ => pure plan
  | room + 1, plan, selected =>
    if plan.takerRemaining = 0 then pure plan
    else do
      match ← b.bestUnselectedAcross trees taker.side.opposite oracle now selected with
      | none => pure plan
      | some maker =>
        let leaf ← b.leaf maker.handle
        let selected := selected ++ [(maker.tree, maker.handle)]
        if leaf.expiresAt ≤ now ∨ leaf.side ≠ taker.side.opposite then
          b.planFrom trees taker oracle now room plan selected
        else if crosses taker.side taker.price.val maker.price.val = false then pure plan
        else
          let fillQuantity := min leaf.quantity plan.takerRemaining
          if leaf.owner = taker.owner then
            match taker.selfTradeBehavior with
            | .abortTransaction => throw (.custom .selfTradeAborted)
            | .decrementTake =>
              b.planFrom trees taker oracle now room
                { plan with takerRemaining := plan.takerRemaining - fillQuantity } selected
            | .cancelProvide =>
              if maxFillsPerInstruction ≤ plan.cancellations.length then
                throw (.custom .selfTradeAborted)
              else
                b.planFrom trees taker oracle now room
                  { plan with cancellations := plan.cancellations ++ [{
                      makerTree := maker.tree
                      makerHandle := maker.handle
                      makerOwner := leaf.owner
                      key := leaf.key
                      quantity := leaf.quantity
                      price := maker.price.val.toNat
                      reservePrice := fillReservePrice leaf maker.price
                      side := leaf.side }] } selected
          else
            let plan : V3MatchPlan :=
              { plan with
                fills := plan.fills ++ [{
                  makerTree := maker.tree
                  makerHandle := maker.handle
                  makerOwner := leaf.owner
                  key := leaf.key
                  price := maker.price.val.toNat
                  reservePrice := fillReservePrice leaf maker.price
                  quantity := fillQuantity
                  makerRemaining := leaf.quantity - fillQuantity }]
                takerRemaining := plan.takerRemaining - fillQuantity }
            if fillQuantity < leaf.quantity then pure plan
            else b.planFrom trees taker oracle now room plan selected

def planCrossingTrees (b : PagedBookV3) (trees : List TreeKind) (taker : Taker) (quantity : ℕ)
    (oracle : Option I64) (now : ℕ) : Except ProgramError V3MatchPlan := do
  require (0 < taker.price.val ∧ 0 < quantity) bundleError
  b.planFrom trees taker oracle now maxFillsPerInstruction
    { fills := [], takerRemaining := quantity, cancellations := [] } []

def planCrossingCrossTree (b : PagedBookV3) (taker : Taker) (quantity : ℕ) (oracle : Option I64)
    (now : ℕ) : Except ProgramError V3MatchPlan :=
  b.planCrossingTrees [.fixed, .oraclePegged] taker quantity oracle now

/-! ## Applying a plan -/

def checkCancellation (b : PagedBookV3) (cancel : V3SelfTradeCancellation) :
    Except ProgramError Unit := do
  let current ← b.leaf cancel.makerHandle
  require (current.key = cancel.key ∧ current.owner = cancel.makerOwner ∧
    current.quantity = cancel.quantity) bundleError
  let handle ← b.find cancel.makerTree cancel.key
  require (handle = cancel.makerHandle) bundleError

def checkFill (b : PagedBookV3) (fill : V3Fill) : Except ProgramError Unit := do
  let current ← b.leaf fill.makerHandle
  require (current.key = fill.key ∧ current.owner = fill.makerOwner) bundleError
  let handle ← b.find fill.makerTree fill.key
  require (handle = fill.makerHandle ∧
    current.quantity = fill.quantity + fill.makerRemaining) bundleError

def applyCancellation (cancel : V3SelfTradeCancellation) : BookM Unit := do
  let _ ← remove cancel.makerTree cancel.key

def applyFill (fill : V3Fill) : BookM Unit := do
  if fill.makerRemaining = 0 then
    let _ ← remove fill.makerTree fill.key
  else
    let leaf ← reading (·.leaf fill.makerHandle)
    putLeaf fill.makerHandle { leaf with quantity := fill.makerRemaining }

def applyMatchPlan (plan : V3MatchPlan) : BookM Unit := do
  plan.cancellations.forM fun cancel => reading (·.checkCancellation cancel)
  plan.fills.forM fun fill => reading (·.checkFill fill)
  plan.cancellations.forM applyCancellation
  plan.fills.forM applyFill

end PagedBookV3

end Equinox
