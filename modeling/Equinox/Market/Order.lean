import Equinox.Book.Matching
import Equinox.Market.Gate

/-! # Placing an order

An order is admitted, planned and authorized on the unchanged market; only then
are the plan applied, the makers and the taker settled, and the remainder
inserted into the taker's own side.
-/

namespace Equinox

open Foundation CritBit Risk

/-! ## Order ledgers of a seat -/

namespace TraderSeat

def openExposure (seat : TraderSeat) : Side → ℤ
  | .bid => seat.openBidExposure
  | .ask => seat.openAskExposure

def withExposure (seat : TraderSeat) (side : Side) (exposure : ℤ) : TraderSeat :=
  match side with
  | .bid => { seat with openBidExposure := exposure }
  | .ask => { seat with openAskExposure := exposure }

/-- Give back the margin and the exposure of an order, or of the filled part of one that stays. -/
def release (seat : TraderSeat) (reserve : ℤ) (closes : Bool) (side : Side) (quantity : ℕ) :
    Except ProgramError TraderSeat := do
  let reserved ← checkedI128 (custom .riskViolation) (seat.reservedMargin - reserve)
  require (closes = true → seat.openOrderCount ≠ 0) (custom .riskViolation)
  let exposure ← checkedI128 (custom .riskViolation) (seat.openExposure side - quantity)
  pure ({ seat with
    reservedMargin := reserved
    openOrderCount := seat.openOrderCount - closes.toNat }.withExposure side exposure)

/-- Take the margin and the exposure of a new resting order. -/
def reserve (seat : TraderSeat) (reserve : ℤ) (side : Side) (quantity : ℕ) :
    Except ProgramError TraderSeat := do
  let free ← checkedI128 (custom .riskViolation) (seat.availableCollateral - seat.reservedMargin)
  require (reserve ≤ free) (custom .riskViolation)
  let reserved ← checkedI128 (custom .arithmeticOverflow) (seat.reservedMargin + reserve)
  require (seat.openOrderCount + 1 < 2 ^ 32) (custom .arithmeticOverflow)
  let exposure ← checkedI128 (custom .arithmeticOverflow) (seat.openExposure side + quantity)
  pure ({ seat with
    reservedMargin := reserved
    openOrderCount := seat.openOrderCount + 1 }.withExposure side exposure)

end TraderSeat

def reserveMargin (config : V3RiskConfig) (quantity : ℕ) (price : ℤ) : Except ProgramError ℤ := do
  let notional ← checkedI128 (custom .arithmeticOverflow) (quantity * price)
  riskOk (initialMargin notional config.initialMarginBps)

/-- The margin a resting order holds, at its own price or the price stored with it. -/
def v3OrderReserve (leaf : LeafNode) (tree : TreeKind) (oracle : Option I64)
    (config : V3RiskConfig) : Except ProgramError ℤ := do
  let price ← match tree with
    | .fixed => pure leaf.priceOrOffset.val
    | .oraclePegged => do
      let oracle ← okOr oracle (custom .oracleUnavailable)
      let fallback ← okOr (oracle.checkedAdd leaf.priceOrOffset) (custom .arithmeticOverflow)
      pure ((storedV3ReservePrice leaf).getD fallback.val)
  require (0 < price) (custom .invalidInstruction)
  reserveMargin config leaf.quantity price

/-! ## Admission -/

structure PlaceOrderData where
  side : ℕ
  tree : ℕ
  flags : ℕ
  seatIndex : ℕ
  quantity : ℕ
  priceOrOffset : I64
  expiresAt : ℕ
  pegLimit : ℤ
  clientOrderId : ℕ
  actionNonce : ℕ

namespace PlaceOrderData

def postOnly (order : PlaceOrderData) : Bool := order.flags.testBit 0

def immediateOrCancel (order : PlaceOrderData) : Bool := order.flags.testBit 1

def reduceOnly (order : PlaceOrderData) : Bool := order.flags.testBit 2

/-- The side and the tree of an order whose fields are in range. -/
def shape (order : PlaceOrderData) (now : ℕ) : Except ProgramError (Side × TreeKind) := do
  let side ← okOr (match order.side with
    | 0 => some Side.bid
    | 1 => some Side.ask
    | _ => none) (custom .invalidInstruction)
  let tree ← okOr (match order.tree with
    | 0 => some TreeKind.fixed
    | 1 => some TreeKind.oraclePegged
    | _ => none) (custom .invalidInstruction)
  require (order.quantity ≠ 0 ∧ order.flags < 32 ∧ now < order.expiresAt)
    (custom .invalidInstruction)
  pure (side, tree)

def effectivePrice (order : PlaceOrderData) (tree : TreeKind) (oracle : I64) :
    Except ProgramError I64 := do
  let price ← match tree with
    | .fixed => pure order.priceOrOffset
    | .oraclePegged => okOr (oracle.checkedAdd order.priceOrOffset) (custom .arithmeticOverflow)
  require (0 < price.val) (custom .invalidInstruction)
  pure price

def selfTradeBehavior (order : PlaceOrderData) : Except ProgramError SelfTradeBehavior :=
  okOr (SelfTradeBehavior.fromU8 (order.flags / 8 % 4)) (custom .invalidInstruction)

end PlaceOrderData

def Side.signed (side : Side) (quantity : ℕ) : ℤ :=
  match side with
  | .bid => quantity
  | .ask => -quantity

theorem Side.abs_signed (side : Side) (quantity : ℕ) : |side.signed quantity| = quantity := by
  cases side <;> simp [signed]

def enforceV3Leverage (seat : TraderSeat) (resultingExposure : ℕ) (markPrice : ℤ)
    (maximumLeverage : ℕ) : Except ProgramError Unit := do
  require (0 < markPrice ∧ maximumLeverage ≠ 0) (custom .riskViolation)
  let exposure ← checkedI128 (custom .arithmeticOverflow) (resultingExposure : ℤ)
  let projectedNotional ← checkedI128 (custom .arithmeticOverflow) (exposure * markPrice)
  let equity ← riskOk (equity seat markPrice)
  let capacity ← checkedI128 (custom .arithmeticOverflow) (equity * maximumLeverage)
  require (0 ≤ equity ∧ projectedNotional ≤ capacity) (custom .riskViolation)

/-- What an admitted order may add to the market. -/
structure OrderDemand where
  notional : ℤ
  resultingExposure : ℕ

/-- The risk checks of an order on a seat whose funding is settled. -/
def admitOrder (seat : TraderSeat) (config : V3RiskConfig) (side : Side) (order : PlaceOrderData)
    (oracle effectivePrice : I64) : Except ProgramError OrderDemand := do
  let notional ← checkedI128 (custom .arithmeticOverflow) (order.quantity * effectivePrice.val)
  let resulting ← checkedI128 (custom .arithmeticOverflow)
    (seat.basePosition + side.signed order.quantity)
  require (order.reduceOnly = true → seat.basePosition ≠ 0 ∧
    order.quantity ≤ seat.basePosition.natAbs ∧ resulting.natAbs < seat.basePosition.natAbs)
    (custom .riskViolation)
  require (0 < config.maximumPosition → (resulting.natAbs : ℤ) ≤ config.maximumPosition)
    (custom .riskViolation)
  let initialRequirement ← riskOk (initialMargin notional config.initialMarginBps)
  enforceV3Leverage seat resulting.natAbs oracle.val config.maximumLeverage
  let margin ← riskOk (availableMargin seat oracle.val config.initialMarginBps)
  require (0 ≤ margin) (custom .riskViolation)
  let free ← checkedI128 (custom .riskViolation) (seat.availableCollateral - seat.reservedMargin)
  require (initialRequirement ≤ free) (custom .riskViolation)
  pure { notional, resultingExposure := resulting.natAbs }

/-- The leaf an order would rest as. A pegged one must be executable now. -/
def orderLeaf (order : PlaceOrderData) (side : Side) (tree : TreeKind) (sequence : U64)
    (oracle : I64) (now : ℕ) : Except ProgramError LeafNode := do
  let input : OrderInput :=
    { side, tree, owner := order.seatIndex, priceOrOffset := order.priceOrOffset, sequence
      quantity := order.quantity, expiresAt := order.expiresAt, pegLimit := order.pegLimit
      clientOrderId := order.clientOrderId, postOnly := order.postOnly }
  let leaf ← input.leaf.mapError fun _ => bundleError
  match tree, peggedState leaf (some oracle) now with
  | .oraclePegged, .invalid | .oraclePegged, .skipped => throw (custom .riskViolation)
  | _, _ => pure leaf

/-! ## Open interest -/

def recomputeV3OpenInterest (m : Market) : Except ProgramError ℤ :=
  (List.range v3SeatCount).foldlM (fun total i =>
    if (m.seats i).occupancy = true then do
      let size ← checkedI128 (custom .arithmeticOverflow) |(m.seats i).basePosition|
      checkedI128 (custom .arithmeticOverflow) (total + size)
    else pure total) 0

def projectedPosition (takerSeatIndex : ℕ) (takerSide : Side) (seatIndex : ℕ) (position : ℤ) :
    List V3Fill → Except ProgramError ℤ
  | [] => pure position
  | fill :: fills => do
    let asMaker ← if fill.makerOwner = seatIndex then
      checkedI128 (custom .arithmeticOverflow)
        (position + takerSide.opposite.signed fill.quantity) else pure position
    let asTaker ← if takerSeatIndex = seatIndex then
      checkedI128 (custom .arithmeticOverflow)
        (asMaker + takerSide.signed fill.quantity) else pure asMaker
    projectedPosition takerSeatIndex takerSide seatIndex asTaker fills

def projectedV3OpenInterest (m : Market) (takerSeatIndex : ℕ) (takerSide : Side)
    (plan : V3MatchPlan) : Except ProgramError ℤ := do
  require (takerSeatIndex < v3SeatCount) (custom .invalidSeat)
  (List.range v3SeatCount).foldlM (fun total i => do
    let position ← projectedPosition takerSeatIndex takerSide i (m.seats i).basePosition plan.fills
    let size ← checkedI128 (custom .arithmeticOverflow) |position|
    checkedI128 (custom .arithmeticOverflow) (total + size)) 0

/-! ## The decision -/

/-- An order that passed every check on the unchanged market. -/
structure PreparedOrder where
  now : ℕ
  side : Side
  tree : TreeKind
  config : V3RiskConfig
  effectivePrice : I64
  notional : ℤ
  sequence : U64
  leaf : LeafNode
  plan : V3MatchPlan
  fundingPayment : ℤ
  session : Option TradingSession

/-- Whether a planned order leaves something to insert. -/
def PlaceOrderData.rests (order : PlaceOrderData) (plan : V3MatchPlan) : Bool :=
  0 < plan.takerRemaining && !order.immediateOrCancel

/-- Plan an order against the opposite book, within the market's and its own limits. -/
def planOrder (m : Market) (order : PlaceOrderData) (side : Side) (config : V3RiskConfig)
    (effectivePrice oracle : I64) (behavior : SelfTradeBehavior) (now : ℕ) :
    Except ProgramError V3MatchPlan := do
  let plan ← (m.books side.opposite).planCrossingCrossTree
    { side, owner := order.seatIndex, selfTradeBehavior := behavior, price := effectivePrice }
    order.quantity (some oracle) now
  require (order.postOnly = true → plan.fills = [] ∧ plan.cancellations = [])
    (custom .riskViolation)
  let projected ← projectedV3OpenInterest m order.seatIndex side plan
  require (0 < config.maximumOpenInterest → projected ≤ config.maximumOpenInterest)
    (custom .riskViolation)
  pure plan

/-- Authorize a planned order for a seat with some open orders. -/
def authorizeOrder (m : Market) (ctx : Context) (order : PlaceOrderData) (requiredActions : ℕ)
    (demand : OrderDemand) (openOrderCount : ℕ) (plan : V3MatchPlan) (now : ℕ) :
    Except ProgramError (Option TradingSession) := do
  let resultingOpenOrders := openOrderCount + (order.rests plan).toNat
  require (resultingOpenOrders < 2 ^ 32) (custom .arithmeticOverflow)
  validateV3TradeAccounts m ctx order.seatIndex
    { requiredActions :=
        if order.reduceOnly then requiredActions ||| sessionActionReduceOnlyClose
        else requiredActions
      notional := demand.notional
      resultingExposure := demand.resultingExposure
      resultingOpenOrders
      actionNonce := order.actionNonce } now

def prepareOrder (m : Market) (ctx : Context) (order : PlaceOrderData) (requiredActions : ℕ) :
    Except ProgramError PreparedOrder := do
  let now ← freshV3ExecutionTimeWithSnapshot ctx m.core
  let seatBefore ← v3TradeSeat m order.seatIndex
  let (fundingPayment, seatSnapshot) ←
    riskOk (settleFunding seatBefore m.core.fundingAccumulator)
  let (side, tree) ← order.shape now
  let config ← readV3RiskConfig m.core
  let oracle ← oraclePriceAfterFreshness ctx m.core
  let effectivePrice ← order.effectivePrice tree oracle
  let demand ← admitOrder seatSnapshot config side order oracle effectivePrice
  let sequence ← okOr m.core.globalOrderSequence.checkedSucc (custom .arithmeticOverflow)
  let behavior ← order.selfTradeBehavior
  let leaf ← orderLeaf order side tree sequence oracle now
  let plan ← planOrder m order side config effectivePrice oracle behavior now
  let session ← authorizeOrder m ctx order requiredActions demand seatSnapshot.openOrderCount
    plan now
  pure {
    now, side, tree, config, effectivePrice
    notional := demand.notional
    sequence
    leaf := match tree with
      | .fixed => leaf
      | .oraclePegged => { leaf with reservePrice := effectivePrice.val }
    plan, fundingPayment, session }

end Equinox
