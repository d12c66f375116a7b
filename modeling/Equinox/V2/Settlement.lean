import Equinox.Market.Trades
import Equinox.V2.Market

/-! # Settling an order

The seats, the fills and the counters that an order leaves behind are worked out
in the scratch account of its seat while the market is unchanged. They are
checked against the market once more and only then written.
-/

namespace Equinox.V2

open Foundation CritBit Risk

/-! ## Planned seats -/

/-- The seats as the fills leave them, and what the fills come to. -/
structure SeatPlan where
  taker : TraderSeat
  makers : List (ℕ × TraderSeat)
  totalFee : ℤ
  events : List FillEvent

/-- A maker as planned so far, or else as stored and with its funding settled. -/
def plannedMaker (m : Market) (header : MarketStateHeader) (makers : List (ℕ × TraderSeat))
    (maker : ℕ) : Except ProgramError TraderSeat :=
  match makers.lookup maker with
  | some seat => pure seat
  | none => do
    require (makers.length < maxFillsPerInstruction) (custom .riskViolation)
    let stored ← seatAt m maker
    let (_, settled) ← checkRisk (settleFunding stored header.fundingAccumulator)
    pure settled

def setMaker (makers : List (ℕ × TraderSeat)) (maker : ℕ) (seat : TraderSeat) :
    List (ℕ × TraderSeat) :=
  match makers.findIdx? fun slot => slot.1 = maker with
  | some slot => makers.set slot (maker, seat)
  | none => makers ++ [(maker, seat)]

def orderMargin (header : MarketStateHeader) (quantity : ℕ) (price : ℤ) :
    Except ProgramError ℤ := do
  let notional ← checkRisk (notional quantity price)
  checkRisk (initialMargin notional header.initialMarginBps)

def fillEvent (header : MarketStateHeader) (fill : FillRecord) (sequence : ℕ) : FillEvent where
  sequence
  makerSeat := fill.maker
  takerSeat := fill.taker
  price := fill.price
  quantity := fill.quantity
  makerClientOrderId := fill.makerClientOrderId
  timestamp := header.lastVerifiedOracleTimestamp

def settleFill (m : Market) (header : MarketStateHeader) (side : Side) (plan : SeatPlan)
    (fill : FillRecord) : Except ProgramError SeatPlan := do
  let maker ← plannedMaker m header plan.makers fill.maker
  let signed := side.signed fill.quantity
  let (makerFee, maker) ←
    checkRisk (applyFill maker (-signed) fill.price.val header.makerFeeBps)
  let (takerFee, taker) ←
    checkRisk (applyFill plan.taker signed fill.price.val header.takerFeeBps)
  let partialFee ← checkedI128 (custom .arithmeticOverflow) (plan.totalFee + makerFee)
  let totalFee ← checkedI128 (custom .arithmeticOverflow) (partialFee + takerFee)
  let margin ← orderMargin header fill.quantity fill.price.val
  let maker ← maker.release margin (fill.makerRemaining = 0) side.opposite fill.quantity
  let sequence ← checkedU64 (custom .arithmeticOverflow)
    (header.globalEventSequence + 1 + plan.events.length)
  pure {
    taker
    makers := setMaker plan.makers fill.maker maker
    totalFee
    events := plan.events ++ [fillEvent header fill sequence] }

def restingPrice (header : MarketStateHeader) (input : OrderInput) : Except ProgramError I64 :=
  match input.tree with
  | .fixed => pure input.priceOrOffset
  | .oraclePegged => okOr (header.lastVerifiedOraclePrice.checkedAdd input.priceOrOffset)
      (custom .arithmeticOverflow)

def rests (input : OrderInput) (remaining : ℕ) : Prop :=
  0 < remaining ∧ input.timeInForce = .goodTilCancelled

instance (input : OrderInput) (remaining : ℕ) : Decidable (rests input remaining) :=
  inferInstanceAs (Decidable (_ ∧ _))

/-- Take the margin and the exposure of the remainder. -/
def reserveRemainder (header : MarketStateHeader) (input : OrderInput) (remaining : ℕ)
    (taker : TraderSeat) : Except ProgramError TraderSeat := do
  let price ← restingPrice header input
  let margin ← orderMargin header remaining price.val
  let reserved ← checkedI128 (custom .arithmeticOverflow) (taker.reservedMargin + margin)
  require (taker.openOrderCount + 1 < 2 ^ 32) (custom .arithmeticOverflow)
  let exposure ←
    checkedI128 (custom .arithmeticOverflow) (taker.openExposure input.side + remaining)
  pure ({ taker with
    reservedMargin := reserved
    openOrderCount := taker.openOrderCount + 1 }.withExposure input.side exposure)

/-- The taker with what is left of its order in the book. -/
def settleRemainder (header : MarketStateHeader) (input : OrderInput) (remaining : ℕ)
    (taker : TraderSeat) : Except ProgramError TraderSeat :=
  if rests input remaining then reserveRemainder header input remaining taker else pure taker

/-- The size of a seat's position, added to a total. -/
def addSize (total : ℤ) (seat : TraderSeat) : Except ProgramError ℤ := do
  let size ← checkedI128 (custom .arithmeticOverflow) |seat.basePosition|
  checkedI128 (custom .arithmeticOverflow) (total + size)

/-- What the scratch account holds when an order is planned: the match, the results of the seats
with the taker's first, and the state that all of it was planned for. -/
structure Settlement where
  plan : PlannedMatch
  planOraclePrice : I64
  planOracleTimestamp : ℕ
  planFundingAccumulator : ℤ
  planEventSequence : ℕ
  planOrderSequence : U64
  seatResults : List (ℕ × TraderSeat)
  events : List FillEvent
  totalFee : ℤ
  expectedOrderSequence : U64
  expectedEventSequence : ℕ
  expectedOracleTimestamp : ℕ
  expectedFundingTimestamp : ℕ
  openInterestAfter : ℤ
  finalOrderSequence : U64
  finalEventSequence : ℕ

def resultSeat (m : Market) (results : List (ℕ × TraderSeat)) (index : ℕ) : TraderSeat :=
  (results.lookup index).getD (m.seats index)

/-- Compute everything an order writes. The market is only read. -/
def planSeatResults (m : Market) (header : MarketStateHeader) (input : OrderInput)
    (taker : TraderSeat) (plan : PlannedMatch) : Except ProgramError Settlement := do
  let settled ← plan.fills.foldlM (settleFill m header input.side)
    { taker, makers := [], totalFee := 0, events := [] }
  let taker ← settleRemainder header input plan.remaining settled.taker
  let seatResults := (input.owner, taker) :: settled.makers
  let total ← (List.range maxTraderSeats).foldlM
    (fun total index => addSize total (resultSeat m seatResults index)) 0
  let finalEventSequence ← checkedU64 (custom .arithmeticOverflow)
    (header.globalEventSequence + plan.fills.length)
  pure {
    plan
    planOraclePrice := header.lastVerifiedOraclePrice
    planOracleTimestamp := header.lastVerifiedOracleTimestamp
    planFundingAccumulator := header.fundingAccumulator
    planEventSequence := header.globalEventSequence
    planOrderSequence := input.sequence
    seatResults
    events := settled.events
    totalFee := settled.totalFee
    expectedOrderSequence := header.globalOrderSequence
    expectedEventSequence := header.globalEventSequence
    expectedOracleTimestamp := header.lastVerifiedOracleTimestamp
    expectedFundingTimestamp := header.lastFundingTimestamp
    openInterestAfter := total.tdiv 2
    finalOrderSequence := input.sequence
    finalEventSequence }

/-! ## Validation -/

/-- The header a plan was made with is the stored one as far as the plan depends on it. -/
def MarketStateHeader.sameForPlan (current header : MarketStateHeader) : Bool :=
  current.mode = header.mode && current.oracleValid = header.oracleValid &&
    current.lastVerifiedOraclePrice = header.lastVerifiedOraclePrice &&
    current.lastVerifiedOracleTimestamp = header.lastVerifiedOracleTimestamp &&
    current.fundingAccumulator = header.fundingAccumulator &&
    current.lastFundingTimestamp = header.lastFundingTimestamp &&
    current.globalOrderSequence = header.globalOrderSequence &&
    current.globalEventSequence = header.globalEventSequence &&
    current.currentOpenInterest = header.currentOpenInterest

/-- The leaf of an action is as planned; counts the removals of each side. -/
def validateAction (m : Market) (removed : Side → ℕ) (action : PlanAction) :
    Except ProgramError (Side → ℕ) := do
  let handle ← checkBook ((m.arenas action.side).find action.tree action.key)
  require (handle = action.handle) (custom .invalidInstruction)
  let leaf ← checkBook ((m.arenas action.side).leaf handle)
  require (leaf.owner = action.owner ∧ leaf.quantity = action.expectedQuantity)
    (custom .invalidInstruction)
  pure (if action.remove then Function.update removed leaf.side (removed leaf.side + 1)
    else removed)

/-- The remainder of an order finds a free key and free slots. Its margin is computed once more,
from the price or the offset as given. -/
def validateRemainder (m : Market) (header : MarketStateHeader) (order : OrderInput)
    (remaining : ℕ) (removed : Side → ℕ) : Except ProgramError Unit := do
  let leaf ← checkBook order.toOrderInput.leaf
  checkBook ((m.arenas order.side).canInsert order.tree leaf.key (removed order.side))
  let _ ← orderMargin header remaining order.priceOrOffset.val
  pure ()

def validateSettlementPlan (m : Market) (scratch : Settlement) (order : OrderInput)
    (header : MarketStateHeader) (takerBefore : TraderSeat) : Except ProgramError Unit := do
  require (m.header.sameForPlan header = true) (custom .invalidInstruction)
  require (scratch.expectedOrderSequence = header.globalOrderSequence ∧
    scratch.expectedEventSequence = header.globalEventSequence ∧
    scratch.expectedOracleTimestamp = header.lastVerifiedOracleTimestamp ∧
    scratch.expectedFundingTimestamp = header.lastFundingTimestamp ∧
    scratch.events.length = scratch.plan.fills.length) (custom .invalidSettlementScratch)
  require (scratch.planOraclePrice = header.lastVerifiedOraclePrice ∧
    scratch.planOracleTimestamp = header.lastVerifiedOracleTimestamp ∧
    scratch.planFundingAccumulator = header.fundingAccumulator ∧
    scratch.planEventSequence = header.globalEventSequence) (custom .invalidInstruction)
  let next ← okOr header.globalOrderSequence.checkedSucc (custom .arithmeticOverflow)
  require (scratch.planOrderSequence = next) (custom .invalidInstruction)
  let taker ← seatAt m order.owner
  require (taker.trader = takerBefore.trader ∧
    taker.availableCollateral = takerBefore.availableCollateral ∧
    taker.basePosition = takerBefore.basePosition ∧
    taker.reservedMargin = takerBefore.reservedMargin) (custom .invalidInstruction)
  let removed ← scratch.plan.actions.foldlM (validateAction m) fun _ => 0
  if rests order scratch.plan.remaining then
    validateRemainder m header order scratch.plan.remaining removed
  else pure ()

/-! ## Writing -/

def applyAction (action : PlanAction) : MarketM Unit := do
  let m ← asking id
  let handle ← checkBook ((m.arenas action.side).find action.tree action.key)
  require (handle = action.handle) (custom .invalidInstruction)
  if action.remove then
    let _ ← onArena action.side (Arena.removeValidated action.tree action.key)
  else onArena action.side (Arena.applyLeafQuantityValidated action.handle action.newQuantity)

def applySettlementPlan (plan : PlannedMatch) : MarketM Unit := plan.actions.forM applyAction

/-- Insert what is left of an order into its own side. -/
def insertRemainder (input : OrderInput) (remaining : ℕ) : MarketM Unit :=
  if rests input remaining then do
    let leaf ← checkBook { input.toOrderInput with quantity := remaining }.leaf
    let _ ← onArena input.side (Arena.insert input.tree leaf)
  else pure ()

/-- Record a fill in the ring and in the log, under its planned sequence. -/
def recordFill (kind : EventKind) (event : FillEvent) : MarketM Unit := do
  modify fun m => { m with
    fillEvents := Function.update m.fillEvents (event.sequence % fillEventCapacity) (some event) }
  emitEvent kind event.sequence event.timestamp (.fill event.makerSeat event.takerSeat
    event.price.val.toNat event.quantity event.sequence)

/-- Write the seats and the fills. Every fill is called complete if the new order is. -/
def applyScratchResults (scratch : Settlement) : MarketM Unit := do
  scratch.seatResults.forM fun slot => writeSeat slot.1 slot.2
  scratch.events.forM (recordFill
    (if scratch.plan.remaining = 0 then .orderFilled else .orderPartiallyFilled))

end Equinox.V2
