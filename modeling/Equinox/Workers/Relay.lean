import Equinox.Market.Budget
import Equinox.Market.Cancelling
import Equinox.Market.Outcome

/-! # The relay's gate

The relay pays for a session's transactions, and before it does so checks the
session against the accounts as it decodes them. The gate is translated here
from the relay's own code and compared with the session checks that the program
makes for the same order.
-/

namespace Equinox

open Foundation CritBit World Option TradingSession Int Nat PlaceOrderData Except

namespace Relay

/-! ## The gate -/

/-- The reasons the gate gives. -/
inductive Refusal where
  | v3ContextRequired | marketNotOpen | oracleNotValid | seatNotOccupied | seatOwnerMismatch
  | sessionNotFound | sessionNotInitialized | sessionRevoked | sessionOwnerMismatch
  | sessionSignerMismatch | sessionWrongMarket | sessionWrongSeat | sessionExpired
  | opcodeNotSessionRelayable | sessionActionNotAllowed | sessionNonceMismatch
  | orderPriceInvalid | orderNotionalInvalid | reduceOnlyWouldNotReduce | sessionNotionalLimit
  | sessionExposureLimit | sessionOpenOrderLimit | relayDomainMismatch
  deriving DecidableEq, Repr

/-- The instructions a session may sign. -/
inductive Opcode where
  | placeOrder | cancelOrder | cancelAll | replaceOrder
  deriving DecidableEq, Repr

inductive Domain where
  | l1 | er
  deriving DecidableEq, Repr

/-- The permissions of which an instruction needs one. The permission to close a position counts
for a reduce-only order that is placed, and not for one that replaces another. -/
def requiredSessionActions (opcode : Opcode) (placeOrderFlags : ℕ) : ℕ :=
  match opcode with
  | .placeOrder => if placeOrderFlags.testBit 2 then
      sessionActionPlace ||| sessionActionReduceOnlyClose else sessionActionPlace
  | .cancelOrder => sessionActionCancel
  | .cancelAll => sessionActionCancelAll
  | .replaceOrder => sessionActionReplace

/-- The fields of a core, of an account that decodes as one. -/
def decodeV3Core (core : MarketCore) : Option MarketCore :=
  if core.initialized = true ∧ core.riskConfigVersion = 2 then some core else none

/-- A seat as decoded from its shard, with its place there. -/
structure V3SeatPositionState where
  shard : ℕ
  slot : ℕ
  seat : TraderSeat

def decodeSeat (seat : TraderSeat) (shard slot : ℕ) : Option V3SeatPositionState :=
  if seat.occupancy then some ⟨shard, slot, seat⟩ else none

def decodeV3SeatShard (m : Market) (shard : ℕ) : List V3SeatPositionState :=
  (List.range v3SeatsPerShard).filterMap fun slot =>
    decodeSeat (m.seats (shard * v3SeatsPerShard + slot)) shard slot

/-- The order fields of an instruction. -/
structure OrderIntent where
  quantity : ℕ
  priceOrOffset : ℤ
  side : Side
  tree : TreeKind
  reduceOnly : Bool
  replace : Bool

def extractOrderIntent (replace : Bool) (order : PlaceOrderData) : Option OrderIntent := do
  let side ← (match order.side with
    | 0 => some Side.bid
    | 1 => some Side.ask
    | _ => none)
  let tree ← (match order.tree with
    | 0 => some TreeKind.fixed
    | 1 => some TreeKind.oraclePegged
    | _ => none)
  if order.quantity = 0 then none
  else some ⟨order.quantity, order.priceOrOffset.val, side, tree, order.reduceOnly, replace⟩

/-- A session account with the fields that bind it. -/
structure SessionAccount where
  owner : Address
  sessionSigner : Address
  market : Address
  seatIndex : ℕ
  session : TradingSession

structure VerifyTradingSessionInput where
  core : Option MarketCore
  seat : Option V3SeatPositionState
  sessionAccount : Option SessionAccount
  ownerWallet : Address
  sessionSignerAddress : Address
  seatIndex : ℕ
  marketPda : Address
  actionNonce : ℕ
  opcode : Opcode
  placeOrderFlags : ℕ
  orderIntent : Option OrderIntent
  now : ℕ
  domain : Domain

def maxSafeInteger : ℤ := 2 ^ 53 - 1

def OrderIntent.effectivePrice (intent : OrderIntent) (oracle : ℤ) : ℤ :=
  match intent.tree with
  | .fixed => intent.priceOrOffset
  | .oraclePegged => oracle + intent.priceOrOffset

/-- The limits of the session, for the order of an instruction. -/
def checkOrder (core : MarketCore) (seat : TraderSeat) (session : TradingSession)
    (intent : OrderIntent) : Except Refusal Unit := do
  let effectivePrice := intent.effectivePrice core.oraclePrice.val
  require (0 < effectivePrice) .orderPriceInvalid
  let notional := intent.quantity * effectivePrice
  require (0 < notional ∧ notional ≤ maxSafeInteger) .orderNotionalInvalid
  let resultingExposure := |seat.basePosition + intent.side.signed intent.quantity|
  require (¬(intent.reduceOnly = true ∧
    (seat.basePosition = 0 ∨ |seat.basePosition| ≤ resultingExposure))) .reduceOnlyWouldNotReduce
  require (notional ≤ session.maxOrderNotional ∧
    notional + session.consumedCumulativeNotional ≤ session.maxCumulativeNotional)
    .sessionNotionalLimit
  require (0 ≤ session.maxExposure ∧ resultingExposure ≤ session.maxExposure)
    .sessionExposureLimit
  let projectedOpenOrders :=
    seat.openOrderCount - if intent.replace = true ∧ 0 < seat.openOrderCount then 1 else 0
  require (projectedOpenOrders < session.maxOpenOrders) .sessionOpenOrderLimit

/-- The gate for a V3 market. A V3 account that does not decode has no context. -/
def verifyTradingSession (input : VerifyTradingSessionInput) : Except Refusal Unit := do
  let core ← okOr input.core .v3ContextRequired
  require (core.mode = 1 ∨ core.mode = 2 ∨ core.mode = 3) .marketNotOpen
  require (core.oracleValid = true) .oracleNotValid
  let seat ← okOr input.seat .seatNotOccupied
  require (seat.slot = input.seatIndex ∧ seat.seat.trader = input.ownerWallet) .seatOwnerMismatch
  let account ← okOr input.sessionAccount .sessionNotFound
  require (account.session.initialized = true) .sessionNotInitialized
  require (account.session.revoked = false) .sessionRevoked
  require (account.owner = input.ownerWallet) .sessionOwnerMismatch
  require (account.sessionSigner = input.sessionSignerAddress) .sessionSignerMismatch
  require (account.market = input.marketPda) .sessionWrongMarket
  require (account.seatIndex = input.seatIndex) .sessionWrongSeat
  require (input.now < account.session.expiresAt) .sessionExpired
  let required := requiredSessionActions input.opcode input.placeOrderFlags
  require (required ≠ 0) .opcodeNotSessionRelayable
  require (account.session.actions &&& required ≠ 0) .sessionActionNotAllowed
  require (account.session.nextExpectedNonce = input.actionNonce) .sessionNonceMismatch
  match input.orderIntent with
  | none => pure ()
  | some intent => checkOrder core seat.seat account.session intent
  require (input.domain = .er ↔
    core.delegationStatus = .delegated ∨ core.delegationStatus = .undelegating)
    .relayDomainMismatch

/-- The session account that the relay derives for a seat's owner. -/
def sessionAccount (m : Market) (key : SessionKey) : Option SessionAccount :=
  (m.sessions key).map fun session =>
    ⟨key.owner, key.sessionSigner, m.core.address, key.seatIndex, session⟩

/-- What the relay route passes to the gate for a place or replace order of a seat's session. -/
def route (m : Market) (ctx : Context) (replace : Bool) (order : PlaceOrderData)
    (domain : Domain) : VerifyTradingSessionInput where
  core := decodeV3Core m.core
  seat := (decodeV3SeatShard m (order.seatIndex / 32)).find? fun position =>
    position.slot = order.seatIndex % 32
  sessionAccount := sessionAccount m (m.sessionKey ctx order.seatIndex)
  ownerWallet := (m.seats order.seatIndex).trader
  sessionSignerAddress := ctx.signer
  seatIndex := order.seatIndex
  marketPda := m.core.address
  actionNonce := order.actionNonce
  opcode := if replace then .replaceOrder else .placeOrder
  placeOrderFlags := order.flags
  orderIntent := extractOrderIntent replace order
  now := ctx.now
  domain := domain

/-! ## The program's checks -/

/-- The session check of an order of which `remaining` is left after matching. -/
def orderSessionCheck (m : Market) (ctx : Context) (order : PlaceOrderData)
    (requiredActions : ℕ) (side : Side) (tree : TreeKind) (openOrderCount remaining : ℕ) :
    Except ProgramError Unit := do
  let oracle ← oraclePriceAfterFreshness ctx m.core
  let effectivePrice ← order.effectivePrice tree oracle
  let notional ← checkedI128 (custom .arithmeticOverflow) (order.quantity * effectivePrice.val)
  let resulting ← checkedI128 (custom .arithmeticOverflow)
    ((m.seats order.seatIndex).basePosition + side.signed order.quantity)
  let resultingOpenOrders :=
    openOrderCount + (decide (0 < remaining) && !order.immediateOrCancel).toNat
  require (resultingOpenOrders < 2 ^ 32) (custom .arithmeticOverflow)
  let _ ← validateV3SessionActor m ctx order.seatIndex
    { requiredActions :=
        if order.reduceOnly then requiredActions ||| sessionActionReduceOnlyClose
        else requiredActions
      notional
      resultingExposure := resulting.natAbs
      resultingOpenOrders
      actionNonce := order.actionNonce } ctx.now
  pure ()

/-- All session checks of an instruction. A replacement is checked before the old order is
cancelled, for its cancellation, and again when the new order is placed; `planned` and `remaining`
are what matching leaves of the new order the first and the last time. -/
def sessionChecks (m : Market) (ctx : Context) (replace : Bool) (order : PlaceOrderData)
    (side : Side) (tree : TreeKind) (planned remaining : ℕ) : Except ProgramError Unit :=
  let seat := m.seats order.seatIndex
  if replace then do
    require (1 ≤ seat.openOrderCount) (custom .riskViolation)
    orderSessionCheck m ctx order sessionActionReplace side tree (seat.openOrderCount - 1) planned
    let _ ← validateV3SessionActor m ctx order.seatIndex
      (passiveDemand seat sessionActionReplace order.actionNonce) m.core.oracleTimestamp
    orderSessionCheck m ctx order sessionActionReplace side tree (seat.openOrderCount - 1)
      remaining
  else
    orderSessionCheck m ctx order sessionActionPlace side tree seat.openOrderCount remaining

/-! ## What the two ask for -/

variable {m : Market} {ctx : Context} {replace : Bool} {order : PlaceOrderData}
  {intent : OrderIntent} {session : TradingSession} {side : Side} {tree : TreeKind}
  {planned remaining count actions now : ℕ} {demand : SessionDemand}

/-- What the program keeps true of every session account. -/
structure Stored (session : TradingSession) : Prop where
  nonce_pos : 0 < session.nextExpectedNonce
  exposure_nonneg : 0 ≤ session.maxExposure
  exposure_lt : session.maxExposure < 2 ^ 127
  orders_lt : session.maxOpenOrders < 2 ^ 16

/-- A session-signed order on an occupied seat of a delegated market whose core has a fresh price,
with no other price among its accounts. -/
structure Relayed (m : Market) (ctx : Context) (replace : Bool) (order : PlaceOrderData)
    (intent : OrderIntent) : Prop where
  initialized : m.core.initialized = true
  configured : m.core.riskConfigVersion = v3RiskConfigVersion
  delegated : m.core.delegationStatus = .delegated
  canonical : ctx.snapshot = none
  fresh : validateV3OracleFreshness m.core ctx.now = .ok ()
  seat_lt : order.seatIndex < v3SeatCount
  occupied : (m.seats order.seatIndex).occupancy = true
  trader_ne : (m.seats order.seatIndex).trader ≠ 0
  signer_ne : (m.seats order.seatIndex).trader ≠ ctx.signer
  intent : extractOrderIntent replace order = some intent
  quantity_lt : order.quantity < 2 ^ 64
  stored : ∀ session, m.sessions (m.sessionKey ctx order.seatIndex) = some session →
    Stored session

section Stored

variable {m' : Market} {w w' w₀ : World} {a : Action} {as : List Action}

def AllStored (m : Market) : Prop := ∀ key session, m.sessions key = some session → Stored session

/-- The limits of a policy come as an `i128` and a `u16`. -/
def encoded : Action → Bool
  | .authorizeTradingSessionV3 _ _ _ policy | .updateTradingSessionV3 _ _ _ policy =>
    policy.maximumExposure < 2 ^ 127 && policy.maximumOpenOrders < 2 ^ 16
  | _ => true

theorem AllStored.update {k : SessionKey} {written : Option TradingSession} (hm : AllStored m)
    (hw : m'.sessions = Function.update m.sessions k written)
    (hs : ∀ session, written = some session → Stored session) : AllStored m' := by
  intro key session hf
  rw [hw] at hf
  by_cases hk : key = k
  · subst hk
    rw [Function.update_self] at hf
    exact hs session hf
  · rw [Function.update_of_ne hk] at hf
    exact hm key session hf

theorem Stored.withPolicy {policy : SessionPolicy} {time : ℕ} (hs : Stored session)
    (hv : policy.valid time = true)
    (he : (decide (policy.maximumExposure < 2 ^ 127) &&
      decide (policy.maximumOpenOrders < 2 ^ 16)) = true) : Stored (session.withPolicy policy) := by
  simp only [SessionPolicy.valid, Bool.and_eq_true, decide_eq_true_eq] at hv he
  exact ⟨hs.nonce_pos, hv.1.2.le, he.1, he.2⟩

theorem AllStored.step (hw : AllStored w.live) (h : a.Accepted w w') (he : encoded a = true) :
    AllStored w'.live := by
  cases hu : a.sessionUse w.live with
  | some use =>
    cases h.spends hu with
    | owner _ sessions => rwa [AllStored, sessions]
    | session _ found _ sessions =>
      refine hw.update sessions ?_
      rintro _ ⟨⟩
      have hs := hw _ _ found
      exact ⟨succ_pos _, hs.exposure_nonneg, hs.exposure_lt, hs.orders_lt⟩
  | none =>
    by_cases ha : a.controlsSession = true
    swap
    · rwa [AllStored, h.sessions_eq hu (by simpa using ha)]
    cases a <;> simp only [Action.controlsSession, Bool.false_eq_true] at ha <;>
      obtain ⟨m, hm, rfl⟩ := h.of_handler rfl
    case createV3TradingSession =>
      refine hw.update (createV3TradingSession_sessions hm).2 ?_
      rintro _ ⟨⟩
      exact ⟨by decide, by decide, by decide, by decide⟩
    case authorizeTradingSessionV3 =>
      obtain ⟨session, time, hf, -, hv, hwr⟩ := authorizeTradingSessionV3_sessions hm
      refine hw.update hwr ?_
      rintro _ ⟨⟩
      have hs := (hw _ _ hf).withPolicy hv he
      exact ⟨hs.nonce_pos, hs.exposure_nonneg, hs.exposure_lt, hs.orders_lt⟩
    case revokeTradingSessionV3 =>
      obtain ⟨session, hf, hwr⟩ := revokeTradingSessionV3_sessions hm
      refine hw.update hwr ?_
      rintro _ ⟨⟩
      have hs := hw _ _ hf
      exact ⟨hs.nonce_pos, hs.exposure_nonneg, hs.exposure_lt, hs.orders_lt⟩
    case updateTradingSessionV3 =>
      obtain ⟨session, hf, hv, -, hwr⟩ := updateTradingSessionV3_sessions hm
      refine hw.update hwr ?_
      rintro _ ⟨⟩
      have hs := (hw _ _ hf).withPolicy hv he
      exact ⟨hs.nonce_pos, hs.exposure_nonneg, hs.exposure_lt, hs.orders_lt⟩
    case closeTradingSessionV3 =>
      refine hw.update (closeTradingSessionV3_sessions hm) ?_
      rintro _ ⟨⟩

/-- Every session account of a reachable market is as the program keeps it. -/
theorem stored_of_run (hn : ∀ key, w₀.live.sessions key = none)
    (hr : Run (fun a w w' => a.Accepted w w' ∧ encoded a = true) w₀ as w) : AllStored w.live :=
  hr.invariant (P := fun w => AllStored w.live) (fun key session hf => by simp [hn] at hf)
    fun _ _ _ hw ha => hw.step ha.1 ha.2

end Stored

/-- The limits that the gate and the program both check. -/
structure Shared (m : Market) (ctx : Context) (order : PlaceOrderData) (intent : OrderIntent)
    (session : TradingSession) : Prop where
  price_pos : 0 < intent.effectivePrice m.core.oraclePrice.val
  price_lt : intent.effectivePrice m.core.oraclePrice.val < 2 ^ 63
  live : session.isLive ctx.now = true
  allowed : session.actions &&& requiredSessionActions
    (if intent.replace then .replaceOrder else .placeOrder) order.flags ≠ 0
  nonce : order.actionNonce = session.nextExpectedNonce
  orderNotional : order.quantity * intent.effectivePrice m.core.oraclePrice.val ≤
    session.maxOrderNotional
  budget : order.quantity * intent.effectivePrice m.core.oraclePrice.val +
    session.consumedCumulativeNotional ≤ session.maxCumulativeNotional
  exposure : |(m.seats order.seatIndex).basePosition + intent.side.signed order.quantity| ≤
    session.maxExposure

/-- What only the gate asks for. It takes the seat's place in its shard for the seat's index. -/
structure GateOnly (m : Market) (order : PlaceOrderData) (intent : OrderIntent)
    (session : TradingSession) : Prop where
  low_seat : order.seatIndex < 32
  safe : order.quantity * intent.effectivePrice m.core.oraclePrice.val ≤ maxSafeInteger
  reduces : intent.reduceOnly = true → (m.seats order.seatIndex).basePosition ≠ 0 ∧
    |(m.seats order.seatIndex).basePosition + intent.side.signed order.quantity| <
      |(m.seats order.seatIndex).basePosition|
  orders : (m.seats order.seatIndex).openOrderCount < session.maxOpenOrders +
    if intent.replace = true ∧ 0 < (m.seats order.seatIndex).openOrderCount then 1 else 0

/-- What only the program asks for. -/
structure ProgramOnly (m : Market) (order : PlaceOrderData) (intent : OrderIntent)
    (remaining : ℕ) (session : TradingSession) : Prop where
  nonce_ne : session.nextExpectedNonce ≠ 2 ^ 64 - 1
  orders : intent.replace = false → (m.seats order.seatIndex).openOrderCount +
    (decide (0 < remaining) && !order.immediateOrCancel).toNat ≤ session.maxOpenOrders
  replaced : intent.replace = true → 1 ≤ (m.seats order.seatIndex).openOrderCount ∧
    (m.seats order.seatIndex).openOrderCount ≤ session.maxOpenOrders ∧
    m.core.oracleTimestamp < session.expiresAt ∧
    |(m.seats order.seatIndex).basePosition| ≤ session.maxExposure

/-! ## The gate's answer -/

theorem extractOrderIntent_eq_some (h : extractOrderIntent replace order = some intent) :
    order.quantity ≠ 0 ∧ intent.quantity = order.quantity ∧
      intent.priceOrOffset = order.priceOrOffset.val ∧ intent.reduceOnly = order.reduceOnly ∧
      intent.replace = replace := by
  simp only [extractOrderIntent, some_rules] at h
  obtain ⟨side, -, tree, -, h⟩ := h
  split at h
  · simp at h
  · rename_i hq
    obtain rfl := some.inj h
    exact ⟨hq, rfl, rfl, rfl, rfl⟩

theorem find_decodeV3SeatShard {i : ℕ} (ho : (m.seats i).occupancy = true) :
    (decodeV3SeatShard m (i / 32)).find? (fun position => position.slot = i % 32) =
      some ⟨i / 32, i % 32, m.seats i⟩ := by
  have hse : m.seats (i / 32 * v3SeatsPerShard + i % 32) = m.seats i := by
    rw [v3SeatsPerShard, div_add_mod']
  have hs : decodeSeat (m.seats (i / 32 * v3SeatsPerShard + i % 32)) (i / 32) (i % 32) =
      some ⟨i / 32, i % 32, m.seats i⟩ := by
    rw [hse, decodeSeat, if_pos ho]
  have hot (j : ℕ) (hj : j < i % 32) :
      ((decodeSeat (m.seats (i / 32 * v3SeatsPerShard + j)) (i / 32) j).any
        fun position => decide (position.slot = i % 32)) = false := by
    unfold decodeSeat
    split
    · simpa using hj.ne
    · rfl
  have hf : (List.range v3SeatsPerShard).find? (fun slot =>
      (decodeSeat (m.seats (i / 32 * v3SeatsPerShard + slot)) (i / 32) slot).any
        fun position => decide (position.slot = i % 32)) = some (i % 32) := by
    rw [List.find?_range_eq_some]
    refine ⟨by simp [hs], List.mem_range.2 (mod_lt _ (by decide)), fun j hj => ?_⟩
    rw [hot j hj]
    rfl
  rw [decodeV3SeatShard, List.find?_filterMap, hf]
  exact hs

theorem Relayed.fresh_iff (h : Relayed m ctx replace order intent) :
    m.core.oracleValid = true ∧ m.core.mode = 1 ∧ 0 < m.core.oraclePrice.val := by
  have hf := require_eq_ok.1 h.fresh
  exact ⟨hf.1, hf.2.1, hf.2.2.2.1⟩

theorem required_ne_zero (opcode : Opcode) (flags : ℕ) :
    requiredSessionActions opcode flags ≠ 0 := by
  cases opcode <;> simp only [requiredSessionActions] <;> first | decide | (split <;> decide)

/-- The order fields of the gate, in the terms of the two lists of limits. -/
theorem Relayed.checkOrder_iff (h : Relayed m ctx replace order intent)
    (hst : Stored session) (hlow : order.seatIndex < 32)
    (hl : session.isLive ctx.now = true)
    (ha : session.actions &&& requiredSessionActions
      (if intent.replace then .replaceOrder else .placeOrder) order.flags ≠ 0)
    (hn : order.actionNonce = session.nextExpectedNonce) :
    checkOrder m.core (m.seats order.seatIndex) session intent = .ok () ↔
      Shared m ctx order intent session ∧ GateOnly m order intent session := by
  obtain ⟨hqu, hq, -, -, -⟩ := extractOrderIntent_eq_some h.intent
  simp only [checkOrder, ok_rules, hq]
  rw [require_eq_ok]
  constructor
  · rintro ⟨hp, ⟨-, hsa⟩, hr, ⟨hor, hb⟩, ⟨-, he⟩, ho⟩
    refine ⟨⟨hp, ?_, hl, ha, hn, hor, hb, he⟩, hlow, hsa, ?_, ?_⟩
    · -- A safe notional leaves no room for a price beyond an `i64`.
      unfold maxSafeInteger at hsa
      nlinarith [show (1 : ℤ) ≤ order.quantity by omega]
    · intro hro
      constructor
      · exact fun h0 => hr ⟨hro, .inl h0⟩
      · exact not_le.1 fun hle => hr ⟨hro, .inr hle⟩
    · split_ifs at ho ⊢ <;> omega
  · rintro ⟨hs, hg⟩
    refine ⟨hs.price_pos, ⟨?_, hg.safe⟩, ?_, ⟨hs.orderNotional, hs.budget⟩,
      ⟨hst.exposure_nonneg, hs.exposure⟩, ?_⟩
    · exact mul_pos (by omega) hs.price_pos
    · rintro ⟨hro, h0 | hle⟩
      · exact (hg.reduces hro).1 h0
      · exact absurd (hg.reduces hro).2 (not_lt.2 hle)
    · have ho := hg.orders
      split_ifs at ho ⊢ <;> omega

theorem Relayed.gate_iff (h : Relayed m ctx replace order intent) :
    verifyTradingSession (route m ctx replace order .er) = .ok () ↔
      ∃ session, m.sessions (m.sessionKey ctx order.seatIndex) = some session ∧
        Shared m ctx order intent session ∧ GateOnly m order intent session := by
  obtain ⟨hv, hm, -⟩ := h.fresh_iff
  obtain ⟨-, -, -, -, hre⟩ := extractOrderIntent_eq_some h.intent
  have hco : decodeV3Core m.core = some m.core := by
    rw [decodeV3Core, if_pos ⟨h.initialized, h.configured⟩]
  have ho : (if replace = true then Opcode.replaceOrder else .placeOrder) =
      if intent.replace then .replaceOrder else .placeOrder := by
    rw [hre]
  simp only [verifyTradingSession, route, hco, find_decodeV3SeatShard h.occupied, h.intent, ho,
    ok_rules, okOr_eq_ok, some.injEq, exists_eq_left', sessionAccount,
    map_eq_some_iff, hv, hm, h.delegated]
  simp only [require_eq_ok]
  constructor
  · rintro ⟨-, -, ⟨hsl, -⟩, account, ⟨session, hf, rfl⟩, hi, hr, -, -, -, -,
      he, -, ha, hn, ⟨⟩, hc, -⟩
    dsimp only at hi hr he ha hn hc
    have hlow : order.seatIndex < 32 := by omega
    have hl : session.isLive ctx.now = true := by
      simp [isLive, hi, hr, he]
    exact ⟨session, hf, (h.checkOrder_iff (h.stored session hf) hlow hl ha hn.symm).1 hc⟩
  · rintro ⟨session, hf, hs, hg⟩
    have hl := hs.live
    simp only [isLive, Bool.and_eq_true, Bool.not_eq_true', decide_eq_true_eq] at hl
    refine ⟨by simp, trivial, ⟨mod_eq_of_lt hg.low_seat, trivial⟩, _,
      ⟨session, hf, rfl⟩, hl.1.1, hl.1.2, rfl, rfl, rfl, rfl, hl.2,
      required_ne_zero _ _, hs.allowed, hs.nonce.symm, (), ?_, by simp⟩
    exact (h.checkOrder_iff (h.stored session hf) hg.low_seat hs.live hs.allowed
      hs.nonce).2 ⟨hs, hg⟩

/-! ## The program's answer -/

/-- The session affords a demand at a time. -/
structure Admits (session : TradingSession) (demand : SessionDemand) (now : ℕ) : Prop where
  live : session.isLive now = true
  allowed : session.actions &&& demand.requiredActions ≠ 0
  nonce : demand.actionNonce = session.nextExpectedNonce
  nonce_ne : session.nextExpectedNonce ≠ 2 ^ 64 - 1
  notional_nonneg : 0 ≤ demand.notional
  orderNotional : demand.notional ≤ session.maxOrderNotional
  budget : demand.notional + session.consumedCumulativeNotional ≤ session.maxCumulativeNotional
  exposure : (demand.resultingExposure : ℤ) ≤ session.maxExposure
  orders : demand.resultingOpenOrders ≤ session.maxOpenOrders

theorem Relayed.validate_iff (h : Relayed m ctx replace order intent)
    (hac : demand.requiredActions ≠ 0) :
    (∃ granted, validateV3SessionActor m ctx order.seatIndex demand now = .ok granted) ↔
      ∃ session, m.sessions (m.sessionKey ctx order.seatIndex) = some session ∧
        Admits session demand now := by
  have hse : v3TradeSeat m order.seatIndex = .ok (m.seats order.seatIndex) :=
    v3TradeSeat_eq_ok.2 ⟨h.seat_lt, h.occupied, h.trader_ne, rfl⟩
  have hex (session : TradingSession)
      (hf : m.sessions (m.sessionKey ctx order.seatIndex) = some session) :
      session.maxExposure % 2 ^ 128 = session.maxExposure := by
    have hs := h.stored session hf
    exact emod_eq_of_lt hs.exposure_nonneg (by have := hs.exposure_lt; omega)
  simp only [validateV3SessionActor, ok_rules, hse, ok.injEq, exists_eq_left', okOr_eq_ok]
  constructor
  · rintro ⟨_, -, -, -, session, hf, ⟨hl, hal⟩, hn, hne, ⟨hno, hor, hb, he, ho⟩, rfl⟩
    rw [hex session hf] at he
    exact ⟨session, hf, hl, hal, hn, hne, hno, hor, hb, he, ho⟩
  · rintro ⟨session, hf, ha⟩
    refine ⟨session, hac, ⟨h.initialized, h.fresh_iff.2.1⟩, h.signer_ne, session, hf,
      ⟨ha.live, ha.allowed⟩, ha.nonce, ha.nonce_ne, ⟨ha.notional_nonneg,
        ha.orderNotional, ha.budget, ?_, ha.orders⟩, rfl⟩
    rw [hex session hf]
    exact ha.exposure

theorem Relayed.exists_effectivePrice (h : Relayed m ctx replace order intent)
    {q : ℤ → Prop} :
    (∃ price, order.effectivePrice intent.tree m.core.oraclePrice = .ok price ∧ q price.val) ↔
      0 < intent.effectivePrice m.core.oraclePrice.val ∧
      intent.effectivePrice m.core.oraclePrice.val < 2 ^ 63 ∧
      q (intent.effectivePrice m.core.oraclePrice.val) := by
  obtain ⟨-, -, ho, -, -⟩ := extractOrderIntent_eq_some h.intent
  unfold effectivePrice OrderIntent.effectivePrice
  cases intent.tree with
  | fixed =>
    simp only [ok_rules, exists_eq_left', ho]
    constructor
    · rintro ⟨_, ⟨hpos, rfl⟩, hq⟩
      exact ⟨hpos, order.priceOrOffset.property.2, hq⟩
    · rintro ⟨hpos, -, hq⟩
      exact ⟨_, ⟨hpos, rfl⟩, hq⟩
  | oraclePegged =>
    simp only [ok_rules, okOr_eq_ok, ho]
    constructor
    · rintro ⟨_, ⟨price, hadd, hpos, rfl⟩, hq⟩
      rw [← I64.checkedAdd_eq_some hadd]
      exact ⟨hpos, price.property.2, hq⟩
    · rintro ⟨hpos, hlt, hq⟩
      obtain ⟨price, hadd⟩ := (I64.exists_checkedAdd_of_pos (b := order.priceOrOffset)
        h.fresh_iff.2.2).2 hlt
      rw [← I64.checkedAdd_eq_some hadd] at hpos hq
      exact ⟨price, ⟨price, hadd, hpos, rfl⟩, hq⟩

def orderDemand (m : Market) (order : PlaceOrderData) (intent : OrderIntent)
    (actions count remaining : ℕ) : SessionDemand where
  requiredActions :=
    if order.reduceOnly then actions ||| sessionActionReduceOnlyClose else actions
  notional := order.quantity * intent.effectivePrice m.core.oraclePrice.val
  resultingExposure :=
    ((m.seats order.seatIndex).basePosition + intent.side.signed order.quantity).natAbs
  resultingOpenOrders := count + (decide (0 < remaining) && !order.immediateOrCancel).toNat
  actionNonce := order.actionNonce

theorem Relayed.orderSessionCheck_iff (h : Relayed m ctx replace order intent)
    (hac : actions ≠ 0) :
    orderSessionCheck m ctx order actions intent.side intent.tree count remaining = .ok () ↔
      0 < intent.effectivePrice m.core.oraclePrice.val ∧
      intent.effectivePrice m.core.oraclePrice.val < 2 ^ 63 ∧
      ∃ session, m.sessions (m.sessionKey ctx order.seatIndex) = some session ∧
        Admits session (orderDemand m order intent actions count remaining) ctx.now := by
  have ho : oraclePriceAfterFreshness ctx m.core = .ok m.core.oraclePrice := by
    simp only [oraclePriceAfterFreshness, h.canonical, ok_rules]
    exact ⟨h.fresh_iff.2.2, trivial⟩
  have hne : (orderDemand m order intent actions count remaining).requiredActions ≠ 0 := by
    unfold orderDemand
    dsimp only
    split
    · exact fun h0 => absurd (or_eq_zero_iff.1 h0).2 (by decide)
    · exact hac
  have hv : (∃ granted, validateV3SessionActor m ctx order.seatIndex
      (orderDemand m order intent actions count remaining) ctx.now = .ok granted) ↔ _ :=
    h.validate_iff hne
  simp only [orderSessionCheck, ok_rules, ho, ok.injEq, exists_eq_left', exists_checkedI128,
    and_true]
  refine (h.exists_effectivePrice (q := fun p => InI128 (order.quantity * p) ∧
    InI128 ((m.seats order.seatIndex).basePosition + intent.side.signed order.quantity) ∧
    count + (decide (0 < remaining) && !order.immediateOrCancel).toNat < 2 ^ 32 ∧
    ∃ granted, validateV3SessionActor m ctx order.seatIndex
      { orderDemand m order intent actions count remaining with
        notional := order.quantity * p } ctx.now = .ok granted)).trans ?_
  refine and_congr_right fun hpos => and_congr_right fun hlt => ?_
  refine Iff.trans ?_ hv
  refine ⟨fun hc => hc.2.2.2, fun hg => ⟨?_, ?_, ?_, hg⟩⟩
  · have hq := h.quantity_lt
    exact ⟨by nlinarith, by nlinarith⟩
  all_goals
    obtain ⟨session, hf, ha⟩ := hv.1 hg
    have hs := h.stored session hf
  · have he := ha.exposure
    have hlt := hs.exposure_lt
    simp only [orderDemand, natCast_natAbs] at he
    have hb := abs_le.1 (he.trans hlt.le)
    have hu := (le_abs_self _).trans_lt (he.trans_lt hlt)
    exact ⟨hb.1, hu⟩
  · have hor := ha.orders
    have hlt := hs.orders_lt
    simp only [orderDemand] at hor
    omega

theorem placed_iff (hp : intent.replace = false)
    (hpos : 0 < intent.effectivePrice m.core.oraclePrice.val)
    (hlt : intent.effectivePrice m.core.oraclePrice.val < 2 ^ 63) :
    Admits session (orderDemand m order intent sessionActionPlace
      (m.seats order.seatIndex).openOrderCount remaining) ctx.now ↔
      Shared m ctx order intent session ∧ ProgramOnly m order intent remaining session := by
  constructor
  · intro h
    have he := h.exposure
    simp only [orderDemand, natCast_natAbs] at he
    refine ⟨⟨hpos, hlt, h.live, ?_, h.nonce, h.orderNotional, h.budget, he⟩, h.nonce_ne,
      fun _ => h.orders, by simp [hp]⟩
    rw [hp]
    exact h.allowed
  · rintro ⟨hs, hpr⟩
    have ha := hs.allowed
    rw [hp] at ha
    refine ⟨hs.live, ha, hs.nonce, hpr.nonce_ne, ?_, hs.orderNotional, hs.budget, ?_, hpr.orders hp⟩
    · exact mul_nonneg (natCast_nonneg _) hpos.le
    · simpa only [orderDemand, natCast_natAbs] using hs.exposure

theorem and_or_ne_zero {a b : ℕ} (c : ℕ) (h : a &&& b ≠ 0) : a &&& (b ||| c) ≠ 0 := by
  rw [and_or_distrib_left]
  exact fun h0 => h (or_eq_zero_iff.1 h0).1

/-- An order that replaces another: the cancellation asks for the permission and the room that the
gate asks for as well. -/
theorem replaced_iff (planned : ℕ) (hr : intent.replace = true)
    (hpos : 0 < intent.effectivePrice m.core.oraclePrice.val)
    (hlt : intent.effectivePrice m.core.oraclePrice.val < 2 ^ 63)
    (hco : 1 ≤ (m.seats order.seatIndex).openOrderCount) :
    (Admits session (orderDemand m order intent sessionActionReplace
        ((m.seats order.seatIndex).openOrderCount - 1) planned) ctx.now ∧
      Admits session (passiveDemand (m.seats order.seatIndex) sessionActionReplace
        order.actionNonce) m.core.oracleTimestamp ∧
      Admits session (orderDemand m order intent sessionActionReplace
        ((m.seats order.seatIndex).openOrderCount - 1) remaining) ctx.now) ↔
      Shared m ctx order intent session ∧ ProgramOnly m order intent remaining session := by
  constructor
  · rintro ⟨h, hc, -⟩
    have hex := h.exposure
    have hh := hc.exposure
    have he := hc.live
    simp only [orderDemand, passiveDemand, natCast_natAbs] at hex hh
    simp only [isLive, Bool.and_eq_true, decide_eq_true_eq] at he
    refine ⟨⟨hpos, hlt, h.live, ?_, h.nonce, h.orderNotional, h.budget, hex⟩, h.nonce_ne,
      by simp [hr], fun _ => ⟨hco, hc.orders, he.2, hh⟩⟩
    rw [hr]
    exact hc.allowed
  · rintro ⟨hs, hp⟩
    obtain ⟨-, hor, he, hh⟩ := hp.replaced hr
    have ha := hs.allowed
    have hl := hs.live
    have hn : 0 ≤ (order.quantity : ℤ) * intent.effectivePrice m.core.oraclePrice.val :=
      mul_nonneg (natCast_nonneg _) hpos.le
    rw [hr] at ha
    have ho (left : ℕ) : Admits session (orderDemand m order intent sessionActionReplace
        ((m.seats order.seatIndex).openOrderCount - 1) left) ctx.now := by
      refine ⟨hl, ?_, hs.nonce, hp.nonce_ne, hn, hs.orderNotional, hs.budget, ?_, ?_⟩
      · simp only [orderDemand]
        split
        · exact and_or_ne_zero _ ha
        · exact ha
      · simpa only [orderDemand, natCast_natAbs] using hs.exposure
      · have hre := Bool.toNat_le (decide (0 < left) && !order.immediateOrCancel)
        simp only [orderDemand]
        omega
    refine ⟨ho planned, ⟨?_, ha, hs.nonce, hp.nonce_ne, le_rfl, ?_, ?_, ?_, hor⟩, ho remaining⟩
    · simp only [isLive, Bool.and_eq_true, decide_eq_true_eq] at hl ⊢
      exact ⟨hl.1, he⟩
    · exact natCast_nonneg _
    · have hb := hs.budget
      simp only [passiveDemand]
      omega
    · simpa only [passiveDemand, natCast_natAbs] using hh

theorem Relayed.program_iff (h : Relayed m ctx replace order intent) :
    sessionChecks m ctx replace order intent.side intent.tree planned remaining = .ok () ↔
      ∃ session, m.sessions (m.sessionKey ctx order.seatIndex) = some session ∧
        Shared m ctx order intent session ∧ ProgramOnly m order intent remaining session := by
  obtain ⟨-, -, -, -, hr⟩ := extractOrderIntent_eq_some h.intent
  unfold sessionChecks
  cases replace with
  | false =>
    rw [if_neg (by decide), h.orderSessionCheck_iff (by decide)]
    constructor
    · rintro ⟨hpos, hlt, session, hf, ha⟩
      exact ⟨session, hf, (placed_iff hr hpos hlt).1 ha⟩
    · rintro ⟨session, hf, hb⟩
      exact ⟨hb.1.price_pos, hb.1.price_lt, session, hf,
        (placed_iff hr hb.1.price_pos hb.1.price_lt).2 hb⟩
  | true =>
    have hre : sessionActionReplace ≠ 0 := by decide
    have hca : (∃ granted, validateV3SessionActor m ctx order.seatIndex
        (passiveDemand (m.seats order.seatIndex) sessionActionReplace order.actionNonce)
        m.core.oracleTimestamp = .ok granted) ↔ _ := h.validate_iff hre
    simp only [if_true, ok_rules]
    constructor
    · rintro ⟨hc, ⟨⟩, hpl, granted, hg, hp⟩
      obtain ⟨hpos, hlt, session, hf, ha⟩ := (h.orderSessionCheck_iff hre).1 hpl
      obtain ⟨-, -, session₂, hf₂, ha₂⟩ := (h.orderSessionCheck_iff hre).1 hp
      obtain ⟨session₁, hf₁, ha₁⟩ := hca.1 ⟨granted, hg⟩
      obtain rfl := some.inj (hf.symm.trans hf₁)
      obtain rfl := some.inj (hf.symm.trans hf₂)
      exact ⟨session, hf, (replaced_iff _ hr hpos hlt hc).1 ⟨ha, ha₁, ha₂⟩⟩
    · rintro ⟨session, hf, hb⟩
      obtain ⟨hc, -⟩ := hb.2.replaced hr
      have hpos := hb.1.price_pos
      have hlt := hb.1.price_lt
      obtain ⟨hpl, hcan, hp⟩ := (replaced_iff planned hr hpos hlt hc).2 hb
      obtain ⟨granted, hg⟩ := hca.2 ⟨session, hf, hcan⟩
      have hfi := (h.orderSessionCheck_iff hre).2 ⟨hpos, hlt, session, hf, hpl⟩
      have hl := (h.orderSessionCheck_iff hre).2 ⟨hpos, hlt, session, hf, hp⟩
      exact ⟨hc, (), hfi, granted, hg, hl⟩

/-! ## Accepted instructions -/

variable {m' : Market} {u : Unit} {key : Key}

theorem exists_validated {i : ℕ} {granted : Option TradingSession}
    (h : validateV3TradeAccounts m ctx i demand now = .ok granted)
    (hsi : (m.seats i).trader ≠ ctx.signer) :
    ∃ session, validateV3SessionActor m ctx i demand now = .ok session := by
  simp only [validateV3TradeAccounts, ok_rules, v3TradeSeat_eq_ok] at h
  obtain ⟨⟨⟩, -, -, _, ⟨-, -, -, rfl⟩, h⟩ := h
  rw [if_neg hsi] at h
  simp only [ok_rules] at h
  obtain ⟨-, session, hs, -⟩ := h
  exact ⟨session, hs⟩

theorem intent_of_shape (hi : extractOrderIntent replace order = some intent)
    (hs : order.shape now = .ok (side, tree)) : intent.side = side ∧ intent.tree = tree := by
  simp only [extractOrderIntent, some_rules] at hi
  simp only [shape, ok_rules, okOr_eq_ok, Prod.mk.injEq] at hs
  obtain ⟨side₁, hs₁, tree₁, ht₁, hi⟩ := hi
  obtain ⟨side₂, hs₂, tree₂, ht₂, -, rfl, rfl⟩ := hs
  obtain rfl := some.inj (hs₁.symm.trans hs₂)
  obtain rfl := some.inj (ht₁.symm.trans ht₂)
  split at hi
  · simp at hi
  · obtain rfl := some.inj hi
    exact ⟨rfl, rfl⟩

/-- An authorized order has passed its session check. -/
theorem orderSessionCheck_of_authorized {settled : TraderSeat} {config : V3RiskConfig}
    {oracle price : I64} {asked : OrderDemand} {plan : V3MatchPlan}
    {granted : Option TradingSession}
    (ho : oraclePriceAfterFreshness ctx m.core = .ok oracle)
    (hp : order.effectivePrice tree oracle = .ok price)
    (hb : settled.basePosition = (m.seats order.seatIndex).basePosition)
    (ha : admitOrder settled config side order oracle price = .ok asked)
    (hg : authorizeOrder m ctx order actions asked count plan ctx.now = .ok granted)
    (hsi : (m.seats order.seatIndex).trader ≠ ctx.signer) :
    orderSessionCheck m ctx order actions side tree count plan.takerRemaining = .ok () := by
  simp only [admitOrder, ok_rules, exists_checkedI128] at ha
  obtain ⟨hn, hr, -, -, _, -, _, -, _, -, -, -, -, rfl⟩ := ha
  simp only [authorizeOrder, ok_rules] at hg
  obtain ⟨hc, hg⟩ := hg
  obtain ⟨session, hs⟩ := exists_validated hg hsi
  rw [hb] at hr hs
  simp only [orderSessionCheck, ok_rules, ho, ok.injEq, exists_eq_left', hp,
    exists_checkedI128, and_true]
  exact ⟨hn, hr, hc, session, hs⟩

theorem Relayed.of_placed (h : Relayed m ctx false order intent)
    (hpl : placeOrderV3 ctx order m = .ok u m') : ∃ prepared,
      prepareOrder m ctx order sessionActionPlace = .ok prepared ∧
      sessionChecks m ctx false order intent.side intent.tree planned
        prepared.plan.takerRemaining = .ok () ∧
      (m'.seats order.seatIndex).openOrderCount ≤ (m.seats order.seatIndex).openOrderCount +
        (order.rests prepared.plan).toNat := by
  obtain ⟨prepared, _, _, _, _, _, hpr, hex⟩ := placeOrderV3WithAction_eq_ok hpl
  obtain ⟨oracle, _, hp⟩ := prepareOrder_eq_ok hpr
  obtain ⟨settled, asked, hse, ha, hg⟩ := hp.admitted
  obtain ⟨-, hs⟩ := Risk.settleFunding_eq_ok hse
  obtain ⟨hsi, ht⟩ := intent_of_shape h.intent hp.shape
  refine ⟨prepared, hpr, ?_, hex.openOrderCount_le _⟩
  rw [sessionChecks, if_neg (by decide), hsi, ht]
  have hc : settled.openOrderCount = (m.seats order.seatIndex).openOrderCount := by rw [hs]
  rw [← hc]
  exact orderSessionCheck_of_authorized hp.oracle_eq hp.price (by rw [hs]) ha hg h.signer_ne

/-- The check of a replacement before anything is written. -/
theorem Relayed.check_of_preflight (h : Relayed m ctx replace order intent)
    (hc : preflightReplaceOrderV3 m ctx key order = .ok ()) :
    1 ≤ (m.seats order.seatIndex).openOrderCount ∧ ∃ left,
      orderSessionCheck m ctx order sessionActionReplace intent.side intent.tree
        ((m.seats order.seatIndex).openOrderCount - 1) left = .ok () := by
  simp only [preflightReplaceOrderV3, bind_eq_ok, v3TradeSeat_eq_ok, riskOk_eq_ok] at hc
  obtain ⟨now, hn, _, ⟨-, -, -, rfl⟩, config, -, oracle, ho, old, -, reserve, -, adjusted,
    ha, ⟨_, settled⟩, hse, ⟨side, tree⟩, hsh, price, hp, asked, has, _, -,
    _, -, plan, -, granted, hg, -⟩ := hc
  obtain rfl := freshV3ExecutionTime_eq hn
  obtain ⟨-, hs⟩ := Risk.settleFunding_eq_ok hse
  obtain ⟨hsi, ht⟩ := intent_of_shape h.intent hsh
  obtain ⟨⟨_, _, _, _, hsa⟩, -⟩ := TraderSeat.release_eq_ok ha
  have hb : settled.basePosition = (m.seats order.seatIndex).basePosition := by
    rw [hs, hsa]
  simp only [TraderSeat.release, ok_rules, exists_checkedI128] at ha
  obtain ⟨-, hco, -, ha⟩ := ha
  have hor : settled.openOrderCount = (m.seats order.seatIndex).openOrderCount - 1 := by
    rw [hs, ← ha]
    cases old.2.2.side <;> rfl
  rw [hsi, ht, ← hor]
  exact ⟨Nat.pos_of_ne_zero (hco trivial), plan.takerRemaining,
    orderSessionCheck_of_authorized ho hp hb has hg h.signer_ne⟩

theorem Relayed.of_replaced (h : Relayed m ctx true order intent)
    (hr : replaceOrderV3 ctx key order m = .ok u m') : ∃ m₀ prepared,
      cancelOrderV3WithAction ctx order.seatIndex key order.actionNonce sessionActionReplace false
        m = .ok () m₀ ∧
      prepareOrder m₀ ctx order sessionActionReplace = .ok prepared ∧
      (∀ remaining, sessionChecks m ctx true order intent.side intent.tree planned remaining =
        .ok ()) ∧
      (m'.seats order.seatIndex).openOrderCount ≤ (m.seats order.seatIndex).openOrderCount := by
  obtain ⟨-, -, -, -, hre⟩ := extractOrderIntent_eq_some h.intent
  simp only [replaceOrderV3, run_rules] at hr
  obtain ⟨-, ⟨⟩, hch, hr⟩ := hr
  obtain ⟨hco, left, hl⟩ := h.check_of_preflight hch
  obtain ⟨hpos, hlt, session, hf, ha⟩ := (h.orderSessionCheck_iff (by decide)).1 hl
  -- The nonce of a session is never zero, so that the permission to replace is asked for again.
  have hn : order.actionNonce ≠ 0 := by
    have heq : order.actionNonce = session.nextExpectedNonce := ha.nonce
    have hst := (h.stored session hf).nonce_pos
    omega
  simp only [if_neg hn, run_lift_bind, exists_require] at hr
  obtain ⟨-, hr⟩ := hr
  obtain ⟨⟨⟩, m₀, hc, hp⟩ := run_bind_eq_ok.1 hr
  obtain ⟨prepared, _, _, _, _, _, hpr, hex⟩ := placeOrderV3WithAction_eq_ok hp
  obtain ⟨side, tree, leaf, m₁, -, hca, hsa⟩ := cancelOrderV3WithAction_eq_ok hc
  refine ⟨m₀, prepared, hc, hpr, fun remaining => ?_, ?_⟩
  · simp only [cancelOrderV3WithAction, run_rules, v3TradeSeat_eq_ok] at hc
    obtain ⟨_, ⟨-, -, -, rfl⟩, granted, hg, -⟩ := hc
    have hrep : sessionActionReplace ≠ 0 := by decide
    obtain ⟨session₁, hf₁, ha₁⟩ := (h.validate_iff hrep).1 (exists_validated hg h.signer_ne)
    obtain rfl := some.inj (hf.symm.trans hf₁)
    obtain ⟨hs, hp⟩ := (replaced_iff left hre hpos hlt hco).1 ⟨ha, ha₁, ha⟩
    exact h.program_iff.2 ⟨session, hf, hs, hp.nonce_ne, by simp [hre], hp.replaced⟩
  · have hle := hex.openOrderCount_le order.seatIndex
    have hre := Bool.toNat_le (order.rests prepared.plan)
    have hcount := hca.openOrderCount
    rw [hsa.seats] at hle
    omega

/-- The instruction of an order, which is placed or put in the place of another. -/
def submit (ctx : Context) (replace : Bool) (key : Key) (order : PlaceOrderData) : MarketM Unit :=
  if replace then replaceOrderV3 ctx key order else placeOrderV3 ctx order

/-- An order accepted through a session has passed all session checks with what its plan leaves of
it, and its seat then has no more open orders than the session allows. -/
theorem Relayed.checks_of_accepted (h : Relayed m ctx replace order intent)
    (hacc : submit ctx replace key order m = .ok u m') : ∃ m₀ prepared session,
      (if replace then cancelOrderV3WithAction ctx order.seatIndex key order.actionNonce
        sessionActionReplace false m = .ok () m₀ else m₀ = m) ∧
      prepareOrder m₀ ctx order (if replace then sessionActionReplace else sessionActionPlace) =
        .ok prepared ∧
      sessionChecks m ctx replace order intent.side intent.tree planned
        prepared.plan.takerRemaining = .ok () ∧
      m.sessions (m.sessionKey ctx order.seatIndex) = some session ∧
      (m'.seats order.seatIndex).openOrderCount ≤ session.maxOpenOrders := by
  obtain ⟨-, -, -, -, hre⟩ := extractOrderIntent_eq_some h.intent
  cases replace with
  | false =>
    obtain ⟨prepared, hp, hc, hle⟩ := h.of_placed hacc
    obtain ⟨session, hf, -, hpr⟩ := h.program_iff.1 hc
    exact ⟨m, prepared, session, rfl, hp, hc, hf, hle.trans (hpr.orders hre)⟩
  | true =>
    obtain ⟨m₀, prepared, hca, hp, hc, hle⟩ := h.of_replaced hacc
    obtain ⟨session, hf, -, hpr⟩ := h.program_iff.1 (hc prepared.plan.takerRemaining)
    exact ⟨m₀, prepared, session, hca, hp, hc _, hf, hle.trans (hpr.replaced hre).2.1⟩

/-! ## Agreement -/

/-- The gate and the session checks of the program agree on an order exactly if, once the session
passes the limits that both check, it meets what only the gate asks for just when it meets what
only the program asks for. -/
theorem gate_agrees_iff (h : Relayed m ctx replace order intent) :
    (verifyTradingSession (route m ctx replace order .er) = .ok () ↔
      sessionChecks m ctx replace order intent.side intent.tree planned remaining = .ok ()) ↔
      ∀ session, m.sessions (m.sessionKey ctx order.seatIndex) = some session →
        Shared m ctx order intent session →
        (GateOnly m order intent session ↔ ProgramOnly m order intent remaining session) := by
  rw [h.gate_iff, h.program_iff]
  cases hf : m.sessions (m.sessionKey ctx order.seatIndex) with
  | none => simp
  | some session =>
    simp only [some.injEq, exists_eq_left', forall_eq']
    tauto

/-- The market authority takes a seat, authorizes a session for it, and the core gets a price. -/
def relaySetup (seat : ℕ) : List Action :=
  [.createTraderSeat (call 3 1000) seat,
    .depositCollateralV3 (call 3 1000) seat 10000 10000,
    .createV3TradingSession (call 3 1000) seat 5,
    .delegateV3Core (call 3 1000) 9,
    .authorizeTradingSessionV3 (call 3 1000) seat 5 samplePolicy,
    .consumeOracleUpdateV3 (call 3 1000)
      { feedId := 4, channel := 1, exponent := 0, price := 1000, confidence := 0
        session := 0, envelopeTimestampUs := 1000000, feedUpdateTimestampUs := 1000000 }]

def relayMarket (seat : ℕ) : Market := (genesis.after (relaySetup seat)).live

/-- A transaction of the session signer 5 with the relayed accounts. -/
def relayCall : Context := { signer := 5, now := 0, hasSession := true, snapshot := none }

def relayBid (seat : ℕ) : PlaceOrderData :=
  { limitOrder .bid seat 2 1000 with actionNonce := 1 }

def relayIntent : OrderIntent := ⟨2, 1000, .bid, .fixed, false, false⟩

def relaySession : TradingSession :=
  { empty.withPolicy samplePolicy with initialized := true }

theorem relayMarket_sessions {seat : ℕ} (hs : seat = 0 ∨ seat = 32) :
    (relayMarket seat).sessions ((relayMarket seat).sessionKey relayCall seat) =
      some relaySession := by
  rcases hs with rfl | rfl <;> decide +kernel

theorem relayed_relayBid {seat : ℕ} (hs : seat = 0 ∨ seat = 32) :
    Relayed (relayMarket seat) relayCall false (relayBid seat) relayIntent := by
  rcases hs with rfl | rfl
  all_goals
    refine ⟨?_, ?_, ?_, rfl, require_eq_ok.2 ?_, by decide, ?_, ?_, ?_, rfl, by decide,
      stored_of_run (fun _ => rfl) (run_of_accepts (by decide +kernel)) _⟩
    all_goals decide +kernel

/-- The signer has placed the bid, and then halves it. -/
def relayHalved : PlaceOrderData := { relayBid 0 with quantity := 1, actionNonce := 2 }

def relayPlaced : Market :=
  (genesis.after (relaySetup 0 ++ [.placeOrderV3 relayCall (relayBid 0)])).live

def relayKey : Key := packKey (priceWord .bid 1000) 1

theorem checks_of_relayHalved : ∃ m' m₀ prepared session,
    submit relayCall true relayKey relayHalved relayPlaced = .ok () m' ∧
    cancelOrderV3WithAction relayCall relayHalved.seatIndex relayKey relayHalved.actionNonce
      sessionActionReplace false relayPlaced = .ok () m₀ ∧
    prepareOrder m₀ relayCall relayHalved sessionActionReplace = .ok prepared ∧
    sessionChecks relayPlaced relayCall true relayHalved .bid .fixed 1
      prepared.plan.takerRemaining = .ok () ∧
    relayPlaced.sessions (relayPlaced.sessionKey relayCall relayHalved.seatIndex) = some session ∧
    (m'.seats relayHalved.seatIndex).openOrderCount ≤ session.maxOpenOrders := by
  have hst : AllStored relayPlaced :=
    stored_of_run (fun _ => rfl) (run_of_accepts (by decide +kernel))
  have hr : Relayed relayPlaced relayCall true relayHalved
      { relayIntent with quantity := 1, replace := true } := by
    refine ⟨?_, ?_, ?_, rfl, require_eq_ok.2 ?_, by decide, ?_, ?_, ?_, rfl, by decide, hst _⟩
    all_goals decide +kernel
  obtain ⟨m', hx⟩ : ∃ m', submit relayCall true relayKey relayHalved relayPlaced = .ok () m' :=
    ⟨_, eq_ok_of_isOk (by decide +kernel)⟩
  obtain ⟨m₀, prepared, session, hc⟩ := hr.checks_of_accepted hx
  exact ⟨m', m₀, prepared, session, hx, hc⟩

/-- Both let the bid of the session of seat 0 pass. -/
theorem gate_agrees_of_seat_zero :
    verifyTradingSession (route (relayMarket 0) relayCall false (relayBid 0) .er) = .ok () ∧
      sessionChecks (relayMarket 0) relayCall false (relayBid 0) .bid .fixed 0 2 = .ok () := by
  have hc :
      sessionChecks (relayMarket 0) relayCall false (relayBid 0) .bid .fixed 0 2 = .ok () := by
    decide +kernel
  refine ⟨((gate_agrees_iff (relayed_relayBid (.inl rfl))).2 fun session hf _ => ?_).2 hc, hc⟩
  obtain rfl := some.inj ((relayMarket_sessions (.inl rfl)).symm.trans hf)
  exact iff_of_true ⟨by decide, by decide +kernel, by decide +kernel, by decide +kernel⟩
    ⟨by decide, by decide +kernel, by decide +kernel⟩

/-- The gate refuses the session of seat 32, whose order the program accepts. -/
theorem gate_refuses_seat_32 : ∃ (w₀ w : World) (as : List Action) (ctx : Context)
    (order : PlaceOrderData) (intent : OrderIntent) (m' : Market), w₀.Initial ∧
    Run Action.Accepted w₀ as w ∧ Relayed w.live ctx false order intent ∧ order.seatIndex = 32 ∧
    verifyTradingSession (route w.live ctx false order .er) = .error .seatOwnerMismatch ∧
    sessionChecks w.live ctx false order intent.side intent.tree 0 order.quantity = .ok () ∧
    placeOrderV3 ctx order w.live = .ok () m' := by
  have hp : placeOrderV3 relayCall (relayBid 32) (relayMarket 32) = .ok () (finalState _) :=
    eq_ok_of_isOk (by decide +kernel)
  exact ⟨genesis, _, relaySetup 32, relayCall, relayBid 32, relayIntent, _,
    genesis_initial, run_accepted (by decide +kernel), relayed_relayBid (.inr rfl), rfl,
    by decide +kernel, by decide +kernel, hp⟩

end Relay

end Equinox
