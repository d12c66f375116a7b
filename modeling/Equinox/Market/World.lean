import Equinox.Book.Refinement
import Equinox.Market.Custody
import Equinox.Market.Lifecycle
import Equinox.Market.Trades

/-! # The market and its surroundings

A market lives on L1 or, while delegated, in the rollup; L1 then holds the
accounts as last committed, and the runtime writes them back at times of its
own. Tokens move through the vault and two kinds of receipts. A run is any
interleaving of accepted instructions and such write-backs.
-/

namespace Equinox

open Foundation CritBit

inductive MovementKind where
  | inboxDeposited | inboxCredited | withdrawalRequested | withdrawalPaid
  deriving DecidableEq, Repr

/-- One entry of the history of custody, which the program itself does not keep. -/
structure Movement where
  kind : MovementKind
  trader : Address
  amount : ℕ
  deriving DecidableEq, Repr

/-- The core and the seats as L1 holds them. -/
structure L1Copy where
  core : MarketCore
  seats : ℕ → TraderSeat

structure World where
  live : Market
  l1 : L1Copy
  vault : ℕ
  receipts : Address → ℕ
  payouts : Address → ℕ
  history : List Movement

variable {w : World}

namespace World

def total (w : World) (kind : MovementKind) (trader : Address) : ℕ :=
  (w.history.map fun x => if x.kind = kind ∧ x.trader = trader then x.amount else 0).sum

/-- A freshly initialized market with prepared pages and empty seats. -/
structure Initial (w : World) : Prop where
  core : ∃ address instrument authority feedId channel exponent,
    initializeV3Market authority feedId channel exponent (MarketCore.blank address instrument) =
      .ok w.live.core
  books : ∀ side, (w.live.books side).Prepared
  seats : ∀ i, w.live.seats i = TraderSeat.empty
  l1 : w.l1 = ⟨w.live.core, w.live.seats⟩
  receipts : ∀ trader, w.receipts trader = 0
  payouts : ∀ trader, w.payouts trader = 0
  history : w.history = []

theorem Initial.core_eq (h : w.Initial) : ∃ bound, w.live.core = initializeV3RiskConfig bound := by
  obtain ⟨_, _, _, _, _, _, hc⟩ := h.core
  exact initializeV3Market_eq_ok hc

/-- Write an instruction's result. A market on L1 is its own L1 copy. -/
def withLive (w : World) (m : Market) : World :=
  { w with
    live := m
    l1 := if w.live.core.delegationStatus.isOnL1 then ⟨m.core, m.seats⟩ else w.l1 }

def onLive {α : Type} (x : MarketM α) (w : World) : Except ProgramError (α × World) :=
  match x w.live with
  | .ok a m => .ok (a, w.withLive m)
  | .error e _ => .error e

def record (w : World) (kind : MovementKind) (trader : Address) (amount : ℕ) : World :=
  { w with history := ⟨kind, trader, amount⟩ :: w.history }

def checkCore (core : MarketCore) : Except ProgramError Unit :=
  require (core.initialized = true ∧ core.mode = 1) (custom .invalidMarketLayout)

/-- A deposit into a trader's receipt. `sourceAmount` is the balance of the trader's token
account. -/
def depositToInboxV3 (ctx : Context) (amount sourceAmount : ℕ) (w : World) :
    Except ProgramError World := do
  require (amount ≠ 0) (custom .invalidInstruction)
  checkCore w.l1.core
  require (amount ≤ sourceAmount) (custom .custodyViolation)
  let total ← checkedU64 (custom .arithmeticOverflow) (w.receipts ctx.signer + amount)
  pure ({ w with
    vault := w.vault + amount
    receipts := Function.update w.receipts ctx.signer total }.record
      .inboxDeposited ctx.signer amount)

/-- The payout of withdrawal requests, from the seat as last committed to L1. -/
def claimWithdrawalV3 (ctx : Context) (seatIndex : ℕ) (w : World) : Except ProgramError World := do
  checkCore w.l1.core
  require (seatIndex / v3SeatsPerShard < v3SeatShards) (custom .invalidSeat)
  let seat := w.l1.seats seatIndex
  require (seat.occupancy = true ∧ seat.trader = ctx.signer) (custom .invalidSeat)
  require (w.payouts ctx.signer < seat.withdrawalRequested) (custom .invalidInstruction)
  let amount := seat.withdrawalRequested - w.payouts ctx.signer
  require (amount ≤ w.vault) (custom .custodyViolation)
  pure ({ w with
    vault := w.vault - amount
    payouts := Function.update w.payouts ctx.signer seat.withdrawalRequested }.record
      .withdrawalPaid ctx.signer amount)

end World

/-- Every V3 instruction on one market, and what its surroundings do. -/
inductive Action where
  | createTraderSeat (ctx : Context) (seatIndex : ℕ)
  | closeTraderSeat (ctx : Context) (seatIndex : ℕ)
  | depositCollateralV3 (ctx : Context) (seatIndex amount sourceAmount : ℕ)
  | withdrawCollateralV3 (ctx : Context) (seatIndex amount : ℕ)
  | requestWithdrawalV3 (ctx : Context) (seatIndex amount : ℕ)
  | depositToInboxV3 (ctx : Context) (amount sourceAmount : ℕ)
  /-- `seen` is the receipt's total as cloned to where the market lives. -/
  | claimInboxDepositV3 (ctx : Context) (seatIndex : ℕ) (trader : Address) (seen : ℕ)
  | claimWithdrawalV3 (ctx : Context) (seatIndex : ℕ)
  | placeOrderV3 (ctx : Context) (order : PlaceOrderData)
  | cancelOrderV3 (ctx : Context) (seatIndex : ℕ) (orderKey : Key) (actionNonce : ℕ)
  | cancelAllV3 (ctx : Context) (seatIndex maxCancellations actionNonce : ℕ)
  | replaceOrderV3 (ctx : Context) (oldOrderKey : Key) (order : PlaceOrderData)
  | updateFundingV3 (ctx : Context) (accumulator : ℤ) (timestamp : ℕ)
  | liquidateV3 (ctx : Context) (seatIndex maxQuantity : ℕ)
  | consumeOracleUpdateV3 (ctx : Context) (verified : VerifiedOracle)
  | updateV3RiskConfig (ctx : Context) (config : V3RiskConfig)
  | setV3Keeper (ctx : Context) (keeper : Address)
  | setV3PriceReporter (ctx : Context) (reporter : Address)
  | reconcileVaultV3 (ctx : Context)
  | delegateV3Core (ctx : Context) (validator : Address)
  | commitV3Bundle (ctx : Context) (sequence : ℕ) (kind : CommitKind) (digests : ℕ → ℕ)
  | commitV3Member (ctx : Context) (sequence : ℕ) (kind : CommitKind) (child digest : ℕ)
  | commitV3Core (ctx : Context) (sequence : ℕ) (kind : CommitKind)
  | abortV3Snapshot (ctx : Context)
  | rollbackV3Undelegation
  | createV3TradingSession (ctx : Context) (seatIndex : ℕ) (sessionSigner : Address)
  | authorizeTradingSessionV3 (ctx : Context) (seatIndex : ℕ) (sessionSigner : Address)
      (policy : SessionPolicy)
  | revokeTradingSessionV3 (ctx : Context) (seatIndex : ℕ) (sessionSigner : Address)
  | updateTradingSessionV3 (ctx : Context) (seatIndex : ℕ) (sessionSigner : Address)
      (policy : SessionPolicy)
  | closeTradingSessionV3 (ctx : Context) (seatIndex : ℕ) (sessionSigner : Address)
  /-- A commit of one seat shard reaches L1. -/
  | writeBackShard (shard : ℕ)
  /-- A commit of the core reaches L1. -/
  | writeBackCore
  /-- Tokens arrive in the vault from outside. -/
  | donate (amount : ℕ)

namespace Action

/-- The instructions that only run a handler on the market. -/
def handler : Action → Option (MarketM Unit)
  | createTraderSeat ctx i => some (Equinox.createTraderSeat ctx i)
  | closeTraderSeat ctx i => some (Equinox.closeTraderSeat ctx i)
  | placeOrderV3 ctx order => some (Equinox.placeOrderV3 ctx order)
  | cancelOrderV3 ctx i key nonce => some (Equinox.cancelOrderV3 ctx i key nonce)
  | cancelAllV3 ctx i max nonce => some (Equinox.cancelAllV3 ctx i max nonce)
  | replaceOrderV3 ctx key order => some (Equinox.replaceOrderV3 ctx key order)
  | updateFundingV3 ctx accumulator timestamp =>
    some (Equinox.updateFundingV3 ctx accumulator timestamp)
  | liquidateV3 ctx i max => some (Equinox.liquidateV3 ctx i max)
  | consumeOracleUpdateV3 ctx verified => some (Equinox.consumeOracleUpdateV3 ctx verified)
  | updateV3RiskConfig ctx config => some (Equinox.updateV3RiskConfig ctx config)
  | setV3Keeper ctx keeper => some (Equinox.setV3Keeper ctx keeper)
  | setV3PriceReporter ctx reporter => some (Equinox.setV3PriceReporter ctx reporter)
  | delegateV3Core ctx validator => some (Equinox.delegateV3Core ctx validator)
  | commitV3Bundle ctx sequence kind digests =>
    some (Equinox.commitV3Bundle ctx sequence kind digests)
  | commitV3Member ctx sequence kind child digest =>
    some (Equinox.commitV3Member ctx sequence kind child digest)
  | commitV3Core ctx sequence kind => some (Equinox.commitV3Core ctx sequence kind)
  | abortV3Snapshot ctx => some (Equinox.abortV3Snapshot ctx)
  | createV3TradingSession ctx i signer => some (Equinox.createV3TradingSession ctx i signer)
  | authorizeTradingSessionV3 ctx i signer policy =>
    some (Equinox.authorizeTradingSessionV3 ctx i signer policy)
  | revokeTradingSessionV3 ctx i signer => some (Equinox.revokeTradingSessionV3 ctx i signer)
  | updateTradingSessionV3 ctx i signer policy =>
    some (Equinox.updateTradingSessionV3 ctx i signer policy)
  | closeTradingSessionV3 ctx i signer => some (Equinox.closeTradingSessionV3 ctx i signer)
  | _ => none

def exec : Action → World → Except ProgramError World
  | depositCollateralV3 ctx i amount source, w => do
    let (_, w) ← w.onLive (Equinox.depositCollateralV3 ctx i amount source)
    pure { w with vault := w.vault + amount }
  | withdrawCollateralV3 ctx i amount, w => do
    let (_, w) ← w.onLive (Equinox.withdrawCollateralV3 ctx i amount w.vault)
    pure { w with vault := w.vault - amount }
  | requestWithdrawalV3 ctx i amount, w => do
    let (_, w) ← w.onLive (Equinox.requestWithdrawalV3 ctx i amount)
    pure (w.record .withdrawalRequested ctx.signer amount)
  | depositToInboxV3 ctx amount source, w => w.depositToInboxV3 ctx amount source
  | claimInboxDepositV3 ctx i trader seen, w => do
    require (seen ≤ w.receipts trader) (custom .invalidInstruction)
    let (amount, w) ← w.onLive (Equinox.claimInboxDepositV3 ctx i trader seen)
    pure (w.record .inboxCredited trader amount)
  | claimWithdrawalV3 ctx i, w => w.claimWithdrawalV3 ctx i
  | reconcileVaultV3 ctx, w => do
    let (_, w) ← w.onLive (Equinox.reconcileVaultV3 ctx w.vault)
    pure { w with l1 := ⟨w.live.core, w.live.seats⟩ }
  | rollbackV3Undelegation, w =>
    let core := w.l1.core.rolledBack
    pure { w with live := { w.live with core := core }, l1 := { w.l1 with core := core } }
  | writeBackShard shard, w =>
    pure { w with l1 := { w.l1 with seats := fun i =>
      if i / v3SeatsPerShard = shard then w.live.seats i else w.l1.seats i } }
  | writeBackCore, w => pure { w with l1 := { w.l1 with core := w.live.core } }
  | donate amount, w => pure { w with vault := w.vault + amount }
  | a, w => do
    let x ← okOr a.handler ProgramError.invalidInstructionData
    let (_, w) ← w.onLive x
    pure w

/-- An action is accepted and leads from one state to another. -/
def Accepted (a : Action) (w w' : World) : Prop := a.exec w = .ok w'

end Action

namespace World

def genesis : World :=
  let core := initializeV3RiskConfig { MarketCore.blank 1 2 with
    mode := 1, marketAuthority := 3, oracleFeedId := 4, oracleChannel := 1 }
  { live :=
      { core := core
        books := fun _ => PagedBookV3.fresh
        seats := fun _ => TraderSeat.empty
        events := fun _ _ => none
        sessions := fun _ => none }
    l1 := ⟨core, fun _ => TraderSeat.empty⟩
    vault := 0
    receipts := fun _ => 0
    payouts := fun _ => 0
    history := [] }

/-- A call at time zero, with an authenticated price of the listed market's feed. -/
def call (signer : Address) (price : I64) : Context where
  signer
  now := 0
  hasSession := false
  snapshot := some
    { version := OracleSnapshot.snapshotVersion
      initialized := true
      core := 1
      feedId := 4
      channel := 1
      exponent := 0
      price
      confidence := 0
      publishTimestamp := 0
      sequence := 1
      session := 0
      tradingStatus := OracleSnapshot.statusOpen
      authenticated := true
      revision := 1 }

def limitOrder (side : Side) (seatIndex quantity : ℕ) (price : I64) : PlaceOrderData where
  side := match side with
    | .bid => 0
    | .ask => 1
  tree := 0
  flags := 0
  seatIndex
  quantity
  priceOrOffset := price
  expiresAt := 100
  pegLimit := 0
  clientOrderId := 0
  actionNonce := 0

/-- Traders 7 and 8 take seats and deposit, and the market is delegated. -/
def fundRun (amount : ℕ) (price : I64) : List Action :=
  [.createTraderSeat (call 7 price) 0, .createTraderSeat (call 8 price) 1,
    .depositCollateralV3 (call 7 price) 0 amount amount,
    .depositCollateralV3 (call 8 price) 1 amount amount, .delegateV3Core (call 3 price) 9]

def tradeRun (amount quantity : ℕ) (price : I64) : List Action :=
  fundRun amount price ++ [.placeOrderV3 (call 7 price) (limitOrder .bid 0 quantity price),
    .placeOrderV3 (call 8 price) (limitOrder .ask 1 quantity price)]

theorem genesis_initial : genesis.Initial where
  core := ⟨1, 2, 3, 4, 1, 0, rfl⟩
  books _ := PagedBookV3.fresh_prepared
  seats _ := rfl
  l1 := rfl
  receipts _ := rfl
  payouts _ := rfl
  history := rfl

/-- Where a list of actions leads, up to the first that is refused. -/
def after (w : World) : List Action → World
  | [] => w
  | a :: as =>
    match a.exec w with
    | .ok w' => w'.after as
    | .error _ => w

/-- Every action of a list is accepted, in a state where `cond` holds. -/
def accepts (cond : Action → World → Prop) [∀ a w, Decidable (cond a w)] :
    World → List Action → Bool
  | _, [] => true
  | w, a :: as =>
    match a.exec w with
    | .ok w' => decide (cond a w) && w'.accepts cond as
    | .error _ => false

variable {as : List Action}

theorem run_of_accepts {cond : Action → World → Prop} [∀ a w, Decidable (cond a w)]
    (h : w.accepts cond as = true) :
    Run (fun a w w' => a.Accepted w w' ∧ cond a w) w as (w.after as) := by
  induction as generalizing w with
  | nil => exact .nil
  | cons a as ih =>
    simp only [accepts, after] at h ⊢
    split at h
    · rename_i w' hw
      simp only [Bool.and_eq_true, decide_eq_true_eq] at h
      exact .cons ⟨hw, h.1⟩ (ih h.2)
    · simp at h

/-- What a list of actions leaves noted, up to the first that is refused. -/
def noted {τ : Type} (note : Action → World → World → τ → τ) (w : World) (t : τ) : List Action → τ
  | [] => t
  | a :: as =>
    match a.exec w with
    | .ok w' => w'.noted note (note a w w' t) as
    | .error _ => t

theorem run_noted {τ : Type} {note : Action → World → World → τ → τ} {t : τ}
    {cond : Action → World → Prop} [∀ a w, Decidable (cond a w)] (h : w.accepts cond as = true) :
    Run (noting (fun a w w' => a.Accepted w w' ∧ cond a w) note) (w, t) as
      (w.after as, w.noted note t as) := by
  induction as generalizing w t with
  | nil => exact .nil
  | cons a as ih =>
    simp only [accepts, after, noted] at h ⊢
    split at h
    · rename_i w' hw
      simp only [Bool.and_eq_true, decide_eq_true_eq] at h ⊢
      exact .cons (t := (w', _)) ⟨⟨hw, h.1⟩, rfl⟩ (ih h.2)
    · simp at h

theorem accepted_of_accepts {a : Action}
    (h : w.accepts (fun _ _ => True) [a] = true) : a.Accepted w (w.after [a]) := by
  simp only [accepts, after] at h ⊢
  split at h
  · assumption
  · simp at h

theorem run_accepted (h : w.accepts (fun _ _ => True) as = true) :
    Run Action.Accepted w as (w.after as) := (run_of_accepts h).mono fun _ _ _ => And.left

theorem run_noted_accepted {τ : Type} {note : Action → World → World → τ → τ} {t : τ}
    (h : w.accepts (fun _ _ => True) as = true) :
    Run (noting Action.Accepted note) (w, t) as (w.after as, w.noted note t as) :=
  (run_noted h).mono fun _ _ _ ⟨hs, hn⟩ => ⟨hs.1, hn⟩

end World

end Equinox
