import Equinox.V2.Upkeep

/-! # Runs of a V2 market

A market and its vault. A run is any sequence of accepted instructions, of
arrivals of tokens from outside, and of returns from the rollup. The token
program moves exactly the amount of a transfer.
-/

namespace Equinox.V2

open Foundation CritBit

structure World where
  market : Market
  vault : TokenAccount

/-- Every V2 instruction on one market, and what its surroundings do. The custody instructions
come with the mint and the token program that the caller names. -/
inductive Action where
  | initializeMarket (ctx : Context)
  | createPerpMarket (ctx : Context) (instrumentId feedId channel : ℕ) (priceExponent : ℤ)
  | initializeVault (ctx : Context) (mint : Mint)
  | createSeat (ctx : Context) (index : ℕ)
  | closeSeat (ctx : Context) (index : ℕ)
  | initializeSettlementScratch (ctx : Context) (seatIndex : ℕ)
  | depositCollateral (ctx : Context) (mint : Mint) (tokenProgram : Address)
      (source : TokenAccount) (seatIndex amount : ℕ)
  | withdrawCollateral (ctx : Context) (mint : Mint) (tokenProgram : Address)
      (destination : TokenAccount) (seatIndex amount : ℕ)
  | transferToInsuranceFund (ctx : Context) (amount : ℕ)
  | withdrawProtocolFees (ctx : Context) (mint : Mint) (tokenProgram : Address)
      (destination : TokenAccount) (amount : ℕ)
  | withdrawInsuranceFunds (ctx : Context) (mint : Mint) (tokenProgram : Address)
      (destination : TokenAccount) (amount : ℕ)
  | recordBadDebt (ctx : Context) (seatIndex amount : ℕ)
  | resolveBadDebt (ctx : Context) (amount : ℕ)
  | reconcileVault (ctx : Context) (mint : Mint) (tokenProgram : Address)
  | placeOrder (ctx : Context) (order : PlaceOrderData)
  | replaceOrder (ctx : Context) (oldOrderKey : Key) (order : PlaceOrderData)
  | cancelOrder (ctx : Context) (seatIndex : ℕ) (orderKey : Key) (actionNonce : ℕ)
  | cancelAll (ctx : Context) (seatIndex max actionNonce : ℕ)
  | updateFunding (ctx : Context) (accumulator : ℤ) (timestamp : ℕ)
  | liquidate (ctx : Context) (seatIndex maxQuantity : ℕ)
  | consumeOracleUpdate (ctx : Context) (verified : VerifiedOracle)
  | transitionMarket (ctx : Context) (action : MarketTransitionAction)
  | updateMarketRisk (ctx : Context) (initial maintenance leverage : ℕ)
  | authorizeTradingSession (ctx : Context) (seatIndex : ℕ) (sessionSigner : Address)
      (policy : SessionPolicy)
  | revokeTradingSession (ctx : Context) (seatIndex : ℕ) (sessionSigner : Address)
  | updateTradingSessionLimits (ctx : Context) (seatIndex : ℕ) (sessionSigner : Address)
      (policy : SessionPolicy)
  | closeTradingSession (ctx : Context) (seatIndex : ℕ) (sessionSigner : Address)
  | delegateMarket (ctx : Context) (validator : Address) (memberCount : ℕ) (bufferReady : Bool)
  | commitMarket (ctx : Context) (sequence : ℕ)
  | commitAndUndelegateMarket (ctx : Context) (sequence : ℕ)
  | undelegateCallback (ctx : Context)
  /-- Tokens arrive in the vault from outside. -/
  | donate (amount : ℕ)

namespace Action

def handler (vault : TokenAccount) : Action → MarketM Unit
  | initializeMarket ctx => initializeMarketAccount ctx.signer 0
  | createPerpMarket ctx id feedId channel exponent =>
    V2.createPerpMarket ctx id feedId channel exponent
  | initializeVault ctx mint => configureVaultHeader ctx mint
  | createSeat ctx i => V2.createSeat ctx i
  | closeSeat ctx i => V2.closeSeat ctx i
  | initializeSettlementScratch ctx i => V2.initializeSettlementScratch ctx i
  | depositCollateral ctx mint program source i amount =>
    V2.depositCollateral ctx ⟨mint, program, vault⟩ source i amount
  | withdrawCollateral ctx mint program destination i amount =>
    V2.withdrawCollateral ctx ⟨mint, program, vault⟩ destination i amount
  | transferToInsuranceFund ctx amount => V2.transferToInsuranceFund ctx amount
  | withdrawProtocolFees ctx mint program destination amount =>
    withdrawLedgerBalance ctx ⟨mint, program, vault⟩ destination amount false
  | withdrawInsuranceFunds ctx mint program destination amount =>
    withdrawLedgerBalance ctx ⟨mint, program, vault⟩ destination amount true
  | recordBadDebt ctx i amount => V2.recordBadDebt ctx i amount
  | resolveBadDebt ctx amount => V2.resolveBadDebt ctx amount
  | reconcileVault ctx mint program => V2.reconcileVault ctx ⟨mint, program, vault⟩
  | placeOrder ctx order => V2.placeOrder ctx order
  | replaceOrder ctx key order => V2.replaceOrder ctx key order
  | cancelOrder ctx i key nonce => V2.cancelOrder ctx i key nonce
  | cancelAll ctx i max nonce => V2.cancelAll ctx i max nonce
  | updateFunding ctx accumulator timestamp => V2.updateFunding ctx accumulator timestamp
  | liquidate ctx i max => V2.liquidate ctx i max
  | consumeOracleUpdate ctx verified => V2.consumeOracleUpdate ctx verified
  | transitionMarket ctx action => V2.transitionMarket ctx action
  | updateMarketRisk ctx initial maintenance leverage =>
    V2.updateMarketRisk ctx initial maintenance leverage
  | authorizeTradingSession ctx i signer policy => V2.authorizeTradingSession ctx i signer policy
  | revokeTradingSession ctx i signer => V2.revokeTradingSession ctx i signer
  | updateTradingSessionLimits ctx i signer policy =>
    V2.updateTradingSessionLimits ctx i signer policy
  | closeTradingSession ctx i signer => V2.closeTradingSession ctx i signer
  | delegateMarket ctx validator count ready => V2.delegateMarket ctx validator count ready
  | commitMarket ctx sequence => commitMarketInner ctx sequence .commitOnly
  | commitAndUndelegateMarket ctx sequence => commitMarketInner ctx sequence .commitAndUndelegate
  | undelegateCallback ctx => V2.undelegateCallback ctx
  | donate _ => pure ()

/-- The tokens an accepted action brings into the vault. -/
def paidIn : Action → ℕ
  | depositCollateral _ _ _ _ _ amount | donate amount => amount
  | _ => 0

/-- The tokens an accepted action takes out of the vault. -/
def paidOut : Action → ℕ
  | withdrawCollateral _ _ _ _ _ amount | withdrawProtocolFees _ _ _ _ amount
  | withdrawInsuranceFunds _ _ _ _ amount => amount
  | _ => 0

/-- The runtime keeps nothing of an action that fails. -/
def exec (a : Action) (w : World) : Except ProgramError World :=
  match a.handler w.vault w.market with
  | .ok _ m => .ok ⟨m, { w.vault with amount := w.vault.amount + a.paidIn - a.paidOut }⟩
  | .error e _ => .error e

/-- An action is accepted and leads from one state to another. -/
def Accepted (a : Action) (w w' : World) : Prop := a.exec w = .ok w'

theorem accepted_iff {a : Action} {w w' : World} :
    a.Accepted w w' ↔ ∃ m, a.handler w.vault w.market = .ok () m ∧
      w' = ⟨m, { w.vault with amount := w.vault.amount + a.paidIn - a.paidOut }⟩ := by
  unfold Accepted exec
  cases h : a.handler w.vault w.market with
  | ok u m =>
    constructor
    · rintro ⟨⟩
      exact ⟨m, rfl, rfl⟩
    · rintro ⟨_, ⟨⟩, rfl⟩
      rfl
  | error e m => simp

def tryExec (a : Action) (w : World) : Option World := (a.exec w).toOption

theorem accepted_of_tryExec {a : Action} {w w' : World} (h : a.tryExec w = some w') :
    a.Accepted w w' := by
  unfold tryExec at h
  unfold Accepted
  cases he : a.exec w with
  | ok v =>
    rw [he] at h
    exact congrArg Except.ok (Option.some.inj h)
  | error e =>
    rw [he] at h
    cases h

end Action

/-- The accounts before the market is created. The vault is owned by the derived authority. -/
def World.blank : World where
  market :=
    { address := 1
      vaultAuthority := 2
      header := .empty
      arenas := fun _ => Arena.new
      seats := fun _ => .empty
      fillEvents := fun _ => none
      scratches := fun _ => none
      sessions := fun _ => none
      log := [] }
  vault := { mint := 4, owner := 2, amount := 0 }

end Equinox.V2
