import Equinox.Market.Frames
import Equinox.Market.Prepared
import Equinox.Market.Snapshots

/-! # What an open snapshot freezes

What the core holds of a snapshot is changed by the calls of the snapshot
protocol only. The handlers that trade, liquidate, fund, move collateral on L1
or control a session are refused while a snapshot is open.
-/

namespace Equinox

open Foundation CritBit Market MarketCore

variable {w w' : World} {m m' : Market} {ctx : Context} {u : Unit} {a : Action}

/-! ## Frames -/

/-- The core without what orders, custody, prices and governance write. -/
def Market.lasting (m : Market) : MarketCore :=
  { m.core with
    mode := 0
    globalOrderSequence := 0
    globalEventSequence := 0
    fundingAccumulator := 0
    lastFundingTimestamp := 0
    oracleValid := false
    oraclePrice := 0
    oracleTimestamp := 0
    oracleSession := 0
    oracleConfidence := 0
    config := V3RiskConfig.defaults
    riskConfigVersion := 0
    currentOpenInterest := 0
    protocolFeeBalance := 0
    insuranceBalance := 0
    badDebt := 0
    vaultLiability := 0
    keeper := 0
    priceReporter := 0 }

instance Market.untraded_lasting : Untraded lasting := by
  constructor <;> intros <;> rfl

instance Market.unspent_lasting : Unspent lasting := ⟨fun _ _ => rfl⟩

theorem keeps_modifyCore {f : MarketCore → MarketCore}
    (h : ∀ m : Market, lasting { m with core := f m.core } = m.lasting) :
    Keeps lasting (modifyCore f) := .modify h

instance keeps_writeSession (key : SessionKey) (session : Option TradingSession) :
    Keeps lasting (writeSession key session) := .modify fun _ => rfl

theorem Market.Logged.lasting_eq (h : m.Logged m') : m'.lasting = m.lasting := by
  obtain ⟨sequence, hc⟩ := h.core
  simp only [lasting, hc]

theorem Action.Trades.lasting_eq (h : a.Trades m m') : m'.lasting = m.lasting := by
  cases h with
  | placed h | cancelled h | cancelledAll h | replaced h => exact kept_of_ok lasting h

/-- The instructions that move the core between L1 and the rollup. -/
def Action.isMove : Action → Bool
  | delegateV3Core .. | reconcileVaultV3 .. | rollbackV3Undelegation => true
  | _ => false

theorem Action.Accepted.lasting_of_upkeep (h : a.Accepted w w') (hup : a.isUpkeep = true)
    (ha : a.isCommit = false) (hmo : a.isMove = false) : w'.live.lasting = w.live.lasting := by
  cases a <;>
    simp only [isUpkeep, isCommit, isMove, Bool.false_eq_true, reduceCtorEq] at hup ha hmo <;>
    obtain ⟨m, hm, rfl⟩ := h.of_handler rfl <;>
    refine (?_ : Keeps lasting _).of_ok hm <;>
    simp only [Equinox.updateFundingV3, Equinox.consumeOracleUpdateV3, Equinox.setV3Keeper,
      Equinox.setV3PriceReporter, setCoreKey, Equinox.createV3TradingSession,
      Equinox.authorizeTradingSessionV3, Equinox.revokeTradingSessionV3,
      Equinox.updateTradingSessionV3, Equinox.closeTradingSessionV3]
  all_goals
    repeat' first
      | intro _ | exact keeps_modifyCore fun _ => rfl | infer_instance | apply Leads.andThen

theorem reconcileVaultV3_idle {vault : ℕ} (h : reconcileVaultV3 ctx vault m = .ok u m') :
    m.core.commitPhase ≠ .snapshot ∧ m'.core.commitPhase = .idle := by
  simp only [reconcileVaultV3, run_rules, exists_checkedI128, exists_checkedU64,
    run_modifyCore_bind] at h
  obtain ⟨⟨⟩, -, ho, -, -, -, -, -, h⟩ := h
  obtain ⟨-, -, rfl⟩ := appendEventRecord_eq_ok.1 h
  have hp : m.core.isReturned = true → m.core.commitPhase = .undelegating := by
    simp [isReturned]
  rcases ho with hr | ⟨-, hi⟩
  · simp [appended, hr, hp hr]
  · simp [appended, hi]

theorem Action.Accepted.idle_of_reconcile
    (h : (Action.reconcileVaultV3 ctx).Accepted w w') :
    w.live.core.commitPhase ≠ .snapshot ∧ w'.live.core.commitPhase = .idle := by
  obtain ⟨m, hm, rfl⟩ := h.of_reconcile
  exact reconcileVaultV3_idle hm

theorem Action.Accepted.lasting_eq (h : a.Accepted w w') (ha : a.isCommit = false)
    (hm : a.isMove = false) : w'.live.lasting = w.live.lasting := by
  by_cases hup : a.isUpkeep = true
  · exact h.lasting_of_upkeep hup ha hm
  cases h.step with
  | opened _ _ _ logged => exact logged.lasting_eq
  | closed _ _ logged => exact logged.lasting_eq
  | deposited _ _ logged => exact logged.lasting_eq
  | withdrawn _ debited => exact debited.logged.lasting_eq
  | requested _ _ debited => exact debited.logged.lasting_eq
  | credited _ _ _ _ _ logged => exact logged.lasting_eq
  | traded trades => exact trades.lasting_eq
  | liquidated _ liquidated =>
    obtain ⟨_, logged⟩ := liquidated.result
    exact logged.lasting_eq
  | kept upkeep _ => exact absurd upkeep hup
  | reconciled _ | rolledBack => cases hm
  | inboxed | paid | configured | copiedShard | copiedCore | donated => rfl

def MarketCore.snapshot (core : MarketCore) : CommitPhase × ℕ × (ℕ → ChildRecord) :=
  (core.commitPhase, core.snapshotEpoch, core.childRecords)

theorem Action.Accepted.delegates {validator : Address}
    (h : (Action.delegateV3Core ctx validator).Accepted w w') :
    w.live.core.initialized = true ∧ (∃ config, readV3RiskConfig w.live.core = .ok config) ∧
      ∃ next, w'.live.core = { w.live.core with
        delegationStatus := .delegated, validator := validator
        expectedCommitSequence := next } := by
  obtain ⟨m, hm, rfl⟩ := h.of_handler rfl
  simp only [Equinox.delegateV3Core, run_rules, exists_checkedU64, run_modifyCore] at hm
  obtain ⟨-, ⟨hi, -⟩, -, config, hc, -, rfl⟩ := hm
  exact ⟨hi, ⟨config, hc⟩, _, rfl⟩

/-- A move of the core leaves no snapshot open, and else only a commit or an abort changes what
the core holds of a snapshot. -/
theorem Action.Accepted.snapshot_eq (h : a.Accepted w w') (ha : a.isCommit = false)
    (hp : w'.live.core.commitPhase = .snapshot) : w'.live.core.snapshot = w.live.core.snapshot := by
  cases hm : a.isMove with
  | false =>
    have hl := congrArg snapshot (h.lasting_eq ha hm)
    exact hl
  | true =>
    cases a with
    | delegateV3Core =>
      obtain ⟨-, -, _, hc⟩ := h.delegates
      rw [hc]
      rfl
    | reconcileVaultV3 =>
      rw [h.idle_of_reconcile.2] at hp
      cases hp
    | rollbackV3Undelegation =>
      obtain rfl := pure_eq_ok.1 h
      simp [rolledBack, blank] at hp
    | _ => cases hm

/-! ## Who may act in a snapshot -/

variable {i nonce actions : ℕ} {key : Key} {order : PlaceOrderData} {consume : Bool}

/-- The instructions that are refused while a snapshot is open. -/
def Action.isFrozen : Action → Bool
  | createTraderSeat .. | closeTraderSeat .. | depositCollateralV3 .. | withdrawCollateralV3 ..
  | placeOrderV3 .. | cancelOrderV3 .. | cancelAllV3 .. | replaceOrderV3 .. | liquidateV3 ..
  | updateFundingV3 .. | commitV3Bundle .. | authorizeTradingSessionV3 ..
  | revokeTradingSessionV3 .. | updateTradingSessionV3 .. | closeTradingSessionV3 .. => true
  | _ => false

theorem placeOrderV3WithAction_idle
    (h : placeOrderV3WithAction ctx order actions consume m = .ok u m') :
    m.core.commitPhase = .idle := by
  obtain ⟨prepared, _, _, _, _, _, hp, -⟩ := placeOrderV3WithAction_eq_ok h
  obtain ⟨_, _, hpr⟩ := prepareOrder_eq_ok hp
  obtain ⟨_, _, -, -, ha⟩ := hpr.admitted
  simp only [authorizeOrder, ok_rules] at ha
  exact (validateV3TradeAccounts_eq_ok ha.2).2.2.2

theorem cancelOrderV3WithAction_idle
    (h : cancelOrderV3WithAction ctx i key nonce actions consume m = .ok u m') :
    m.core.commitPhase = .idle := by
  simp only [cancelOrderV3WithAction, run_rules] at h
  obtain ⟨_, -, _, ha, -⟩ := h
  exact (validateV3TradeAccounts_eq_ok ha).2.2.2

theorem Action.Accepted.idle (h : a.Accepted w w') (ha : a.isFrozen = true) :
    w.live.core.commitPhase = .idle := by
  cases a <;> simp only [isFrozen, Bool.false_eq_true] at ha
  case depositCollateralV3 =>
    simp only [Accepted, exec, Equinox.depositCollateralV3, ok_rules, Prod.exists,
      World.onLive_eq_ok, run_rules] at h
    obtain ⟨_, _, ⟨_, ⟨-, -, _, -, _, -, ⟨-, -, hi⟩, -⟩, -⟩, -⟩ := h
    exact hi
  case withdrawCollateralV3 =>
    simp only [Accepted, exec, Equinox.withdrawCollateralV3, validateV3WithdrawalReadiness,
      ok_rules, Prod.exists, World.onLive_eq_ok, run_rules] at h
    obtain ⟨_, _, ⟨_, ⟨-, _, ⟨_, hb, -⟩, -⟩, -⟩, -⟩ := h
    exact (validateExecutionBundle_eq_ok hb).2.2.2
  all_goals obtain ⟨m, hm, -⟩ := h.of_handler rfl
  case createTraderSeat | closeTraderSeat =>
    simp only [Equinox.createTraderSeat, Equinox.closeTraderSeat, validateSeatCore,
      validateActiveCore, run_rules] at hm
    exact hm.1.2.2.2
  case placeOrderV3 => exact placeOrderV3WithAction_idle hm
  case cancelOrderV3 => exact cancelOrderV3WithAction_idle hm
  case cancelAllV3 =>
    simp only [Equinox.cancelAllV3, run_rules] at hm
    obtain ⟨-, _, -, _, ha, -⟩ := hm
    exact (validateV3TradeAccounts_eq_ok ha).2.2.2
  case replaceOrderV3 =>
    simp only [Equinox.replaceOrderV3, run_rules] at hm
    obtain ⟨-, _, -, hm⟩ := hm
    split at hm
    · obtain ⟨⟨⟩, m₁, hc, -⟩ := run_bind_eq_ok.1 hm
      exact cancelOrderV3WithAction_idle hc
    · simp only [run_lift_bind, exists_require] at hm
      obtain ⟨⟨⟩, m₁, hc, -⟩ := run_bind_eq_ok.1 hm.2
      exact cancelOrderV3WithAction_idle hc
  case liquidateV3 =>
    simp only [Equinox.liquidateV3, run_rules] at hm
    obtain ⟨-, _, hb, -⟩ := hm
    exact (validateExecutionBundle_eq_ok hb).2.2.2
  case commitV3Bundle => exact (commitV3Bundle_bundled hm).idle
  case updateFundingV3 | authorizeTradingSessionV3 =>
    simp only [Equinox.updateFundingV3, Equinox.authorizeTradingSessionV3, run_rules] at hm
    obtain ⟨_, hb, -⟩ := hm
    exact (validateExecutionBundle_eq_ok hb).2.2.2
  -- The owner's control of a session begins with the check of the bundle as well.
  all_goals
    simp only [Equinox.revokeTradingSessionV3, Equinox.updateTradingSessionV3,
      Equinox.closeTradingSessionV3, validateV3SessionControl, run_rules, bind_eq_ok] at hm
    obtain ⟨_, ⟨_, hb, -⟩, -⟩ := hm
    exact (validateExecutionBundle_eq_ok hb).2.2.2

end Equinox
