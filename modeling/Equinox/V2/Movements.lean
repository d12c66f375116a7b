import Equinox.V2.World
import Equinox.V2.Writes

/-! # Instructions as movements of the ledger

Every accepted action moves the ledger of the market in one way, which its data
and the state before it determine. Laws of the ledger are then laws of all runs.
-/

namespace Equinox.V2

open Foundation CritBit Ledger V2.Market

variable {m m' : Market} {ctx : Context} {i v amount : ℕ} {u : Unit}

/-! ## Handlers that move it -/

theorem transitionMarket_ledger {action : MarketTransitionAction}
    (h : transitionMarket ctx action m = .ok u m') :
    m'.ledger v = { m.ledger v with mode := action.mode } := by
  simp only [transitionMarket, run_rules, run_modifyHeader_bind, run_logEvent] at h
  obtain ⟨_, -, -, -, rfl⟩ := h
  rfl

theorem consumeOracleUpdate_ledger {verified : VerifiedOracle}
    (h : consumeOracleUpdate ctx verified m = .ok u m') :
    ∃ mode, feedMode verified.session = some mode ∧
      m'.ledger v = { m.ledger v with mode := mode } := by
  simp only [consumeOracleUpdate, run_rules, okOr_eq_ok, run_modifyHeader_bind] at h
  obtain ⟨-, _, -, -, mode, hm, h⟩ := h
  obtain ⟨⟨⟩, m₁, hf, hs⟩ := run_bind_eq_ok.1 h
  refine ⟨mode, hm, ?_⟩
  rw [ledger_kept hs, ledger_kept hf]
  rfl

theorem initializeMarketAccount_moves {authority : Address} {instrument : ℕ}
    (h : initializeMarketAccount authority instrument m = .ok u m') :
    Moves .create (m.ledger v) (m'.ledger v) := by
  simp only [initializeMarketAccount, run_rules, run_modify_eq_ok] at h
  obtain ⟨hn, rfl⟩ := h
  exact .create hn

theorem createPerpMarket_moves {instrument feedId channel : ℕ} {exponent : ℤ}
    (h : createPerpMarket ctx instrument feedId channel exponent m = .ok u m') :
    Moves .create (m.ledger v) (m'.ledger v) := by
  simp only [createPerpMarket, run_lift_bind, exists_require] at h
  obtain ⟨⟨⟩, m₁, hc, ho⟩ := run_bind_eq_ok.1 h.2
  have hk : m'.ledger v = m₁.ledger v := by
    simp only [configureMarketOracle, run_rules] at ho
    obtain ⟨-, _, -, hm⟩ := ho
    rw [← run_modify_eq_ok.1 hm]
    rfl
  rw [hk]
  exact initializeMarketAccount_moves hc

theorem configureVaultHeader_moves {mint : Mint} (h : configureVaultHeader ctx mint m = .ok u m') :
    Moves .configure (m.ledger v) (m'.ledger v) := by
  simp only [configureVaultHeader, run_rules, initializedHeader_eq_ok, run_modifyHeader_bind,
    run_logEvent] at h
  obtain ⟨-, _, ⟨-, -, rfl⟩, ⟨-, hn⟩, -, rfl⟩ := h
  exact .configure hn

/-! ### Seats and collateral -/

theorem createSeat_moves (h : createSeat ctx i m = .ok u m') :
    Moves (.clear i) (m.ledger v) (m'.ledger v) := by
  simp only [createSeat, run_rules, run_writeSeat_bind, run_logEvent] at h
  obtain ⟨_, -, hi, -, -, -, -, rfl⟩ := h
  change Moves _ _ (ledger v (m.withSeat i _))
  rw [ledger_withSeat]
  exact .clear hi

theorem closeSeat_moves (h : closeSeat ctx i m = .ok u m') :
    Moves (.clear i) (m.ledger v) (m'.ledger v) := by
  simp only [closeSeat, run_rules, seatAt_eq_ok, run_writeSeat_bind, run_logEvent] at h
  obtain ⟨_, -, _, ⟨hi, rfl⟩, -, -, -, -, rfl⟩ := h
  change Moves _ _ (ledger v (m.withSeat i _))
  rw [ledger_withSeat]
  exact .clear hi

variable {accounts : CustodyAccounts}

theorem depositCollateral_moves {source : TokenAccount}
    (h : depositCollateral ctx accounts source i amount m = .ok u m') :
    Moves (.deposit i amount) (m.ledger v) (m'.ledger (v + amount)) := by
  simp only [depositCollateral, run_rules, seatAt_eq_ok, exists_checkedI128, run_writeSeat_bind,
    run_logEvent] at h
  obtain ⟨-, _, -, ⟨⟩, -, _, ⟨hi, rfl⟩, -, -, -, -, -, -, rfl⟩ := h
  change Moves _ _ (ledger (v + amount) (m.withSeat i _))
  rw [ledger_withSeat]
  exact .deposit hi

theorem withdrawCollateral_moves {destination : TokenAccount}
    (h : withdrawCollateral ctx accounts destination i amount m = .ok u m') :
    Moves (.withdraw i amount) (m.ledger accounts.vault.amount)
      (m'.ledger (accounts.vault.amount - amount)) := by
  simp only [withdrawCollateral, run_rules, seatAt_eq_ok, mapError_eq_ok, run_writeSeat_bind,
    run_logEvent] at h
  obtain ⟨-, _, -, -, -, ⟨⟩, -, _, ⟨hi, rfl⟩, -, seat, hs, -, hv, -, -, -, rfl⟩ := h
  obtain ⟨-, hle, payment, rfl⟩ := Risk.prepareWithdrawal_eq_ok hs
  change Moves _ _ (ledger (accounts.vault.amount - amount) (m.withSeat i _))
  rw [ledger_withSeat]
  exact .withdraw hi hle hv

/-! ### Ledgers -/

theorem transferToInsuranceFund_moves (h : transferToInsuranceFund ctx amount m = .ok u m') :
    Moves (.insure amount) (m.ledger v) (m'.ledger v) := by
  simp only [transferToInsuranceFund, run_rules, initializedHeader_eq_ok, exists_checkedU64,
    run_modifyHeader_bind, run_logEvent] at h
  obtain ⟨-, _, ⟨-, -, rfl⟩, -, hle, -, -, rfl⟩ := h
  exact .insure hle

def payMovement (fromInsurance : Bool) (amount : ℕ) : Movement :=
  if fromInsurance then .payInsurance amount else .payFees amount

theorem withdrawLedgerBalance_moves {destination : TokenAccount}
    {fromInsurance : Bool}
    (h : withdrawLedgerBalance ctx accounts destination amount fromInsurance m = .ok u m') :
    Moves (payMovement fromInsurance amount) (m.ledger accounts.vault.amount)
      (m'.ledger (accounts.vault.amount - amount)) := by
  simp only [withdrawLedgerBalance, run_rules, initializedHeader_eq_ok, run_modifyHeader_bind,
    run_logEvent] at h
  obtain ⟨-, _, ⟨-, -, rfl⟩, -, ⟨⟩, -, -, hle, ⟨hv, -⟩, -, rfl⟩ := h
  cases fromInsurance with
  | false => exact .payFees hle hv
  | true => exact .payInsurance hle hv

theorem recordBadDebt_moves (h : recordBadDebt ctx i amount m = .ok u m') :
    Moves (.recognize amount) (m.ledger v) (m'.ledger v) := by
  simp only [recordBadDebt, run_rules, initializedHeader_eq_ok, seatAt_eq_ok, exists_checkedI128,
    exists_checkedU64, run_modifyHeader_bind, run_writeSeat_bind, run_logEvent] at h
  obtain ⟨-, _, ⟨-, -, rfl⟩, -, -, _, ⟨-, rfl⟩, _, -, -, -, -, -, -, rfl⟩ := h
  change Moves _ _ (ledger v (withSeat _ i _))
  rw [ledger_withSeat_of_eq]
  · exact .recognize amount
  · rfl

theorem resolveBadDebt_moves (h : resolveBadDebt ctx amount m = .ok u m') :
    Moves (.resolve amount) (m.ledger v) (m'.ledger v) := by
  simp only [resolveBadDebt, run_rules, initializedHeader_eq_ok, run_modifyHeader_bind,
    run_logEvent] at h
  obtain ⟨-, _, ⟨-, -, rfl⟩, -, ⟨hd, hle⟩, -, rfl⟩ := h
  exact .resolve hd hle

theorem totalTraderCollateral_eq_ok {total : ℤ} (h : totalTraderCollateral m = .ok total) :
    total = (m.ledger v).totalCollateral := by
  have hsum := (foldlM_sum (P := fun _ => True) (g := fun x : ℤ => x)
    (d := fun j => (m.seats j).availableCollateral)
    (fun j _ x y _ hy => ⟨trivial, (checkedI128_eq_ok.1 hy).2.symm⟩) trivial h).2
  rw [hsum, zero_add]
  rfl

theorem expectedBalance_eq_ok {expected : ℤ} (h : expectedBalance m = .ok expected) :
    expected = (m.ledger v).expected := by
  simp only [expectedBalance, bind_eq_ok, exists_checkedI128] at h
  obtain ⟨total, ht, -, -, h⟩ := h
  obtain rfl := totalTraderCollateral_eq_ok (v := v) ht
  exact (checkedI128_eq_ok.1 h).2.symm

theorem reconciledHeader_ledger {updated : MarketStateHeader} {kind : EventKind}
    (h : reconciledHeader m.header v (m.ledger v).expected = .ok (updated, kind)) :
    ledger v { m with header := updated } = (m.ledger v).reconciled := by
  unfold reconciledHeader at h
  split at h
  · rename_i heq
    obtain ⟨rfl, rfl⟩ := Prod.mk.inj (pure_eq_ok.1 h)
    exact (if_pos heq).symm
  · rename_i heq
    split at h
    · rename_i hlt
      simp only [ok_rules, exists_checkedU64, Prod.mk.injEq] at h
      obtain ⟨-, rfl, rfl⟩ := h
      exact ((if_neg heq).trans (if_pos hlt)).symm
    · rename_i hlt
      obtain ⟨rfl, rfl⟩ := Prod.mk.inj (pure_eq_ok.1 h)
      exact ((if_neg heq).trans (if_neg hlt)).symm

theorem reconcileVault_moves
    (h : reconcileVault ctx accounts m = .ok u m') :
    Moves .reconcile (m.ledger accounts.vault.amount) (m'.ledger accounts.vault.amount) := by
  simp only [reconcileVault, run_rules, initializedHeader_eq_ok, run_modifyHeader_bind,
    run_logEvent] at h
  obtain ⟨_, ⟨-, -, rfl⟩, ⟨⟩, -, expected, he, ⟨updated, kind⟩, hu, -, rfl⟩ := h
  obtain rfl := expectedBalance_eq_ok (v := accounts.vault.amount) he
  change Moves _ _ (ledger accounts.vault.amount { m with header := updated })
  rw [reconciledHeader_ledger hu]
  exact .reconcile

/-! ## Actions -/

def World.ledger (w : World) : Ledger := w.market.ledger w.vault.amount

def Action.movement (w : World) : Action → Movement
  | initializeMarket _ | createPerpMarket _ _ _ _ _ => .create
  | initializeVault _ _ => .configure
  | createSeat _ i | closeSeat _ i => .clear i
  | depositCollateral _ _ _ _ i amount => .deposit i amount
  | withdrawCollateral _ _ _ _ i amount => .withdraw i amount
  | transferToInsuranceFund _ amount => .insure amount
  | withdrawProtocolFees _ _ _ _ amount => .payFees amount
  | withdrawInsuranceFunds _ _ _ _ amount => .payInsurance amount
  | recordBadDebt _ _ amount => .recognize amount
  | resolveBadDebt _ amount => .resolve amount
  | reconcileVault _ _ _ => .reconcile
  | placeOrder _ order => .charge (orderFees w.market order)
  | replaceOrder _ key order => .charge (replacementFees w.market key order)
  | liquidate _ i max => .charge (liquidationFee w.market i max)
  | consumeOracleUpdate _ verified => (feedMode verified.session).elim .idle .setMode
  | transitionMarket _ action => .setMode action.mode
  | donate amount => .receive amount
  | _ => .idle

/-- Every accepted action is a movement of the ledger. -/
theorem Action.Accepted.moves {a : Action} {w w' : World} (h : a.Accepted w w') :
    Moves (a.movement w) w.ledger w'.ledger := by
  obtain ⟨m, hm, rfl⟩ := accepted_iff.1 h
  have hi (hk : m.ledger w.vault.amount = w.market.ledger w.vault.amount) :
      Moves .idle w.ledger (m.ledger w.vault.amount) := by
    rw [hk]
    exact .idle
  cases a with
  | initializeMarket ctx => exact initializeMarketAccount_moves hm
  | createPerpMarket ctx instrument feedId channel exponent => exact createPerpMarket_moves hm
  | initializeVault ctx mint => exact configureVaultHeader_moves hm
  | createSeat ctx i => exact createSeat_moves hm
  | closeSeat ctx i => exact closeSeat_moves hm
  | depositCollateral ctx mint program source i amount => exact depositCollateral_moves hm
  | withdrawCollateral ctx mint program destination i amount => exact withdrawCollateral_moves hm
  | transferToInsuranceFund ctx amount => exact transferToInsuranceFund_moves hm
  | withdrawProtocolFees ctx mint program destination amount => exact withdrawLedgerBalance_moves hm
  | withdrawInsuranceFunds ctx mint program destination amount =>
    exact withdrawLedgerBalance_moves hm
  | recordBadDebt ctx i amount => exact recordBadDebt_moves hm
  | resolveBadDebt ctx amount => exact resolveBadDebt_moves hm
  | reconcileVault ctx mint program => exact reconcileVault_moves hm
  | placeOrder ctx order =>
    change Moves _ _ (m.ledger w.vault.amount)
    rw [placeOrder_ledger hm]
    exact .charge _
  | replaceOrder ctx key order =>
    change Moves _ _ (m.ledger w.vault.amount)
    rw [replaceOrder_ledger hm]
    exact .charge _
  | liquidate ctx i max =>
    change Moves _ _ (m.ledger w.vault.amount)
    rw [liquidate_ledger hm]
    exact .charge _
  | consumeOracleUpdate ctx verified =>
    obtain ⟨mode, hmo, hl⟩ := consumeOracleUpdate_ledger (v := w.vault.amount) hm
    change Moves _ _ (m.ledger w.vault.amount)
    rw [hl, Action.movement, hmo]
    exact .setMode mode
  | transitionMarket ctx action =>
    change Moves _ _ (m.ledger w.vault.amount)
    rw [transitionMarket_ledger hm]
    exact .setMode _
  | donate amount =>
    obtain ⟨-, rfl⟩ := run_pure_eq_ok.1 hm
    exact .receive amount
  | cancelOrder ctx i key nonce => exact hi ((keeps_cancelOrder i key nonce).of_ok hm)
  | cancelAll ctx i max nonce => exact hi (cancelAll_ledger hm)
  | initializeSettlementScratch | updateFunding | updateMarketRisk | authorizeTradingSession
  | revokeTradingSession | updateTradingSessionLimits | closeTradingSession | delegateMarket
  | commitMarket | commitAndUndelegateMarket | undelegateCallback =>
    refine hi ((?_ : Keeps (ledger w.vault.amount) _).of_ok hm)
    simp only [handler, V2.initializeSettlementScratch, V2.updateFunding, V2.updateMarketRisk,
      V2.authorizeTradingSession, V2.revokeTradingSession, V2.updateTradingSessionLimits,
      V2.closeTradingSession, V2.delegateMarket, commitMarketInner, V2.undelegateCallback]
    repeat' first
      | intro _ | exact keeps_modifyHeader fun _ => rfl | exact .modify fun _ => rfl
      | infer_instance | apply Leads.andThen | split

end Equinox.V2
