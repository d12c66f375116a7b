import Equinox.Foundation.Run
import Equinox.V2.Movements

/-! # False alarms

A vault in use, followed from its initialization. Reconciliation compares it
with the collateral, the fees and the insurance less the recognized bad debt. A
fee is added to that sum when it is charged, while the seat that owes it pays
with its profit, which is no part of the sum. So the vault covers the sum, and
reconciliation stays silent, if and only if each fee is no larger than the
surplus that happens to lie in the vault.
-/

namespace Equinox.V2

open Foundation Finset V2.World

variable {a : Action} {w w' : World}

def World.expectedVaultLiability (w : World) : ℤ :=
  ∑ i ∈ range maxTraderSeats, (w.market.seats i).availableCollateral +
    w.market.header.protocolFeeBalance + w.market.header.insuranceFundBalance -
    w.market.header.recognizedBadDebt

def World.surplus (w : World) : ℤ := w.vault.amount - w.expectedVaultLiability

theorem World.ledger_surplus : w.ledger.surplus = w.surplus := rfl

/-- The vault has just been initialized, and nobody has deposited. -/
def World.FreshVault (w : World) : Prop :=
  (∀ i, (w.market.seats i).availableCollateral = 0) ∧
    ∃ w₀ ctx mint, (Action.initializeVault ctx mint).Accepted w₀ w

/-- The vault covers what is expected of it, and withdrawals are not blocked. -/
def World.Honest (w : World) : Prop :=
  w.expectedVaultLiability ≤ w.vault.amount ∧
    w.market.header.withdrawalsBlockedByReconciliation = false

instance (w : World) : Decidable w.Honest := inferInstanceAs (Decidable (_ ∧ _))

theorem World.Honest.surplus_nonneg (h : w.Honest) : 0 ≤ w.ledger.surplus := by
  rw [ledger_surplus, surplus, sub_nonneg]
  exact h.1

namespace Action

/-- The fees that an action charges if it is accepted: those of the makers an order meets in the
book, or the one on the part of a position that is liquidated. -/
def feeCharged (w : World) : Action → ℕ
  | placeOrder _ order => orderFees w.market order
  | replaceOrder _ key order => replacementFees w.market key order
  | liquidate _ i max => liquidationFee w.market i max
  | _ => 0

def isReconciliation : Action → Bool
  | reconcileVault _ _ _ => true
  | _ => false

theorem movement_fee (w : World) (a : Action) : (a.movement w).fee = a.feeCharged w := by
  cases a with
  | consumeOracleUpdate ctx verified =>
    change ((feedMode verified.session).elim Movement.idle Movement.setMode).fee = 0
    cases feedMode verified.session <;> rfl
  | _ => rfl

end Action

structure VaultLog where
  /-- Every fee so far was covered by the surplus before it was charged. -/
  covered : Bool
  /-- Every state so far was honest, and no reconciliation changed the mode. -/
  silent : Bool

def VaultLog.empty : VaultLog := ⟨true, true⟩

def Action.noteVault (a : Action) (w w' : World) (log : VaultLog) : VaultLog where
  covered := log.covered && decide ((a.feeCharged w : ℤ) ≤ w.surplus)
  silent := log.silent && decide w'.Honest &&
    (!a.isReconciliation || decide (w'.market.header.mode = w.market.header.mode))

theorem configureVaultHeader_header {ctx : Context} {mint : Mint} {m m' : Market} {u : Unit}
    (h : configureVaultHeader ctx mint m = .ok u m') :
    m'.header.initialized = true ∧ m'.header.vaultConfigured = true ∧
      m'.header.protocolFeeBalance = 0 ∧ m'.header.insuranceFundBalance = 0 ∧
      m'.header.recognizedBadDebt = 0 ∧ m'.header.reconciliationStatus = .reconciled := by
  simp only [configureVaultHeader, run_rules, initializedHeader_eq_ok, run_modifyHeader_bind,
    run_logEvent] at h
  obtain ⟨-, _, ⟨-, hi, rfl⟩, -, -, rfl⟩ := h
  exact ⟨hi, rfl, rfl, rfl, rfl, rfl⟩

theorem World.FreshVault.honest (h : w.FreshVault) : w.ledger.Sound ∧ w.Honest := by
  obtain ⟨hs, w₀, ctx, mint, ha⟩ := h
  obtain ⟨m, hm, hw⟩ := Action.accepted_iff.1 ha
  have hma : w.market = m := by rw [hw]
  obtain ⟨hi, hc, hf, hin, hd, hst⟩ := configureVaultHeader_header hm
  rw [← hma] at hi hc hf hin hd hst
  have he : w.expectedVaultLiability = 0 := by
    unfold expectedVaultLiability
    rw [sum_eq_zero fun i _ => hs i, hf, hin, hd]
    rfl
  refine ⟨⟨hi, hc, fun i => (hs i).ge⟩, ?_, ?_⟩
  · rw [he]
    exact Int.natCast_nonneg _
  · rw [MarketStateHeader.withdrawalsBlockedByReconciliation, hst]
    rfl

theorem Action.Accepted.mode_of_reconciliation (h : a.Accepted w w')
    (ha : a.isReconciliation = true) (hw : w.Honest) :
    w'.market.header.mode = w.market.header.mode := by
  cases a with
  | reconcileVault ctx mint program =>
    have hl : w'.ledger = w.ledger.reconciled := h.moves.eq_reconciled
    change w'.ledger.mode = w.ledger.mode
    rw [hl]
    exact (Ledger.reconciled_of_surplus_nonneg hw.surplus_nonneg).1
  | _ => cases ha

theorem Action.Accepted.honest_iff (h : a.Accepted w w') (hw : w.ledger.Sound)
    (hh : w.Honest) : w'.Honest ↔ (a.feeCharged w : ℤ) ≤ w.surplus := by
  have hb := hh.surplus_nonneg
  have hi := h.moves.backed_iff hw hb
  rw [movement_fee, ledger_surplus, ledger_surplus] at hi
  rw [← hi, surplus, sub_nonneg]
  constructor
  · exact fun hw' => hw'.1
  · exact fun hw' => ⟨hw', h.moves.unblocked hb hh.2⟩

/-- What the log says at every point of a run. -/
structure VaultLog.Agrees (log : VaultLog) (w : World) : Prop where
  sound : w.ledger.Sound
  silent : log.silent = log.covered
  honest : log.covered = true → w.Honest

theorem VaultLog.Agrees.step {log : VaultLog} (hl : log.Agrees w) (h : a.Accepted w w') :
    (a.noteVault w w' log).Agrees w' := by
  obtain ⟨hs, hsi, hh⟩ := hl
  refine ⟨h.moves.sound hs, ?_, ?_⟩
  · rcases Bool.eq_false_or_eq_true log.covered with hc | hc
    · have hq : (!a.isReconciliation ||
          decide (w'.market.header.mode = w.market.header.mode)) = true := by
        rcases Bool.eq_false_or_eq_true a.isReconciliation with ha | ha
        · rw [h.mode_of_reconciliation ha (hh hc), ha]
          exact decide_eq_true rfl
        · rw [ha]
          rfl
      simp only [Action.noteVault, hsi, hc, hq, Bool.true_and, Bool.and_true,
        h.honest_iff hs (hh hc)]
    · simp only [Action.noteVault, hsi, hc, Bool.false_and]
  · simp only [Action.noteVault, Bool.and_eq_true, decide_eq_true_eq]
    rintro ⟨hc, hf⟩
    exact (h.honest_iff hs (hh hc)).2 hf

/-- In every run from a fresh vault, reconciliation raises no false alarm if and only if the
surplus of the vault covers every fee before it is charged. -/
theorem reconciliation_silent_iff {as : List Action} {log : VaultLog} (hw : w.FreshVault)
    (h : Run (noting Action.Accepted Action.noteVault) (w, VaultLog.empty) as (w', log)) :
    log.silent = true ↔ log.covered = true := by
  obtain ⟨hs, hh⟩ := hw.honest
  have ha : log.Agrees w' :=
    h.invariant (P := fun x => x.2.Agrees x.1) ⟨hs, rfl, fun _ => hh⟩ fun a x y hx hxy => by
        obtain ⟨hst, hn⟩ := hxy
        rw [← hn]
        exact hx.step hst
  rw [ha.silent]

/-! ## A trade -/

def sampleMint : Mint := ⟨4, true, 6⟩

def marketCreation : Action := .createPerpMarket ⟨9, 0, false⟩ 1 5 1 (-6)

def vaultInitialization : Action := .initializeVault ⟨9, 0, false⟩ sampleMint

def limitOrder (side : Side) (seatIndex quantity : ℕ) (price : I64) : PlaceOrderData where
  side := match side with
    | .bid => 0
    | .ask => 1
  tree := 0
  flags := 0
  seatIndex
  quantity
  priceOrOffset := price
  expiresAt := 1000000
  pegLimit := 0
  clientOrderId := 0
  actionNonce := 0

/-- Traders 7 and 8 take seats and deposit, `received` arrives from outside, a stranger brings a
price, trader 7 buys 20 from trader 8 at 100, and a stranger reconciles. -/
def tradeRun (received : ℕ) : List Action :=
  [.createSeat ⟨7, 0, false⟩ 0, .createSeat ⟨8, 0, false⟩ 1,
    .initializeSettlementScratch ⟨7, 0, false⟩ 0, .initializeSettlementScratch ⟨8, 0, false⟩ 1,
    .depositCollateral ⟨7, 0, false⟩ sampleMint tokenProgramId ⟨4, 7, 5000⟩ 0 5000,
    .depositCollateral ⟨8, 0, false⟩ sampleMint tokenProgramId ⟨4, 8, 5000⟩ 1 5000,
    .donate received,
    .consumeOracleUpdate ⟨77, 100, false⟩
      { feedId := 5, channel := 1, exponent := -6, price := 100, confidence := 0
        session := 0, envelopeTimestampUs := 100000000, feedUpdateTimestampUs := 100000000 },
    .placeOrder ⟨8, 100, false⟩ (limitOrder .ask 1 20 100),
    .placeOrder ⟨7, 100, false⟩ (limitOrder .bid 0 20 100),
    .reconcileVault ⟨77, 100, false⟩ sampleMint tokenProgramId]

/-- A run from the initialization of the vault, with its log. -/
def vaultLogAfter (as : List Action) : Option (World × VaultLog) := do
  let w₀ ← marketCreation.tryExec blank
  let w ← vaultInitialization.tryExec w₀
  execAll (execNoting Action.tryExec Action.noteVault) (w, VaultLog.empty) as

theorem run_of_vaultLogAfter {as : List Action} {x : World × VaultLog}
    (h : vaultLogAfter as = some x) :
    ∃ w : World, w.FreshVault ∧
      Run (noting Action.Accepted Action.noteVault) (w, VaultLog.empty) as x := by
  simp only [vaultLogAfter, some_rules] at h
  obtain ⟨w₀, hcr, w, hco, h⟩ := h
  have hw₀ := Action.accepted_of_tryExec hcr
  have hw := Action.accepted_of_tryExec hco
  have hc : w.ledger.collateral = blank.ledger.collateral :=
    (hw.moves.collateral_eq (.inr rfl)).trans (hw₀.moves.collateral_eq (.inl rfl))
  refine ⟨w, ⟨fun i => congrFun hc i, w₀, _, _, hw⟩, ?_⟩
  exact .of_execNoting h fun _ _ _ => Action.accepted_of_tryExec

/-- A surplus of one covers the fee of the trade. -/
theorem reconciliation_silent_of_tradeRun : ∃ w log,
    vaultLogAfter (tradeRun 1) = some (w, log) ∧ w.market.header.protocolFeeBalance = 1 ∧
      log.silent = true := by
  have hr : (vaultLogAfter (tradeRun 1)).any (fun x =>
      x.1.market.header.protocolFeeBalance = 1 ∧ x.2.covered = true) = true := by decide +kernel
  obtain ⟨⟨w, log⟩, hx, hl⟩ := (Option.any_eq_true _ _).1 hr
  obtain ⟨hf, hc⟩ := of_decide_eq_true hl
  obtain ⟨w₀, hfr, hw⟩ := run_of_vaultLogAfter hx
  exact ⟨w, log, hx, hf, (reconciliation_silent_iff hfr hw).2 hc⟩

/-- One trade without a surplus, and the market is paused and its withdrawals are blocked. -/
theorem reconciliation_false_alarm : ∃ w₀ w log, w₀.FreshVault ∧
    Run (noting Action.Accepted Action.noteVault) (w₀, VaultLog.empty) (tradeRun 0) (w, log) ∧
    w.vault.amount < w.expectedVaultLiability ∧ w.market.header.mode = .paused ∧
    w.market.header.withdrawalsBlockedByReconciliation = true := by
  have hr : (vaultLogAfter (tradeRun 0)).any (fun x =>
      (x.1.vault.amount : ℤ) < x.1.expectedVaultLiability ∧ x.1.market.header.mode = .paused ∧
      x.1.market.header.withdrawalsBlockedByReconciliation = true) = true := by decide +kernel
  obtain ⟨⟨w, log⟩, hx, hl⟩ := (Option.any_eq_true _ _).1 hr
  obtain ⟨w₀, hf, hw⟩ := run_of_vaultLogAfter hx
  exact ⟨w₀, w, log, hf, hw, of_decide_eq_true hl⟩

end Equinox.V2
