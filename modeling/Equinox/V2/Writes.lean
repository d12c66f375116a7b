import Equinox.V2.Charges
import Equinox.V2.Frames

/-! # What trading does to the ledger

Events, books, sessions and scratch accounts are no part of the ledger. A
cancellation leaves it as it is, and an order, a replacement or a liquidation
adds its fees.
-/

namespace Equinox.V2

open Foundation CritBit V2.Market

variable {m m' : Market} {ctx : Context} {order : PlaceOrderData} {i v : ℕ} {u : Unit}

def Ledger.charged (l : Ledger) (amount : ℕ) : Ledger := { l with fees := l.fees + amount }

/-! ## Frames -/

section Frames

instance unbooked_ledger : Unbooked (ledger v) := ⟨fun _ _ => rfl⟩

theorem keeps_modifyHeader {f : MarketStateHeader → MarketStateHeader}
    (h : ∀ m : Market, ledger v { m with header := f m.header } = m.ledger v) :
    Keeps (ledger v) (modifyHeader f) := .modify h

instance keeps_logEvent (kind : EventKind) (t : ℕ) (payload : EventPayload) :
    Keeps (ledger v) (logEvent kind t payload) where
  of_ok h := by
    obtain ⟨-, rfl⟩ := run_logEvent.1 h
    rfl

instance keeps_writeSession (key : SessionKey) (session : Option TradingSession) :
    Keeps (ledger v) (writeSession key session) := .modify fun _ => rfl

instance keeps_recordFill (kind : EventKind) (event : FillEvent) :
    Keeps (ledger v) (recordFill kind event) :=
  .andThen (.modify fun _ => rfl) fun _ => .modify fun _ => rfl

theorem ledger_kept {α : Type} {x : MarketM α} [Keeps (ledger v) x] {a : α}
    (h : x m = .ok a m') : m'.ledger v = m.ledger v := kept_of_ok (ledger v) h

end Frames

/-! ## Orders -/

theorem collateral_eq_of_ledger_eq (h : m'.ledger v = m.ledger v) (j : ℕ) :
    (m'.seats j).availableCollateral = (m.seats j).availableCollateral :=
  congrFun (congrArg Ledger.collateral h) j

theorem SameCollateral.of_ledger_eq {results : List (ℕ × TraderSeat)}
    (hs : SameCollateral m results) (h : m'.ledger v = m.ledger v) : SameCollateral m' results := by
  intro slot hsl
  rw [hs slot hsl, collateral_eq_of_ledger_eq h]

theorem applyScratchResults_ledger {scratch : Settlement}
    (hsa : SameCollateral m scratch.seatResults)
    (h : applyScratchResults scratch m = .ok u m') : m'.ledger v = m.ledger v := by
  obtain ⟨⟨⟩, m₁, hse, hf⟩ := run_bind_eq_ok.1 h
  have hm₁ : m₁.ledger v = m.ledger v := by
    refine run_forM_invariant (P := fun s => s.ledger v = m.ledger v) ?_ rfl hse
    rintro ⟨j, seat⟩ hsl s s' hs hw
    obtain ⟨-, rfl⟩ := run_writeSeat.1 hw
    rw [ledger_withSeat_of_eq (hsa.of_ledger_eq hs _ hsl), hs]
  rw [ledger_kept hf, hm₁]

theorem creditFees_ledger {fee : ℤ} {t : ℕ} (h : creditFees fee i t m = .ok u m') :
    m'.ledger v = (m.ledger v).charged fee.toNat := by
  unfold creditFees at h
  split at h
  · simp only [run_asking_bind, run_lift_bind, exists_checkedU64, run_modifyHeader_bind,
      run_logEvent] at h
    obtain ⟨-, -, -, rfl⟩ := h
    rfl
  · rename_i hf
    obtain ⟨-, rfl⟩ := run_pure_eq_ok.1 h
    rw [Int.toNat_of_nonpos (not_lt.1 hf)]
    rfl

theorem applyOrder_ledger {plan : OrderPlan} (hs : SameCollateral m plan.settlement.seatResults)
    (h : applyOrder ctx order plan m = .ok u m') :
    m'.ledger v = (m.ledger v).charged plan.settlement.totalFee.toNat := by
  obtain ⟨⟨⟩, m₁, hbo, h⟩ := run_bind_eq_ok.1 h
  obtain ⟨⟨⟩, m₂, hr, h⟩ := run_bind_eq_ok.1 h
  obtain ⟨⟨⟩, m₃, hre, h⟩ := run_bind_eq_ok.1 h
  obtain ⟨⟨⟩, m₄, hh, h⟩ := run_bind_eq_ok.1 h
  obtain ⟨⟨⟩, m₅, hl, h⟩ := run_bind_eq_ok.1 h
  obtain ⟨⟨⟩, m₆, hf, hsc⟩ := run_bind_eq_ok.1 h
  have hb : m₂.ledger v = m.ledger v := by
    rw [ledger_kept hr, ledger_kept hbo]
  have hse : m₃.ledger v = m.ledger v := by
    rw [applyScratchResults_ledger (hs.of_ledger_eq hb) hre, hb]
  have hc : m₄.ledger v = m₃.ledger v := by
    rw [← run_modify_eq_ok.1 hh]
    rfl
  have hlo : m₅.ledger v = m₄.ledger v := ledger_kept hl
  rw [← run_modify_eq_ok.1 hsc]
  calc m₆.ledger v = (m₅.ledger v).charged _ := creditFees_ledger hf
    _ = (m.ledger v).charged _ := by rw [hlo, hc, hse]

theorem placeOrderCore_ledger {owner : Address} {s : Bool} {result : ℤ × ℕ}
    (h : placeOrderCore ctx order owner s m = .ok result m') :
    m'.ledger v = (m.ledger v).charged (orderFees m order) := by
  simp only [placeOrderCore, run_rules] at h
  obtain ⟨plan, hp, h⟩ := h
  obtain ⟨⟨⟩, m₁, ha, he⟩ := run_bind_eq_ok.1 h
  obtain ⟨-, rfl⟩ := run_pure_eq_ok.1 he
  obtain ⟨hs, hf⟩ := planOrder_eq_ok hp
  rw [applyOrder_ledger hs ha, hf]

theorem placeOrder_ledger (h : placeOrder ctx order m = .ok u m') :
    m'.ledger v = (m.ledger v).charged (orderFees m order) := by
  simp only [placeOrder, run_rules] at h
  obtain ⟨⟨session, key⟩, -, h⟩ := h
  obtain ⟨⟨notional, now⟩, m₁, hc, hs⟩ := run_bind_eq_ok.1 h
  rw [ledger_kept hs, placeOrderCore_ledger hc]

/-! ## Cancellations -/

theorem cancelOrderCore_ledger {key : Key} (h : cancelOrderCore i key m = .ok u m') :
    m'.ledger v = m.ledger v := by
  obtain ⟨leaf, m₁, hr, h⟩ := run_bind_eq_ok.1 h
  rw [← ledger_kept hr]
  simp only [run_rules, seatAt_eq_ok] at h
  obtain ⟨_, ⟨-, rfl⟩, h⟩ := h
  split at h
  · simp only [run_lift_bind, run_writeSeat] at h
    obtain ⟨_, -, _, -, -, rfl⟩ := h
    exact ledger_withSeat_of_eq rfl
  · obtain ⟨-, rfl⟩ := run_writeSeat.1 h
    exact ledger_withSeat_of_eq rfl

instance keeps_cancelOrder (i : ℕ) (key : Key) (nonce : ℕ) :
    Keeps (ledger v) (cancelOrder ctx i key nonce) := by
  have : Keeps (ledger v) (cancelOrderCore i key) := ⟨cancelOrderCore_ledger⟩
  unfold cancelOrder
  infer_instance

theorem releaseAll_collateral {header : MarketStateHeader} {total : CancelSummary}
    {seat seat' : TraderSeat} (h : releaseAll header total seat = .ok seat') :
    seat'.availableCollateral = seat.availableCollateral := by
  simp only [releaseAll, ok_rules] at h
  obtain ⟨_, -, rfl⟩ := h
  rfl

theorem cancelAll_ledger {max nonce : ℕ} (h : cancelAll ctx i max nonce m = .ok u m') :
    m'.ledger v = m.ledger v := by
  simp only [cancelAll, run_rules] at h
  obtain ⟨⟨session, key⟩, -, -, h⟩ := h
  obtain ⟨total, m₁, hb, h⟩ := run_bind_eq_ok.1 h
  simp only [run_lift_bind, run_writeSeat_bind] at h
  obtain ⟨seat, hse, -, h⟩ := h
  obtain ⟨⟨⟩, m₂, hl, hses⟩ := run_bind_eq_ok.1 h
  have hm₁ : m₁.ledger v = m.ledger v := ledger_kept hb
  have hs : seat.availableCollateral = (m₁.seats i).availableCollateral := by
    rw [releaseAll_collateral hse, collateral_eq_of_ledger_eq hm₁]
  rw [ledger_kept hses, ledger_kept hl, ledger_withSeat_of_eq hs, hm₁]

/-! ## Replacements and liquidations -/

/-- The fees of an order on the books without the order it replaces. -/
def replacementFees (m : Market) (oldOrderKey : Key) (order : PlaceOrderData) : ℕ :=
  orderFees (finalState (cancelOrderCore order.seatIndex oldOrderKey m)) order

theorem replaceOrder_ledger {key : Key} (h : replaceOrder ctx key order m = .ok u m') :
    m'.ledger v = (m.ledger v).charged (replacementFees m key order) := by
  simp only [replaceOrder, run_rules] at h
  obtain ⟨⟨session, sessionKey⟩, -, -, -, h⟩ := h
  obtain ⟨⟨⟩, m₁, hc, h⟩ := run_bind_eq_ok.1 h
  obtain ⟨⟨notional, now⟩, m₂, hp, h⟩ := run_bind_eq_ok.1 h
  obtain ⟨⟨⟩, m₃, hl, hs⟩ := run_bind_eq_ok.1 h
  rw [ledger_kept hs, ledger_kept hl,
    placeOrderCore_ledger hp, cancelOrderCore_ledger hc, replacementFees, hc]
  rfl

/-- The fee on the part of a position that a liquidation closes. -/
def liquidationFee (m : Market) (seatIndex maxQuantity : ℕ) : ℕ :=
  (Risk.bpsOf (min (max (|(m.seats seatIndex).basePosition|.tdiv 2) 1) (maxQuantity : ℤ) *
    m.header.lastVerifiedOraclePrice.val) m.header.liquidationFeeBps).toNat

theorem liquidate_ledger {maxQuantity : ℕ} (h : liquidate ctx i maxQuantity m = .ok u m') :
    m'.ledger v = (m.ledger v).charged (liquidationFee m i maxQuantity) := by
  simp only [liquidate, run_rules, initializedHeader_eq_ok, seatAt_eq_ok, checkRisk_eq_ok] at h
  obtain ⟨_, ⟨-, -, rfl⟩, -, _, ⟨-, rfl⟩, unhealthy, hu, rfl, most, hmo, h⟩ := h
  obtain rfl := Risk.partialLiquidationQuantity_eq_ok hu hmo
  obtain ⟨⟨⟩, m₁, hst, h⟩ := run_bind_eq_ok.1 h
  simp only [run_lift_bind, checkRisk_eq_ok, run_writeSeat_bind] at h
  obtain ⟨⟨fee, filled⟩, hfi, seat, hse, -, h⟩ := h
  obtain ⟨⟨⟩, m₂, hp, h⟩ := run_bind_eq_ok.1 h
  obtain ⟨⟨⟩, m₃, hm, h⟩ := run_bind_eq_ok.1 h
  obtain ⟨⟨⟩, m₄, hc, hfe⟩ := run_bind_eq_ok.1 h
  have hm₁ : m₁.ledger v = m.ledger v := ledger_kept hst
  have hs : seat.availableCollateral = (m₁.seats i).availableCollateral := by
    obtain ⟨state, rfl⟩ := Risk.setLiquidationState_eq_ok hse
    exact (applyFill_collateral hfi).trans (collateral_eq_of_ledger_eq hm₁ i).symm
  have hf := (Risk.applyFill_eq_ok hfi).2.1
  have hq : 0 ≤ min (max (|(m.seats i).basePosition|.tdiv 2) 1) (maxQuantity : ℤ) :=
    le_min (le_max_of_le_right zero_le_one) (Int.natCast_nonneg _)
  rw [apply_ite abs, abs_neg, ite_self, abs_of_nonneg hq] at hf
  rw [creditFees_ledger hfe, ledger_kept hc,
    ledger_kept hm, ledger_kept hp, ledger_withSeat_of_eq hs, hm₁, hf, liquidationFee]

end Equinox.V2
