import Equinox.V2.Ledger
import Equinox.V2.Upkeep

/-! # What trading charges

A fill takes a fee from the maker and from the taker, and a liquidation from the
liquidated. The seats pay with their profit, so that their collateral stays as
it is, and the fees are credited to the protocol.
-/

namespace Equinox.V2

open Foundation CritBit List Risk Function

variable {m : Market} {header : MarketStateHeader} {order : PlaceOrderData} {i v : ℕ}
  {seat : TraderSeat}

/-- The ledger of a market whose vault holds an amount. -/
def Market.ledger (vault : ℕ) (m : Market) : Ledger where
  mode := m.header.mode
  initialized := m.header.initialized
  configured := m.header.vaultConfigured
  status := m.header.reconciliationStatus
  fees := m.header.protocolFeeBalance
  insurance := m.header.insuranceFundBalance
  badDebt := m.header.recognizedBadDebt
  collateral j := (m.seats j).availableCollateral
  vault

theorem Market.ledger_withSeat :
    (m.withSeat i seat).ledger v = (m.ledger v).withCollateral i seat.availableCollateral := by
  unfold ledger withSeat Ledger.withCollateral
  congr 1
  funext j
  rcases eq_or_ne j i with rfl | hne
  · simp only [update_self]
  · simp only [update_of_ne hne]

theorem Market.ledger_withSeat_of_eq
    (h : seat.availableCollateral = (m.seats i).availableCollateral) :
    (m.withSeat i seat).ledger v = m.ledger v := by
  rw [ledger_withSeat, h]
  unfold Ledger.withCollateral
  congr 1
  exact update_eq_self i _

/-! ## Seats that pay -/

def fillFees (header : MarketStateHeader) (fill : FillRecord) : ℤ :=
  bpsOf (fill.quantity * fill.price.val) header.makerFeeBps +
    bpsOf (fill.quantity * fill.price.val) header.takerFeeBps

/-- Results of seats that leave their collateral as it is. -/
def SameCollateral (m : Market) (results : List (ℕ × TraderSeat)) : Prop :=
  ∀ slot ∈ results, slot.2.availableCollateral = (m.seats slot.1).availableCollateral

variable {seat' : TraderSeat}

theorem applyFill_collateral {q p fee : ℤ} {bps : ℕ}
    (h : applyFill seat q p bps = .ok (fee, seat')) :
    seat'.availableCollateral = seat.availableCollateral := by
  obtain ⟨-, -, e, r, -, rfl⟩ := applyFill_eq_ok h
  rfl

theorem settleFunding_collateral {accumulator payment : ℤ}
    (h : settleFunding seat accumulator = .ok (payment, seat')) :
    seat'.availableCollateral = seat.availableCollateral := by
  obtain ⟨-, rfl⟩ := settleFunding_eq_ok h
  rfl

variable {makers : List (ℕ × TraderSeat)}

theorem mem_of_lookup (h : makers.lookup i = some seat) : (i, seat) ∈ makers := by
  induction makers with
  | nil => cases h
  | cons slot makers ih =>
    obtain ⟨j, s⟩ := slot
    rw [lookup_cons] at h
    rcases eq_or_ne i j with rfl | hne
    · rw [beq_self_eq_true] at h
      obtain rfl := Option.some.inj h
      exact mem_cons_self
    · rw [beq_eq_false_iff_ne.2 hne] at h
      exact mem_cons_of_mem _ (ih h)

theorem plannedMaker_collateral
    (hm : SameCollateral m makers) (h : plannedMaker m header makers i = .ok seat) :
    seat.availableCollateral = (m.seats i).availableCollateral := by
  unfold plannedMaker at h
  split at h
  · rename_i planned hp
    obtain rfl := pure_eq_ok.1 h
    exact hm _ (mem_of_lookup hp)
  · simp only [ok_rules, seatAt_eq_ok, checkRisk_eq_ok] at h
    obtain ⟨-, _, ⟨-, rfl⟩, ⟨payment, settled⟩, hs, rfl⟩ := h
    exact settleFunding_collateral hs

theorem SameCollateral.setMaker (hm : SameCollateral m makers)
    (h : seat.availableCollateral = (m.seats i).availableCollateral) :
    SameCollateral m (setMaker makers i seat) := by
  intro slot hs
  unfold V2.setMaker at hs
  split at hs
  · rcases mem_or_eq_of_mem_set hs with hold | rfl
    · exact hm slot hold
    · exact h
  · rcases mem_append.1 hs with hold | hn
    · exact hm slot hold
    · obtain rfl := mem_singleton.1 hn
      exact h

theorem settleFill_eq_ok {side : Side} {plan plan' : SeatPlan} {fill : FillRecord}
    (hm : SameCollateral m plan.makers)
    (h : settleFill m header side plan fill = .ok plan') :
    (SameCollateral m plan'.makers ∧
      plan'.taker.availableCollateral = plan.taker.availableCollateral) ∧
      plan'.totalFee = plan.totalFee + fillFees header fill := by
  simp only [settleFill, ok_rules, exists_checkedI128, exists_checkedU64, checkRisk_eq_ok] at h
  obtain ⟨maker, hma, ⟨makerFee, filled⟩, hf, ⟨takerFee, taker⟩, ht, -, -, margin, -,
    released, hr, -, rfl⟩ := h
  have hs := (TraderSeat.release_eq_ok hr).1.sameClaims.availableCollateral
  refine ⟨⟨hm.setMaker ?_, applyFill_collateral ht⟩, ?_⟩
  · rw [hs, applyFill_collateral hf, plannedMaker_collateral hm hma]
  · obtain ⟨-, rfl, -⟩ := applyFill_eq_ok hf
    obtain ⟨-, rfl, -⟩ := applyFill_eq_ok ht
    rw [abs_neg, Side.abs_signed, fillFees]
    ring

theorem settleRemainder_collateral {input : OrderInput} {remaining : ℕ}
    (h : settleRemainder header input remaining seat = .ok seat') :
    seat'.availableCollateral = seat.availableCollateral := by
  unfold settleRemainder at h
  split at h
  · simp only [reserveRemainder, ok_rules, exists_checkedI128] at h
    obtain ⟨_, -, _, -, -, -, -, rfl⟩ := h
    exact (TraderSeat.withExposure_sameButOrders ..).sameClaims.availableCollateral
  · rw [pure_eq_ok.1 h]

theorem planSeatResults_eq_ok {input : OrderInput} {plan : PlannedMatch} {settlement : Settlement}
    (hs : seat.availableCollateral = (m.seats input.owner).availableCollateral)
    (h : planSeatResults m header input seat plan = .ok settlement) :
    settlement.plan = plan ∧ SameCollateral m settlement.seatResults ∧
      settlement.totalFee = (plan.fills.map (fillFees header)).sum := by
  simp only [planSeatResults, ok_rules, exists_checkedU64] at h
  obtain ⟨settled, hfo, taker, ht, total, -, -, rfl⟩ := h
  obtain ⟨⟨hm, hse⟩, hf⟩ := foldlM_sum (d := fillFees header)
    (P := fun p => SameCollateral m p.makers ∧
      p.taker.availableCollateral = seat.availableCollateral)
    (g := SeatPlan.totalFee) (fun fill _ p p' hp hp' => by
      obtain ⟨⟨hm, ht⟩, hf⟩ := settleFill_eq_ok hp.1 hp'
      exact ⟨⟨hm, ht.trans hp.2⟩, hf⟩)
    (by exact ⟨forall_mem_nil _, rfl⟩) hfo
  have hr := settleRemainder_collateral ht
  refine ⟨rfl, ?_, by simpa using hf⟩
  intro slot hsl
  rcases mem_cons.1 hsl with rfl | hma
  · exact hr.trans (hse.trans hs)
  · exact hm slot hma

/-! ## Fees of an order -/

def Market.fillsOf (m : Market) (order : PlaceOrderData) :
    Except ProgramError (List FillRecord) := do
  let behavior ← order.selfTradeBehavior
  let sequence ← okOr m.header.globalOrderSequence.checkedSucc (custom .arithmeticOverflow)
  let plan ← checkBook (planLimitArenas m.arenas (orderInput order behavior sequence)
    (some m.header.lastVerifiedOraclePrice) m.header.lastVerifiedOracleTimestamp orderLimits)
  pure plan.fills

def orderFees (m : Market) (order : PlaceOrderData) : ℕ :=
  (m.fillsOf order).toOption.elim 0 fun fills => ((fills.map (fillFees m.header)).sum).toNat

theorem admitTaker_collateral {price : I64} {taker : Taker}
    (h : admitTaker header order price seat = .ok taker) :
    taker.seat.availableCollateral = seat.availableCollateral := by
  simp only [admitTaker, ok_rules, checkRisk_eq_ok] at h
  obtain ⟨-, ⟨payment, settled⟩, hs, _, -, _, -, _, -, -, rfl⟩ := h
  exact settleFunding_collateral hs

theorem checkOrder_behavior {trader : Address} {s : Bool} {price : I64}
    {behavior : SelfTradeBehavior}
    (h : checkOrder header seat order trader s = .ok (price, behavior)) :
    order.selfTradeBehavior = .ok behavior := by
  simp only [checkOrder, ok_rules, Prod.mk.injEq] at h
  obtain ⟨-, -, -, -, _, hb, _, -, -, rfl, rfl⟩ := h
  exact hb

theorem planOrder_eq_ok {trader owner : Address} {s : Bool} {plan : OrderPlan}
    (h : planOrder m order trader owner s = .ok plan) :
    SameCollateral m plan.settlement.seatResults ∧
      plan.settlement.totalFee.toNat = orderFees m order := by
  simp only [planOrder, ok_rules, initializedHeader_eq_ok, seatAt_eq_ok, okOr_eq_ok,
    checkBook_eq_ok] at h
  obtain ⟨_, ⟨-, -, rfl⟩, _, ⟨-, rfl⟩, ⟨price, behavior⟩, hc, ⟨⟩, -, taker, ht, sequence,
    hse, leaf, -, scratch, -, planned, hp, settlement, hset, ⟨⟩, -, -, -, rfl⟩ := h
  obtain ⟨-, hs, hf⟩ := planSeatResults_eq_ok (admitTaker_collateral ht) hset
  have hfi : m.fillsOf order = .ok planned.fills := by
    simp only [Market.fillsOf, ok_rules, okOr_eq_ok, checkBook_eq_ok]
    exact ⟨behavior, checkOrder_behavior hc, sequence, hse, planned, hp, rfl⟩
  refine ⟨hs, ?_⟩
  rw [orderFees, hfi, hf]
  rfl

end Equinox.V2
