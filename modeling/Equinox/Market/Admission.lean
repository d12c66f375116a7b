import Equinox.Market.Ledgers
import Equinox.Market.Positions

/-! # Health after an order

Margin and leverage are checked on the taker's seat before it trades. The fills
then move it at the makers' prices, which are only bounded by the taker's own
limit, and charge fees. What the taker is worth afterwards, at every mark, is what
it was worth before plus what each fill earns.
-/

namespace Equinox

open Foundation CritBit PagedBookV3 World Risk TraderSeat V3RiskConfig

variable {m m' : Market} {ctx : Context} {order : PlaceOrderData} {actions i j : ℕ}
  {oracle : I64} {behavior : SelfTradeBehavior} {prepared : PreparedOrder}
  {uses : List (Maker × Use)} {side : Side} {tree : TreeKind} {seat settled : TraderSeat}
  {config : V3RiskConfig} {p : ℤ} {u : Unit}

/-- The seat covers its maintenance margin and is within its leverage at a mark. -/
def TraderSeat.Healthy (seat : TraderSeat) (p : ℤ) (config : V3RiskConfig) : Prop :=
  bpsOf (|seat.basePosition| * p) config.maintenanceMarginBps ≤ seat.value p ∧
    |seat.basePosition| * p ≤ config.maximumLeverage * seat.value p

theorem TraderSeat.healthy_iff {liquidatable : Bool} {equity : ℤ}
    (hl : isLiquidatable seat p config.maintenanceMarginBps = .ok liquidatable)
    (he : Risk.equity seat p = .ok equity) : seat.Healthy p config ↔
      liquidatable = false ∧ |seat.basePosition| * p ≤ config.maximumLeverage * equity := by
  simp only [isLiquidatable, maintenanceRequirement, maintenanceMargin, ok_rules,
    abs_eq_ok, notional_eq_ok, fee_eq_ok, he] at hl
  obtain ⟨_, ⟨_, ⟨-, rfl⟩, _, ⟨-, -, -, rfl⟩, -, rfl⟩, _, heq, rfl⟩ := hl
  obtain rfl := Except.ok.inj heq
  obtain rfl := Risk.equity_eq_value he
  simp [Healthy]

/-! ## Settled values -/

theorem Market.settledValue_of_funded
    (h : (m.seats i).lastFundingAccumulator = m.core.fundingAccumulator) :
    m.settledValue i p = (m.seats i).value p := by
  rw [settledValue, h]
  simp

theorem Market.settledValue_withSeat (h : (m.seats j).SameButOrders seat) :
    (m.withSeat j seat).settledValue i p = m.settledValue i p := by
  by_cases hij : i = j
  · subst hij
    obtain ⟨_, _, _, _, rfl⟩ := h
    simp only [settledValue, seats_withSeat_self, core_withSeat]
    rfl
  · simp only [settledValue, seats_withSeat_of_ne hij, core_withSeat]

/-- What a fill earns the taker at a mark, after its fee. -/
def V3Fill.gain (fill : V3Fill) (side : Side) (bps : ℕ) (p : ℤ) : ℤ :=
  side.signed fill.quantity * (p - fill.price) - bpsOf (fill.quantity * fill.price) bps

section Filled

variable {taker : ℕ} {fill : V3Fill} {makerFee takerFee : ℤ} {makerSeat takerSeat : TraderSeat}
  (h : Market.Filled taker side config fill makerFee takerFee makerSeat takerSeat m m')

include h

theorem Market.Filled.accumulator_eq : m'.core.fundingAccumulator = m.core.fundingAccumulator := by
  rw [h.result]
  rfl

theorem Market.Filled.funded_taker :
    (m'.seats taker).lastFundingAccumulator = m'.core.fundingAccumulator := by
  rw [h.accumulator_eq, h.seats_taker, h.dealt_taker.funded]

theorem Market.Filled.settledValue_taker (hc : (m.seats taker).Consistent) :
    m'.settledValue taker p = m.settledValue taker p + fill.gain side config.takerFeeBps p := by
  obtain ⟨_, settled, hs, hf⟩ := h.taker_dealt
  have hc' : settled.Consistent := by
    rw [(settleFunding_eq_ok hs).2]
    exact hc
  obtain ⟨-, hfee, -⟩ := applyFill_eq_ok hf
  rw [settledValue_of_funded h.funded_taker, h.seats_taker, (value_applyFill hc' hf).2,
    value_settled hs, hfee, Side.abs_signed, V3Fill.gain]
  ring

end Filled

/-! ## The taker of an order -/

section Executed

variable {mBook mCancel mFill mRest mFund : Market}
  (h : Market.Executed order prepared m mBook mCancel mFill mRest mFund m')

/-- The taker has settled its funding, or has not traded since. -/
def Market.Pending (m m' : Market) (i : ℕ) : Prop :=
  (m'.seats i).lastFundingAccumulator = m.core.fundingAccumulator ∨
    ((m'.seats i).basePosition = (m.seats i).basePosition ∧
      (m'.seats i).lastFundingAccumulator = (m.seats i).lastFundingAccumulator)

theorem Market.Pending.withSeat {s : Market} (h : m.Pending s i)
    (hs : (s.seats j).SameButOrders seat) : m.Pending (s.withSeat j seat) i := by
  unfold Pending at *
  by_cases hij : i = j
  · subst hij
    obtain ⟨_, _, _, _, rfl⟩ := hs
    rwa [seats_withSeat_self]
  · rwa [seats_withSeat_of_ne hij]

/-- What an order does to the taker, as far as it has got. -/
structure Market.Trading (m s : Market) (i : ℕ) (p gain : ℤ) : Prop where
  consistent : (s.seats i).Consistent
  accumulator : s.core.fundingAccumulator = m.core.fundingAccumulator
  pending : m.Pending s i
  value : s.settledValue i p = m.settledValue i p + gain

theorem Market.Trading.withSeat {s : Market} {gain : ℤ} (h : m.Trading s i p gain)
    (hs : (s.seats j).SameButOrders seat) : m.Trading (s.withSeat j seat) i p gain := by
  refine ⟨?_, h.accumulator, h.pending.withSeat hs, ?_⟩
  · by_cases hij : i = j
    · subst hij
      rw [seats_withSeat_self]
      exact hs.consistent h.consistent
    · rw [seats_withSeat_of_ne hij]
      exact h.consistent
  · rw [settledValue_withSeat hs, h.value]

theorem Market.Trading.filled {s s' : Market} {gain : ℤ} {fill : V3Fill}
    (h : m.Trading s i p gain) (hfi : settleV3Fill i side config fill s = .ok u s') :
    m.Trading s' i p (gain + fill.gain side config.takerFeeBps p) := by
  obtain ⟨_, _, _, _, hf⟩ := settleV3Fill_eq_ok hfi
  refine ⟨hf.traded.consistent i h.consistent, hf.accumulator_eq.trans h.accumulator, .inl ?_, ?_⟩
  · rw [hf.funded_taker, hf.accumulator_eq, h.accumulator]
  · rw [hf.settledValue_taker h.consistent, h.value, add_assoc]

theorem Market.Trading.fills {s s' : Market} {gain : ℤ} {fills : List V3Fill}
    (h : m.Trading s i p gain) (hf : fills.forM (settleV3Fill i side config) s = .ok u s') :
    m.Trading s' i p (gain + (fills.map (·.gain side config.takerFeeBps p)).sum) := by
  induction fills generalizing s gain with
  | nil =>
    obtain ⟨-, rfl⟩ := run_pure_eq_ok.1 hf
    simpa using h
  | cons fill fills ih =>
    obtain ⟨s₁, hfi, hf⟩ := run_forM_cons.1 hf
    rw [List.map_cons, List.sum_cons, ← add_assoc]
    exact ih (h.filled hfi) hf

include h

theorem Market.Executed.trading (hc : (m.seats order.seatIndex).Consistent) (p : ℤ) :
    m.Trading mRest order.seatIndex p
      (prepared.plan.fills.map (·.gain prepared.side prepared.config.takerFeeBps p)).sum := by
  have hb : m.Trading mBook order.seatIndex p 0 := by
    obtain ⟨b, -, rfl⟩ := h.book
    exact ⟨hc, rfl, .inr ⟨rfl, rfl⟩, (add_zero _).symm⟩
  have hca : m.Trading mCancel order.seatIndex p 0 := by
    refine run_forM_invariant (P := fun s => m.Trading s order.seatIndex p 0)
      (fun cancel _ s s' hs hr => ?_) hb h.cancel
    obtain ⟨-, released, hrel, rfl⟩ := releaseCancelled_eq_ok hr
    exact hs.withSeat (release_eq_ok hrel).1
  have hf := hca.fills h.fill
  rw [zero_add] at hf
  rcases restRemainder_eq_ok h.rest with ⟨-, rfl⟩ | ⟨-, -, reserved, _, b, -, hres, -, rfl⟩
  · exact hf
  · have hre := hf.withSeat (reserve_eq_ok hres).1
    exact ⟨hre.consistent, hre.accumulator, hre.pending, hre.value⟩

/-- After an order the taker is worth what it was worth before, with its funding settled, and what
the fills earn. -/
theorem Market.Executed.taker_value (hc : (m.seats order.seatIndex).Consistent)
    (hs : settleFunding (m.seats order.seatIndex) m.core.fundingAccumulator =
      .ok (prepared.fundingPayment, settled)) (p : ℤ) :
    (m'.seats order.seatIndex).value p = m.settledValue order.seatIndex p +
      (prepared.plan.fills.map (·.gain prepared.side prepared.config.takerFeeBps p)).sum := by
  have ht := h.trading hc p
  rw [h.seats_record, ← ht.value]
  rcases settleTakerFunding_eq_ok h.fund with ⟨hf, rfl⟩ | ⟨-, -, hne, rfl⟩
  · exact (settledValue_of_funded (hf.trans ht.accumulator.symm)).symm
  · obtain ⟨hp, hl⟩ := ht.pending.resolve_left hne
    rw [seats_withSeat_self, settledValue, ht.accumulator, hp, hl, ← (settleFunding_eq_ok hs).1]
    simp only [value]
    ring

end Executed

/-! ## Admission -/

def gainOf (side : Side) (bps : ℕ) (p : ℤ) : Maker × Use → ℤ
  | (x, .filled n) => side.signed n * (p - x.price.val) - bpsOf (n * x.price.val) bps
  | _ => 0

theorem Market.Placed.sum_gain
    (h : Market.Placed ctx order actions oracle behavior prepared uses m m') (bps : ℕ) (p : ℤ) :
    (prepared.plan.fills.map (·.gain prepared.side bps p)).sum =
      (uses.map (gainOf prepared.side bps p)).sum := by
  rw [h.fills_eq, sum_map_filterMap]
  congr 1
  refine List.map_congr_left fun u hu => ?_
  obtain ⟨x, use⟩ := u
  cases use with
  | cancelled | passed => rfl
  | filled n =>
    have hpos : 0 < x.price.val :=
      (executablePrice_eq_some (PagedBookV3.mem_makers.1 (h.mem_makers hu)).2).1
    have hp : ((x.price.val.toNat : ℕ) : ℤ) = x.price.val := by omega
    simp only [fillOf, Option.elim_some, V3Fill.gain, Maker.toFill, gainOf, hp]

/-- The taker's position after filling some makers, and its value, meet both requirements. -/
def Market.Covers (m : Market) (i : ℕ) (side : Side) (uses : List (Maker × Use)) (p : ℤ)
    (config : V3RiskConfig) : Prop :=
  let position := (m.seats i).basePosition + side.signed (uses.map filledIn).sum
  let value := m.settledValue i p + (uses.map (gainOf side config.takerFeeBps p)).sum
  bpsOf (|position| * p) config.maintenanceMarginBps ≤ value ∧
    |position| * p ≤ config.maximumLeverage * value

/-- An accepted order leaves its taker healthy at a mark, such as the oracle price it was admitted
at, exactly if the taker covers the fills it makes at the makers' prices and their fees. -/
theorem placeOrderV3_healthy_iff (hm : m.Valid) (h : placeOrderV3 ctx order m = .ok () m')
    (hc : (m.seats order.seatIndex).Consistent) (hconfig : readV3RiskConfig m.core = .ok config)
    (hshape : order.shape ctx.now = .ok (side, tree))
    (huses : m.usedMakers ctx order none = .ok uses) (mark : ℤ) :
    ((m'.seats order.seatIndex).Healthy mark config ↔
      m.Covers order.seatIndex side uses mark config) ∧
    ∀ liquidatable equity,
      isLiquidatable (m'.seats order.seatIndex) mark config.maintenanceMarginBps =
        .ok liquidatable →
      Risk.equity (m'.seats order.seatIndex) mark = .ok equity →
      ((m'.seats order.seatIndex).Healthy mark config ↔ liquidatable = false ∧
        |(m'.seats order.seatIndex).basePosition| * mark ≤ config.maximumLeverage * equity) := by
  obtain ⟨oracle, behavior, prepared, uses', hp⟩ := hm.placed h
  obtain rfl : uses' = uses := by
    simpa [huses] using (hp.uses_market .unchanged hm).symm
  obtain rfl : prepared.config = config := by simpa [hconfig] using hp.prepares.config.symm
  obtain rfl : prepared.side = side := by
    have heq := hp.prepares.shape
    rw [hshape] at heq
    exact (Prod.mk.inj (Except.ok.inj heq)).1.symm
  obtain ⟨_, _, _, _, _, hex⟩ := hp.executed
  obtain ⟨_, _, hs, -⟩ := hp.prepares.admitted
  refine ⟨?_, fun liquidatable equity => healthy_iff⟩
  rw [Healthy, hp.taker_position, hex.taker_value hc hs, hp.sum_gain]
  rfl

/-- Traders 7 and 8 deposit 1000, and trader 8 offers one contract. -/
def offerRun (price : I64) : List Action :=
  fundRun 1000 1000 ++ [.placeOrderV3 (call 8 1000) (limitOrder .ask 1 1 price)]

theorem offerRun_accepted {price : I64} (hp : price = 1000 ∨ price = 2000) :
    Run Action.Accepted genesis (offerRun price) (genesis.after (offerRun price)) := by
  rcases hp with rfl | rfl <;> exact run_accepted (by decide +kernel)

/-- Bought at the mark, the contract leaves trader 7 healthy. -/
theorem placeOrderV3_healthy_iff_of_offerRun : ∃ m' uses,
    placeOrderV3 (call 7 1000) (limitOrder .bid 0 1 1000) (genesis.after (offerRun 1000)).live =
      .ok () m' ∧
    (genesis.after (offerRun 1000)).live.usedMakers (call 7 1000) (limitOrder .bid 0 1 1000) none =
      .ok uses ∧
    (genesis.after (offerRun 1000)).live.Covers 0 .bid uses 1000 defaults ∧
    (m'.seats 0).Healthy 1000 defaults := by
  have hr := offerRun_accepted (.inl rfl)
  obtain ⟨m', hp, hh⟩ : ∃ m', placeOrderV3 (call 7 1000) (limitOrder .bid 0 1 1000)
      (genesis.after (offerRun 1000)).live = .ok () m' ∧ (m'.seats 0).Healthy 1000 defaults := by
    refine ⟨_, eq_ok_of_isOk (by decide +kernel), ?_⟩
    unfold Healthy
    decide +kernel
  have hco : readV3RiskConfig (genesis.after (offerRun 1000)).live.core =
      .ok defaults := by decide +kernel
  have hv := valid_of_run genesis_initial hr
  have hc := consistent_of_run genesis_initial hr (limitOrder .bid 0 1 1000).seatIndex
  obtain ⟨_, _, _, uses, hpl⟩ := hv.placed hp
  have hu := hpl.uses_market .unchanged hv
  exact ⟨m', uses, hp, hu, (placeOrderV3_healthy_iff hv hp hc hco rfl hu 1000).1.1 hh, hh⟩

/-- At twice the mark, the order is admitted at a mark of 1000, where the position then is worth
1000 less than it cost: the equity of the seat is -1. -/
theorem placeOrderV3_liquidatable : ∃ (w₀ w : World) (as : List Action) (ctx : Context)
    (order : PlaceOrderData) (mark : I64) (m' : Market), w₀.Initial ∧
    Run Action.Accepted w₀ as w ∧ oraclePriceAfterFreshness ctx w.live.core = .ok mark ∧
    readV3RiskConfig w.live.core = .ok defaults ∧
    placeOrderV3 ctx order w.live = .ok () m' ∧
    isLiquidatable (m'.seats order.seatIndex) mark.val
      defaults.maintenanceMarginBps = .ok true ∧
    equity (m'.seats order.seatIndex) mark.val = .ok (-1) ∧
    (m'.seats order.seatIndex).basePosition = 1 := by
  have hp : placeOrderV3 (call 7 1000) (limitOrder .bid 0 1 2000)
      (genesis.after (offerRun 2000)).live = .ok () (finalState _) :=
    eq_ok_of_isOk (by decide +kernel)
  exact ⟨genesis, genesis.after (offerRun 2000), offerRun 2000, call 7 1000,
    limitOrder .bid 0 1 2000, 1000, _, genesis_initial, offerRun_accepted (.inr rfl), rfl,
    by decide +kernel, hp, by decide +kernel⟩

end Equinox
