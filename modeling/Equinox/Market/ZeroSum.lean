import Equinox.Foundation.Sums
import Equinox.Market.World

/-! # Orders are zero-sum

An accepted order moves positions and cash between seats: positions sum to what
they did before, and what all seats together are worth drops, at every mark, by
the fees the protocol earns.
-/

namespace Equinox

open Foundation CritBit Finset World TraderSeat Market

variable {m m' m'' : Market} {ctx : Context} {i : ℕ} {seat : TraderSeat} {u : Unit}

def Market.sum (m : Market) (f : TraderSeat → ℤ) : ℤ :=
  ∑ i ∈ range v3SeatCount, f (m.seats i)

theorem Market.sum_withSeat (f : TraderSeat → ℤ) (hi : i < v3SeatCount) :
    (m.withSeat i seat).sum f = m.sum f + (f seat - f (m.seats i)) :=
  sum_range_update m.seats f seat hi

theorem Market.sum_eq_of_seats_eq (f : TraderSeat → ℤ) (h : m'.seats = m.seats) :
    m'.sum f = m.sum f := by
  unfold sum
  rw [h]

/-- Flat seats carry no entry value, and seats in use have settled their funding. -/
def Market.Settled (m : Market) : Prop :=
  ∀ i < v3SeatCount, (m.seats i).Consistent ∧
    ((m.seats i).occupancy = true → (m.seats i).lastFundingAccumulator = m.core.fundingAccumulator)

instance (seat : TraderSeat) : Decidable seat.Consistent := by
  unfold TraderSeat.Consistent; infer_instance

instance (m : Market) : Decidable m.Settled := by
  unfold Settled; infer_instance

/-- Positions and, up to fees, values only move between seats. -/
structure Market.ZeroSum (m m' : Market) : Prop where
  accumulator : m'.core.fundingAccumulator = m.core.fundingAccumulator
  ledger : m'.core.vaultLiability + m'.core.protocolFeeBalance =
    m.core.vaultLiability + m.core.protocolFeeBalance
  position : m'.sum basePosition = m.sum basePosition
  settled : m.Settled → m'.Settled
  value : m.Settled → ∀ mark, m'.sum (value · mark) + m'.core.protocolFeeBalance =
    m.sum (value · mark) + m.core.protocolFeeBalance

theorem Market.ZeroSum.trans (h : m.ZeroSum m') (h' : m'.ZeroSum m'') : m.ZeroSum m'' where
  accumulator := h'.accumulator.trans h.accumulator
  ledger := h'.ledger.trans h.ledger
  position := h'.position.trans h.position
  settled hm := h'.settled (h.settled hm)
  value hm mark := (h'.value (h.settled hm) mark).trans (h.value hm mark)

theorem Market.ZeroSum.of_seats_eq (hs : m'.seats = m.seats)
    (ha : m'.core.fundingAccumulator = m.core.fundingAccumulator)
    (hl : m'.core.vaultLiability = m.core.vaultLiability)
    (hp : m'.core.protocolFeeBalance = m.core.protocolFeeBalance) : m.ZeroSum m' where
  accumulator := ha
  ledger := by rw [hl, hp]
  position := m.sum_eq_of_seats_eq _ hs
  settled hm := by rw [Settled, hs, ha]; exact hm
  value _ mark := by rw [m.sum_eq_of_seats_eq _ hs, hp]

theorem Market.SameLedgers.zeroSum (h : m.SameLedgers m') : m.ZeroSum m' := by
  obtain ⟨⟨_, hc⟩, -, hs⟩ := h
  exact .of_seats_eq hs (by rw [hc]) (by rw [hc]) (by rw [hc])

theorem Market.Settled.withSeat (hm : m.Settled) (hc : seat.Consistent)
    (hf : seat.occupancy = true → seat.lastFundingAccumulator = m.core.fundingAccumulator) :
    (m.withSeat i seat).Settled := by
  intro j hlt
  rcases eq_or_ne j i with rfl | hj
  · rw [seats_withSeat_self]
    exact ⟨hc, hf⟩
  · rw [seats_withSeat_of_ne hj]
    exact hm j hlt

theorem TraderSeat.SameButOrders.zeroSum (h : (m.seats i).SameButOrders seat)
    (hi : i < v3SeatCount) : m.ZeroSum (m.withSeat i seat) where
  accumulator := rfl
  ledger := rfl
  position := by
    rw [sum_withSeat _ hi]
    obtain ⟨_, _, _, _, rfl⟩ := h
    simp
  settled hm := hm.withSeat (h.consistent (hm i hi).1) (by
    obtain ⟨_, _, _, _, rfl⟩ := h
    exact (hm i hi).2)
  value _ mark := by
    rw [sum_withSeat _ hi, h.value mark]
    simp

theorem Side.signed_opposite (side : Side) (quantity : ℕ) :
    side.opposite.signed quantity = -side.signed quantity := by
  cases side <;> simp [signed, opposite]

theorem Market.Filled.zeroSum {taker : ℕ} {side : Side} {config : V3RiskConfig} {fill : V3Fill}
    {makerFee takerFee : ℤ} {makerSeat takerSeat : TraderSeat}
    (h : Filled taker side config fill makerFee takerFee makerSeat takerSeat m m') :
    m.ZeroSum m' := by
  obtain ⟨filled, hma, hr⟩ := h.dealt_maker
  have ht := h.dealt_taker
  obtain ⟨_, _, _, _, hs⟩ := (release_eq_ok hr).1
  have hsum (f : TraderSeat → ℤ) : m'.sum f = m.sum f +
      (f makerSeat - f (m.seats fill.makerOwner)) + (f takerSeat - f (m.seats taker)) := by
    rw [h.result, sum_withSeat _ h.taker_lt, sum_withSeat _ h.maker_lt,
      seats_withSeat_of_ne h.distinct.symm]
    rfl
  have hc : m'.core = { m.core with
      protocolFeeBalance := m.core.protocolFeeBalance + (makerFee + takerFee)
      vaultLiability := m.core.vaultLiability - (makerFee + takerFee) } := by rw [h.result]; rfl
  constructor
  · rw [hc]
  · rw [hc]
    dsimp only
    omega
  · have hm : makerSeat.basePosition = filled.basePosition := by rw [hs]
    rw [hsum, hm, hma.position, ht.position, Side.signed_opposite]
    omega
  · intro hm
    have hmak : makerSeat.Consistent ∧
        makerSeat.lastFundingAccumulator = m.core.fundingAccumulator := by
      rw [hs]
      exact ⟨hma.consistent (hm _ h.maker_lt).1, hma.funded⟩
    rw [h.result]
    refine Settled.withSeat (Settled.withSeat ?_ hmak.1 fun _ => hmak.2)
      (ht.consistent (hm taker h.taker_lt).1) fun _ => ht.funded
    exact hm
  · intro hm mark
    have hm' : makerSeat.value mark = filled.value mark := by
      rw [hs]
      rfl
    have hvm := hma.value ((hm _ h.maker_lt).2 h.maker_occupied) (hm _ h.maker_lt).1 mark
    have hvt := ht.value ((hm _ h.taker_lt).2 h.taker_occupied) (hm _ h.taker_lt).1 mark
    rw [hsum, hm', hvm, hvt, Side.signed_opposite, hc]
    ring

section Executed

variable {order : PlaceOrderData} {prepared : PreparedOrder}
  {mBook mCancel mFill mRest mFund : Market}

theorem zeroSum_of_releaseCancelled {config : V3RiskConfig} {cancel : V3SelfTradeCancellation}
    (h : releaseCancelled config cancel m = .ok u m') : m.ZeroSum m' := by
  obtain ⟨hi, released, hr, rfl⟩ := releaseCancelled_eq_ok h
  exact (release_eq_ok hr).1.zeroSum hi

theorem zeroSum_of_restRemainder (h : restRemainder order prepared m = .ok u m') :
    m.ZeroSum m' := by
  rcases restRemainder_eq_ok h with ⟨-, rfl⟩ | ⟨-, hi, reserved, _, _, -, hr, -, rfl⟩
  · exact .of_seats_eq rfl rfl rfl rfl
  · exact ((reserve_eq_ok hr).1.zeroSum hi).trans (.of_seats_eq rfl rfl rfl rfl)

theorem settleTakerFunding_of_settled {payment : ℤ} (hm : m.Settled)
    (h : settleTakerFunding i m.core.fundingAccumulator payment m = .ok u m') : m' = m := by
  rcases settleTakerFunding_eq_ok h with ⟨-, rfl⟩ | ⟨hi, ho, hne, -⟩
  · rfl
  · exact absurd ((hm i hi).2 ho) hne

theorem Market.Executed.zeroSum (hm : m.Settled)
    (h : Executed order prepared m mBook mCancel mFill mRest mFund m') : m.ZeroSum m' := by
  have hb : m.ZeroSum mBook := by
    obtain ⟨b, -, rfl⟩ := h.book
    exact .of_seats_eq rfl rfl rfl rfl
  have hc : m.ZeroSum mCancel := run_forM_invariant (P := m.ZeroSum)
    (fun cancel _ s s' hs hr => hs.trans (zeroSum_of_releaseCancelled hr)) hb h.cancel
  have hfi : m.ZeroSum mFill := by
    refine run_forM_invariant (P := m.ZeroSum) (fun fill _ s s' hs hr => ?_) hc h.fill
    obtain ⟨_, _, _, _, hf⟩ := settleV3Fill_eq_ok hr
    exact hs.trans hf.zeroSum
  have hre : m.ZeroSum mRest := hfi.trans (zeroSum_of_restRemainder h.rest)
  have hfu := h.fund
  rw [← hre.accumulator] at hfu
  obtain rfl := settleTakerFunding_of_settled (hre.settled hm) hfu
  have hrec : mFund.ZeroSum (mFund.recorded prepared.sequence) := .of_seats_eq rfl rfl rfl rfl
  exact (hre.trans hrec).trans h.record.zeroSum

end Executed

/-- An accepted order moves positions only between seats, and lowers what all seats are worth, at
every mark, by what the protocol earns and the liability loses. -/
theorem placeOrderV3_zeroSum {order : PlaceOrderData} (hm : m.Settled)
    (h : placeOrderV3 ctx order m = .ok () m') :
    m'.sum TraderSeat.basePosition = m.sum TraderSeat.basePosition ∧
      (∀ mark, m'.sum (TraderSeat.value · mark) = m.sum (TraderSeat.value · mark) -
        (m'.core.protocolFeeBalance - m.core.protocolFeeBalance)) ∧
      (∀ (mark : ℤ) (equity equity' : ℕ → ℤ),
        (∀ i < v3SeatCount, Risk.equity (m.seats i) mark = .ok (equity i)) →
        (∀ i < v3SeatCount, Risk.equity (m'.seats i) mark = .ok (equity' i)) →
        ∑ i ∈ range v3SeatCount, equity' i = ∑ i ∈ range v3SeatCount, equity i -
          (m'.core.protocolFeeBalance - m.core.protocolFeeBalance)) ∧
      m'.core.protocolFeeBalance - m.core.protocolFeeBalance =
        m.core.vaultLiability - m'.core.vaultLiability := by
  obtain ⟨_, _, _, _, _, _, -, hex⟩ := placeOrderV3WithAction_eq_ok h
  have hz := hex.zeroSum hm
  have hv (mark : ℤ) : m'.sum (TraderSeat.value · mark) = m.sum (TraderSeat.value · mark) -
      (m'.core.protocolFeeBalance - m.core.protocolFeeBalance) := by
    have := hz.value hm mark
    omega
  refine ⟨hz.position, hv, fun mark equity equity' he he' => ?_, ?_⟩
  · have hsum : ∑ i ∈ range v3SeatCount, equity i = m.sum (TraderSeat.value · mark) :=
      sum_congr rfl fun i hi => Risk.equity_eq_value (he i (mem_range.1 hi))
    have hs' : ∑ i ∈ range v3SeatCount, equity' i = m'.sum (TraderSeat.value · mark) :=
      sum_congr rfl fun i hi => Risk.equity_eq_value (he' i (mem_range.1 hi))
    rw [hsum, hs', hv]
  · have hl := hz.ledger
    omega

def crossing : Market :=
  (genesis.after (fundRun 2500 1000 ++
    [.placeOrderV3 (call 7 1000)
      (limitOrder .bid 0 10 1000)])).live

theorem placeOrderV3_zeroSum_of_crossing : ∃ m',
    placeOrderV3 (call 8 1000) (limitOrder .ask 1 10 1000) crossing = .ok () m' ∧
    m'.sum basePosition = crossing.sum basePosition ∧
    (∀ mark, m'.sum (value · mark) = crossing.sum (value · mark) -
      (m'.core.protocolFeeBalance - crossing.core.protocolFeeBalance)) ∧
    m'.core.protocolFeeBalance - crossing.core.protocolFeeBalance =
      crossing.core.vaultLiability - m'.core.vaultLiability := by
  have hs : crossing.Settled := by decide +kernel
  obtain ⟨m', hp⟩ : ∃ m', placeOrderV3 (call 8 1000) (limitOrder .ask 1 10 1000) crossing =
      .ok () m' := ⟨_, eq_ok_of_isOk (by decide +kernel)⟩
  obtain ⟨hb, hv, -, hf⟩ := placeOrderV3_zeroSum hs hp
  exact ⟨m', hp, hb, hv, hf⟩

end Equinox
