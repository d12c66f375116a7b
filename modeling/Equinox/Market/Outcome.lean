import Equinox.Market.Trades

/-! # What an order does to each seat

The fills of an accepted order move positions, its cancellations and fills give
back what the makers' orders held, and its remainder takes margin and exposure
from the taker. No other part of an order touches these fields of any seat.
-/

namespace Equinox

open Foundation CritBit Function Market TraderSeat V3SelfTradeCancellation List

variable {m m' : Market} {i j : ℕ} {k : OrderField} {seat : TraderSeat} {u : Unit}
  {config : V3RiskConfig}

def V3SelfTradeCancellation.share (cancel : V3SelfTradeCancellation) (bps i : ℕ)
    (k : OrderField) : ℤ :=
  if cancel.makerOwner % 2 ^ 16 = i then
    orderShare true cancel.side cancel.quantity
      (Risk.bpsOf (cancel.quantity * cancel.reservePrice) bps) k
  else 0

/-- What the filled part of a maker's order on one side gives back to a seat. -/
def V3Fill.share (fill : V3Fill) (side : Side) (bps i : ℕ) (k : OrderField) : ℤ :=
  if fill.makerOwner = i then
    orderShare (fill.makerRemaining = 0) side fill.quantity
      (Risk.bpsOf (fill.quantity * fill.reservePrice) bps) k
  else 0

def V3Fill.moves (fill : V3Fill) (taker : ℕ) (side : Side) (i : ℕ) : ℤ :=
  (if fill.makerOwner = i then side.opposite.signed fill.quantity else 0) +
    if taker = i then side.signed fill.quantity else 0

/-- What the remainder of an order takes from a seat. -/
def PreparedOrder.restShare (prepared : PreparedOrder) (order : PlaceOrderData) (i : ℕ)
    (k : OrderField) : ℤ :=
  if order.rests prepared.plan = true ∧ order.seatIndex = i then
    orderShare true prepared.side prepared.plan.takerRemaining
      (Risk.bpsOf (prepared.plan.takerRemaining * prepared.effectivePrice.val)
        prepared.config.initialMarginBps) k
  else 0

theorem TraderSeat.SameButOrders.basePosition {seat' : TraderSeat} (h : seat.SameButOrders seat') :
    seat'.basePosition = seat.basePosition := by
  obtain ⟨_, _, _, _, rfl⟩ := h
  rfl

variable {f : TraderSeat → ℤ}

theorem Market.field_withSeat {d : ℤ} (h : f seat = f (m.seats i) + d) :
    f ((m.withSeat i seat).seats j) = f (m.seats j) + if i = j then d else 0 := by
  by_cases hj : j = i
  · subst hj
    rw [seats_withSeat_self, if_pos rfl, h]
  · rw [seats_withSeat_of_ne hj, if_neg (Ne.symm hj), add_zero]

/-! ## The phases -/

theorem ordered_releaseCancelled {cancel : V3SelfTradeCancellation}
    (h : releaseCancelled config cancel m = .ok u m') (i : ℕ) (k : OrderField) :
    (m'.seats i).ordered k = (m.seats i).ordered k + -cancel.share config.initialMarginBps i k := by
  obtain ⟨-, released, hr, rfl⟩ := releaseCancelled_eq_ok h
  have ho := (release_eq_ok hr).2 k
  rw [sub_eq_add_neg] at ho
  rw [field_withSeat (f := (·.ordered k)) ho, share]
  split <;> simp

theorem position_releaseCancelled {cancel : V3SelfTradeCancellation}
    (h : releaseCancelled config cancel m = .ok u m') (i : ℕ) :
    (m'.seats i).basePosition = (m.seats i).basePosition := by
  obtain ⟨-, released, hr, rfl⟩ := releaseCancelled_eq_ok h
  have hpos := (release_eq_ok hr).1.basePosition
  rw [field_withSeat (f := (·.basePosition)) (d := 0) (by rw [hpos, add_zero])]
  simp

section Filled

variable {taker : ℕ} {side : Side} {fill : V3Fill} {makerFee takerFee : ℤ}
  {makerSeat takerSeat : TraderSeat}

section

variable (h : Filled taker side config fill makerFee takerFee makerSeat takerSeat m m')

include h

theorem Market.Filled.field {d d' : ℤ} (hm : f makerSeat = f (m.seats fill.makerOwner) + d)
    (ht : f takerSeat = f (m.seats taker) + d') (i : ℕ) :
    f (m'.seats i) = f (m.seats i) +
      ((if fill.makerOwner = i then d else 0) + if taker = i then d' else 0) := by
  have hne := h.distinct
  by_cases hti : i = taker
  · subst hti
    rw [h.seats_taker, ht, if_neg hne, if_pos rfl, zero_add]
  by_cases hmi : i = fill.makerOwner
  · subst hmi
    rw [h.seats_maker, hm, if_pos rfl, if_neg (Ne.symm hti), add_zero]
  · rw [h.seats_of_ne hmi hti, if_neg (Ne.symm hmi), if_neg (Ne.symm hti), add_zero, add_zero]

theorem Market.Filled.ordered (i : ℕ)
    (k : OrderField) : (m'.seats i).ordered k =
      (m.seats i).ordered k + -fill.share side.opposite config.initialMarginBps i k := by
  obtain ⟨filled, hf, hr⟩ := h.dealt_maker
  have hm := (release_eq_ok hr).2 k
  rw [hf.ordered, sub_eq_add_neg] at hm
  have ht : takerSeat.ordered k = (m.seats taker).ordered k + 0 := by
    rw [h.dealt_taker.ordered, add_zero]
  rw [h.field (f := (·.ordered k)) hm ht, V3Fill.share]
  split <;> simp

theorem Market.Filled.position (i : ℕ) :
    (m'.seats i).basePosition = (m.seats i).basePosition + fill.moves taker side i := by
  obtain ⟨filled, hf, hr⟩ := h.dealt_maker
  have hm : makerSeat.basePosition =
      (m.seats fill.makerOwner).basePosition + side.opposite.signed fill.quantity := by
    rw [(release_eq_ok hr).1.basePosition, hf.position]
  exact h.field hm h.dealt_taker.position i

end

end Filled

section Rest

variable {order : PlaceOrderData} {prepared : PreparedOrder}

theorem ordered_restRemainder (h : restRemainder order prepared m = .ok u m') (i : ℕ)
    (k : OrderField) : (m'.seats i).ordered k =
      (m.seats i).ordered k + prepared.restShare order i k := by
  rcases restRemainder_eq_ok h with ⟨hr, rfl⟩ | ⟨hr, -, reserved, _, _, -, hres, -, rfl⟩
  · simp [PreparedOrder.restShare, hr]
  · have ho := (reserve_eq_ok hres).2 k
    change ((m.withSeat order.seatIndex reserved).seats i).ordered k = _
    rw [field_withSeat (f := (·.ordered k)) ho]
    simp [PreparedOrder.restShare, hr]

theorem position_restRemainder (h : restRemainder order prepared m = .ok u m') (i : ℕ) :
    (m'.seats i).basePosition = (m.seats i).basePosition := by
  rcases restRemainder_eq_ok h with ⟨-, rfl⟩ | ⟨-, -, reserved, _, _, -, hr, -, rfl⟩
  · rfl
  · have hpos := (reserve_eq_ok hr).1.basePosition
    change ((m.withSeat order.seatIndex reserved).seats i).basePosition = _
    rw [field_withSeat (f := (·.basePosition)) (d := 0) (by rw [hpos, add_zero])]
    simp

theorem field_settleTakerFunding {acc payment : ℤ} (hf : ∀ seat : TraderSeat, ∀ pnl, f { seat with
      realizedPnl := pnl, lastFundingAccumulator := acc } = f seat)
    (h : settleTakerFunding j acc payment m = .ok u m') (i : ℕ) :
    f (m'.seats i) = f (m.seats i) := by
  rcases settleTakerFunding_eq_ok h with ⟨-, rfl⟩ | ⟨-, -, -, rfl⟩
  · rfl
  · rw [field_withSeat (f := f) (d := 0) (by rw [hf, add_zero])]
    simp

end Rest

/-! ## The whole order -/

section Executed

variable {order : PlaceOrderData} {prepared : PreparedOrder}
  {mBook mCancel mFill mRest mFund : Market}

section

variable (h : Executed order prepared m mBook mCancel mFill mRest mFund m')

include h

theorem Market.Executed.seats_book : mBook.seats = m.seats := by
  obtain ⟨b, -, rfl⟩ := h.book
  rfl

theorem Market.Executed.seats_record : m'.seats = mFund.seats := h.record.seats

theorem Market.Executed.ordered (i : ℕ)
    (k : OrderField) : (m'.seats i).ordered k = (m.seats i).ordered k -
      (prepared.plan.cancellations.map (·.share prepared.config.initialMarginBps i k)).sum -
      (prepared.plan.fills.map
        (·.share prepared.side.opposite prepared.config.initialMarginBps i k)).sum +
      prepared.restShare order i k := by
  obtain ⟨-, hc⟩ := run_forM_sum (P := fun _ => True) (g := fun s => (s.seats i).ordered k)
    (fun cancel _ s s' _ hr => ⟨trivial, ordered_releaseCancelled hr i k⟩) trivial h.cancel
  obtain ⟨-, hfi⟩ := run_forM_sum (P := fun _ => True) (g := fun s => (s.seats i).ordered k)
    (fun fill _ s s' _ hr => by
      obtain ⟨_, _, _, _, hf⟩ := settleV3Fill_eq_ok hr
      exact ⟨trivial, hf.ordered i k⟩) trivial h.fill
  have hfu := field_settleTakerFunding (f := (·.ordered k))
    (fun seat pnl => by cases k <;> rfl) h.fund i
  rw [h.seats_record, hfu, ordered_restRemainder h.rest, hfi, hc, h.seats_book]
  simp only [sub_eq_add_neg, sum_neg, map_map, comp_def]

/-- Matching closes orders, and only a remainder opens one. -/
theorem Market.Executed.openOrderCount_le (i : ℕ) : (m'.seats i).openOrderCount ≤
    (m.seats i).openOrderCount + (order.rests prepared.plan).toNat := by
  have ho : ((m'.seats i).openOrderCount : ℤ) = (m.seats i).openOrderCount - _ - _ + _ :=
    h.ordered i .count
  have hc : 0 ≤ (prepared.plan.cancellations.map
      (·.share prepared.config.initialMarginBps i .count)).sum := by
    refine sum_nonneg (forall_mem_map.2 fun cancel _ => ?_)
    simp only [share, orderShare]
    split <;> simp
  have hf : 0 ≤ (prepared.plan.fills.map
      (·.share prepared.side.opposite prepared.config.initialMarginBps i .count)).sum := by
    refine sum_nonneg (forall_mem_map.2 fun fill _ => ?_)
    simp only [V3Fill.share, orderShare]
    split <;> simp
  have hr : prepared.restShare order i .count ≤ (order.rests prepared.plan).toNat := by
    simp only [PreparedOrder.restShare, orderShare]
    split <;> simp_all
  omega

theorem Market.Executed.position_cancel (i : ℕ) :
    (mCancel.seats i).basePosition = (m.seats i).basePosition := by
  refine run_forM_invariant
    (P := fun s => (s.seats i).basePosition = (m.seats i).basePosition)
    (fun cancel _ s s' hs hr => ?_) (by rw [h.seats_book]) h.cancel
  rw [position_releaseCancelled hr, hs]

end

theorem position_settleV3Fills {taker : ℕ} {side : Side} {fills : List V3Fill}
    (h : fills.forM (settleV3Fill taker side config) m = .ok u m') (i : ℕ) :
    (m'.seats i).basePosition = (m.seats i).basePosition + (fills.map (·.moves taker side i)).sum :=
  (run_forM_sum (P := fun _ => True) (g := fun s => (s.seats i).basePosition)
    (fun fill _ s s' _ hr => by
      obtain ⟨_, _, _, _, hf⟩ := settleV3Fill_eq_ok hr
      exact ⟨trivial, hf.position i⟩) trivial h).2

theorem Market.Executed.position
    (h : Executed order prepared m mBook mCancel mFill mRest mFund m') (i : ℕ) :
    (m'.seats i).basePosition = (m.seats i).basePosition +
      (prepared.plan.fills.map (·.moves order.seatIndex prepared.side i)).sum := by
  have hf := field_settleTakerFunding (f := (·.basePosition)) (fun _ _ => rfl) h.fund i
  rw [h.seats_record, hf, position_restRemainder h.rest, position_settleV3Fills h.fill,
    h.position_cancel]

theorem Side.opposite_ne (side : Side) : side.opposite ≠ side := by
  cases side <;> simp [opposite]

/-- Only applying the plan and inserting the remainder touch the books. -/
theorem Market.Executed.books
    (h : Executed order prepared m mBook mCancel mFill mRest mFund m') :
    PagedBookV3.applyMatchPlan prepared.plan (m.books prepared.side.opposite) =
        .ok () (m'.books prepared.side.opposite) ∧
      ((order.rests prepared.plan = false ∧ m'.books prepared.side = m.books prepared.side) ∨
        (order.rests prepared.plan = true ∧ ∃ handle,
          PagedBookV3.insertRestingOrder prepared.tree
            { prepared.leaf with quantity := prepared.plan.takerRemaining }
            (m.books prepared.side) = .ok handle (m'.books prepared.side))) := by
  have hne := prepared.side.opposite_ne
  have hc : mCancel.books = mBook.books := by
    refine run_forM_invariant (P := fun s => s.books = mBook.books) (fun cancel _ s s' hs hr => ?_)
      rfl h.cancel
    obtain ⟨-, _, -, rfl⟩ := releaseCancelled_eq_ok hr
    exact hs
  have hfi : mFill.books = mBook.books := by
    refine run_forM_invariant (P := fun s => s.books = mBook.books) (fun fill _ s s' hs hr => ?_)
      hc h.fill
    obtain ⟨_, _, _, _, hf⟩ := settleV3Fill_eq_ok hr
    rw [hf.result]
    exact hs
  have hrest : m'.books = mRest.books := by
    rw [h.record.books]
    rcases settleTakerFunding_eq_ok h.fund with ⟨-, rfl⟩ | ⟨-, -, -, rfl⟩ <;> rfl
  obtain ⟨b, hp, hb⟩ := h.book
  rcases restRemainder_eq_ok h.rest with ⟨hre, rfl⟩ | ⟨hre, -, _, handle, b', -, -, hi, rfl⟩
  · rw [hrest, hfi, hb]
    dsimp only
    rw [update_self, update_of_ne hne.symm]
    exact ⟨hp, .inl ⟨hre, rfl⟩⟩
  · rw [hrest]
    dsimp only
    rw [update_of_ne hne, update_self, hfi, hb]
    dsimp only
    rw [update_self]
    rw [hfi, hb] at hi
    dsimp only at hi
    rw [update_of_ne hne.symm] at hi
    exact ⟨hp, .inr ⟨hre, handle, hi⟩⟩

end Executed

end Equinox
