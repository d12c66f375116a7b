import Equinox.Market.Settle
import Equinox.Risk.Fill

/-! # What trading leaves alone

An accepted order, cancellation or replacement moves positions, margins and
fees, but no trader's claim on the vault: collateral and both custody counters
of every seat stay, and what the liability loses the protocol gains.
-/

namespace Equinox

open Foundation CritBit Function Market Risk List

variable {m m' m'' : Market} {ctx : Context} {i j : ℕ} {seat seat' seat'' : TraderSeat} {u : Unit}

/-! ## Frames -/

/-- Nothing changed but events and sessions. -/
structure Market.SameLedgers (m m' : Market) : Prop where
  core : ∃ sequence, m'.core = { m.core with globalEventSequence := sequence }
  books : m'.books = m.books
  seats : m'.seats = m.seats

theorem Market.Logged.sameLedgers (h : m.Logged m') : m.SameLedgers m' := ⟨h.core, h.books, h.seats⟩

theorem Market.SameLedgers.trans (h : m.SameLedgers m') (h' : m'.SameLedgers m'') :
    m.SameLedgers m'' := by
  obtain ⟨⟨s, hs⟩, hb, hse⟩ := h
  obtain ⟨⟨s', hs'⟩, hb', hse'⟩ := h'
  exact ⟨⟨s', by rw [hs', hs]⟩, hb'.trans hb, hse'.trans hse⟩

variable {nonce : ℕ}

theorem sameLedgers_of_consumeSession {session : Option TradingSession} {key : SessionKey}
    {notional : ℤ} {now : ℕ}
    (h : consumeSession session key notional nonce now m = .ok u m') : m.SameLedgers m' := by
  obtain ⟨sessions, rfl⟩ := run_consumeSession h
  exact ⟨⟨_, rfl⟩, rfl, rfl⟩

/-- A seat's holder and its claims on the vault are as they were. -/
structure TraderSeat.SameClaims (seat seat' : TraderSeat) : Prop where
  occupancy : seat'.occupancy = seat.occupancy
  trader : seat'.trader = seat.trader
  availableCollateral : seat'.availableCollateral = seat.availableCollateral
  inboxCredited : seat'.inboxCredited = seat.inboxCredited
  withdrawalRequested : seat'.withdrawalRequested = seat.withdrawalRequested

theorem TraderSeat.SameClaims.refl (seat : TraderSeat) : seat.SameClaims seat :=
  ⟨rfl, rfl, rfl, rfl, rfl⟩

theorem TraderSeat.SameClaims.trans (h : seat.SameClaims seat') (h' : seat'.SameClaims seat'') :
    seat.SameClaims seat'' :=
  ⟨h'.1.trans h.1, h'.2.trans h.2, h'.3.trans h.3, h'.4.trans h.4, h'.5.trans h.5⟩

/-- What trading may do: fees pass from the liability to the protocol, which never overdraws it,
and seats keep their claims. -/
structure Market.Traded (m m' : Market) : Prop where
  claims : ∀ i, (m.seats i).SameClaims (m'.seats i)
  consistent : ∀ i, (m.seats i).Consistent → (m'.seats i).Consistent
  core : ∃ fees openInterest orderSequence eventSequence,
    0 ≤ fees ∧ (0 ≤ m.core.vaultLiability → fees ≤ m.core.vaultLiability) ∧
    (0 ≤ m.core.currentOpenInterest → 0 ≤ openInterest) ∧ m'.core = { m.core with
      protocolFeeBalance := m.core.protocolFeeBalance + fees
      vaultLiability := m.core.vaultLiability - fees
      currentOpenInterest := openInterest
      globalOrderSequence := orderSequence
      globalEventSequence := eventSequence }

theorem Market.Traded.of_core_eq (hs : ∀ i, (m.seats i).SameClaims (m'.seats i) ∧
    ((m.seats i).Consistent → (m'.seats i).Consistent)) (hc : m'.core = m.core) :
    m.Traded m' :=
  ⟨fun i => (hs i).1, fun i => (hs i).2,
    ⟨0, m.core.currentOpenInterest, m.core.globalOrderSequence, m.core.globalEventSequence,
      le_rfl, id, id, by rw [hc]; simp⟩⟩

theorem Market.Traded.of_seats_eq (hs : m'.seats = m.seats) (hc : m'.core = m.core) :
    m.Traded m' := .of_core_eq (fun i => by rw [hs]; exact ⟨.refl _, id⟩) hc

theorem Market.Traded.withSeat (hc : (m.seats i).SameClaims seat)
    (hf : (m.seats i).Consistent → seat.Consistent) : m.Traded (m.withSeat i seat) := by
  refine .of_core_eq (fun j => ?_) rfl
  rcases eq_or_ne j i with rfl | hj
  · rw [seats_withSeat_self]
    exact ⟨hc, hf⟩
  · rw [seats_withSeat_of_ne hj]
    exact ⟨.refl _, id⟩

theorem Market.SameLedgers.traded (h : m.SameLedgers m') : m.Traded m' := by
  obtain ⟨⟨s, hs⟩, -, hse⟩ := h
  refine ⟨fun i => by rw [hse]; exact .refl _, fun i => by rw [hse]; exact id,
    ⟨0, m.core.currentOpenInterest, m.core.globalOrderSequence, s, le_rfl, id, id, ?_⟩⟩
  rw [hs]
  simp

theorem Market.Traded.trans (h : m.Traded m') (h' : m'.Traded m'') : m.Traded m'' := by
  obtain ⟨hc, hf, ⟨fees, oi, os, es, h0, hl, ho, hco⟩⟩ := h
  obtain ⟨hc', hf', ⟨fees', oi', os', es', h0', hl', ho', hco'⟩⟩ := h'
  rw [hco] at hl' ho' hco'
  refine ⟨fun i => (hc i).trans (hc' i), fun i => hf' i ∘ hf i,
    ⟨fees + fees', oi', os', es', by omega, fun hn => ?_, fun hn => ho' (ho hn), ?_⟩⟩
  · have := hl hn
    have := hl' (by dsimp only; omega)
    dsimp only at this
    omega
  · rw [hco']
    simp only [add_assoc, sub_sub]

/-! ## Releasing and reserving -/

/-- What resting orders take from a seat. -/
inductive OrderField where
  | count | bid | ask | margin
  deriving DecidableEq

def TraderSeat.ordered (seat : TraderSeat) : OrderField → ℤ
  | .count => seat.openOrderCount
  | .bid => seat.openBidExposure
  | .ask => seat.openAskExposure
  | .margin => seat.reservedMargin

/-- The share of an order, or of the filled part of one. -/
def orderShare (closes : Bool) (side : Side) (quantity : ℕ) (margin : ℤ) : OrderField → ℤ
  | .count => closes.toNat
  | .bid => if side = .bid then quantity else 0
  | .ask => if side = .ask then quantity else 0
  | .margin => margin

def TraderSeat.SameButOrders (seat seat' : TraderSeat) : Prop :=
  ∃ margin count bid ask, seat' = { seat with
    reservedMargin := margin, openOrderCount := count, openBidExposure := bid,
    openAskExposure := ask }

theorem TraderSeat.SameButOrders.sameClaims (h : seat.SameButOrders seat') :
    seat.SameClaims seat' := by
  obtain ⟨_, _, _, _, rfl⟩ := h
  exact ⟨rfl, rfl, rfl, rfl, rfl⟩

theorem TraderSeat.SameButOrders.consistent (h : seat.SameButOrders seat') :
    seat.Consistent → seat'.Consistent := by
  obtain ⟨_, _, _, _, rfl⟩ := h
  exact id

theorem TraderSeat.SameButOrders.value (h : seat.SameButOrders seat') (mark : ℤ) :
    seat'.value mark = seat.value mark := by
  obtain ⟨_, _, _, _, rfl⟩ := h
  rfl

theorem TraderSeat.withExposure_sameButOrders (side : Side) (margin exposure : ℤ) (count : ℕ) :
    seat.SameButOrders ({ seat with
      reservedMargin := margin, openOrderCount := count }.withExposure side exposure) := by
  cases side <;> exact ⟨_, _, _, _, rfl⟩

variable {margin : ℤ} {side : Side} {quantity : ℕ}

theorem TraderSeat.release_eq_ok {closes : Bool}
    (h : seat.release margin closes side quantity = .ok seat') :
    seat.SameButOrders seat' ∧
      ∀ k, seat'.ordered k = seat.ordered k - orderShare closes side quantity margin k := by
  simp only [release, ok_rules, exists_checkedI128] at h
  obtain ⟨-, hc, -, rfl⟩ := h
  refine ⟨withExposure_sameButOrders .., fun k => ?_⟩
  have hco : ((seat.openOrderCount - closes.toNat : ℕ) : ℤ) =
      seat.openOrderCount - closes.toNat := by
    cases closes
    · simp
    · have := hc rfl
      simp only [Bool.toNat_true]
      omega
  cases side <;> cases k <;> simp [withExposure, ordered, orderShare, openExposure, hco]

theorem TraderSeat.reserve_eq_ok
    (h : seat.reserve margin side quantity = .ok seat') :
    seat.SameButOrders seat' ∧
      ∀ k, seat'.ordered k = seat.ordered k + orderShare true side quantity margin k := by
  simp only [reserve, ok_rules, exists_checkedI128] at h
  obtain ⟨-, -, -, -, -, rfl⟩ := h
  refine ⟨withExposure_sameButOrders .., fun k => ?_⟩
  cases side <;> cases k <;> simp [withExposure, ordered, orderShare, openExposure]

variable {config : V3RiskConfig}

theorem reserveMargin_eq_ok {price : ℤ}
    (h : reserveMargin config quantity price = .ok margin) :
    margin = bpsOf (quantity * price) config.initialMarginBps := by
  simp only [reserveMargin, bind_eq_ok, exists_checkedI128, riskOk_eq_ok, initialMargin_eq_ok] at h
  exact h.2.2.symm

/-! ## The phases of an order -/

theorem releaseCancelled_eq_ok {cancel : V3SelfTradeCancellation}
    (h : releaseCancelled config cancel m = .ok u m') :
    cancel.makerOwner % 2 ^ 16 < v3SeatCount ∧ ∃ released,
      (m.seats (cancel.makerOwner % 2 ^ 16)).release
        (bpsOf (cancel.quantity * cancel.reservePrice) config.initialMarginBps) true
        cancel.side cancel.quantity = .ok released ∧
      m' = m.withSeat (cancel.makerOwner % 2 ^ 16) released := by
  simp only [releaseCancelled, run_rules, v3TradeSeat_eq_ok, run_writeV3Seat] at h
  obtain ⟨seat, ⟨hi, -, -, rfl⟩, margin, hm, released, hr, rfl⟩ := h
  rw [reserveMargin_eq_ok hm] at hr
  exact ⟨hi, released, hr, rfl⟩

/-- One fill: both seats settle their funding and trade, the maker's order shrinks, and the fees
pass from the liability to the protocol. -/
structure Market.Filled (taker : ℕ) (side : Side) (config : V3RiskConfig) (fill : V3Fill)
    (makerFee takerFee : ℤ) (makerSeat takerSeat : TraderSeat) (m m' : Market) : Prop where
  maker_lt : fill.makerOwner < v3SeatCount
  taker_lt : taker < v3SeatCount
  distinct : fill.makerOwner ≠ taker
  maker_occupied : (m.seats fill.makerOwner).occupancy = true
  taker_occupied : (m.seats taker).occupancy = true
  maker_dealt : ∃ payment settled filled,
    settleFunding (m.seats fill.makerOwner) m.core.fundingAccumulator =
      .ok (payment, settled) ∧
    applyFill settled (side.opposite.signed fill.quantity) fill.price config.makerFeeBps =
      .ok (makerFee, filled) ∧
    filled.release (bpsOf (fill.quantity * fill.reservePrice) config.initialMarginBps)
      (fill.makerRemaining = 0) side.opposite fill.quantity = .ok makerSeat
  taker_dealt : ∃ payment settled,
    settleFunding (m.seats taker) m.core.fundingAccumulator = .ok (payment, settled) ∧
    applyFill settled (side.signed fill.quantity) fill.price config.takerFeeBps =
      .ok (takerFee, takerSeat)
  covered : makerFee + takerFee ≤ m.core.vaultLiability
  result : m' = ({ m with core := { m.core with
    protocolFeeBalance := m.core.protocolFeeBalance + (makerFee + takerFee)
    vaultLiability := m.core.vaultLiability - (makerFee + takerFee) } }.withSeat
      fill.makerOwner makerSeat).withSeat taker takerSeat

theorem settleV3Fill_eq_ok {taker : ℕ} {fill : V3Fill}
    (h : settleV3Fill taker side config fill m = .ok u m') :
    ∃ makerFee takerFee makerSeat takerSeat,
      Filled taker side config fill makerFee takerFee makerSeat takerSeat m m' := by
  simp only [settleV3Fill, run_rules, exists_checkedI128, riskOk_eq_ok, v3TradeSeat_eq_ok,
    run_modifyCore_bind, run_writeV3Seat_bind, run_writeV3Seat] at h
  obtain ⟨-, hne, maker, ⟨hm, hmo, -, rfl⟩, takerSeat, ⟨ht, hto, -, rfl⟩, ⟨_, maker₁⟩, hms,
    ⟨_, taker₁⟩, hts, ⟨makerFee, maker₂⟩, hmf, ⟨takerFee, taker₂⟩, htf, margin, hma, released,
    hr, -, -, -, h0, rfl⟩ := h
  rw [reserveMargin_eq_ok hma] at hr
  exact ⟨makerFee, takerFee, released, taker₂, hm, ht, hne, hmo, hto, ⟨_, _, _, hms, hmf, hr⟩,
    ⟨_, _, hts, htf⟩, by omega, rfl⟩

/-- A seat's own part of a fill, after its funding. -/
structure TraderSeat.Dealt (accumulator quantity price fee : ℤ) (seat seat' : TraderSeat) :
    Prop where
  claims : seat.SameClaims seat'
  consistent : seat.Consistent → seat'.Consistent
  ordered : ∀ k, seat'.ordered k = seat.ordered k
  position : seat'.basePosition = seat.basePosition + quantity
  funded : seat'.lastFundingAccumulator = accumulator
  fee_nonneg : 0 ≤ fee
  value : seat.lastFundingAccumulator = accumulator → seat.Consistent →
    ∀ mark, seat'.value mark = seat.value mark + quantity * (mark - price) - fee

variable {payment : ℤ}

theorem TraderSeat.dealt {accumulator quantity price fee : ℤ} {bps : ℕ}
    (hs : settleFunding seat accumulator = .ok (payment, seat'))
    (hf : applyFill seat' quantity price bps = .ok (fee, seat'')) :
    seat.Dealt accumulator quantity price fee seat'' := by
  obtain ⟨-, hs'⟩ := settleFunding_eq_ok hs
  obtain ⟨hp, hfee, e, r, -, hs''⟩ := applyFill_eq_ok hf
  have hco : seat.Consistent → seat'.Consistent := by
    rw [hs']
    exact id
  constructor
  · rw [hs'', hs']
    exact ⟨rfl, rfl, rfl, rfl, rfl⟩
  · exact fun hc => (value_applyFill (hco hc) hf).1
  · intro k
    rw [hs'', hs']
    cases k <;> rfl
  · rw [hs'', hs']
  · rw [hs'', hs']
  · rw [hfee]
    exact bpsOf_nonneg (by positivity)
  · intro ha hc mark
    subst ha
    obtain ⟨-, rfl⟩ := settleFunding_self hs
    exact (value_applyFill hc hf).2 mark

section Filled

variable {taker : ℕ} {side : Side} {config : V3RiskConfig} {fill : V3Fill} {makerFee takerFee : ℤ}
  {makerSeat takerSeat : TraderSeat}

section

variable (h : Filled taker side config fill makerFee takerFee makerSeat takerSeat m m')

include h

theorem Market.Filled.seats_taker : m'.seats taker = takerSeat := by
  rw [h.result, seats_withSeat_self]

theorem Market.Filled.seats_maker : m'.seats fill.makerOwner = makerSeat := by
  rw [h.result, seats_withSeat_of_ne h.distinct, seats_withSeat_self]

theorem Market.Filled.seats_of_ne (hm : i ≠ fill.makerOwner) (ht : i ≠ taker) :
    m'.seats i = m.seats i := by
  rw [h.result, seats_withSeat_of_ne ht, seats_withSeat_of_ne hm]

theorem Market.Filled.dealt_maker :
    ∃ filled, (m.seats fill.makerOwner).Dealt m.core.fundingAccumulator
        (side.opposite.signed fill.quantity) fill.price makerFee filled ∧
      filled.release (bpsOf (fill.quantity * fill.reservePrice) config.initialMarginBps)
        (fill.makerRemaining = 0) side.opposite fill.quantity = .ok makerSeat := by
  obtain ⟨_, _, filled, hs, hf, hr⟩ := h.maker_dealt
  exact ⟨filled, TraderSeat.dealt hs hf, hr⟩

theorem Market.Filled.dealt_taker :
    (m.seats taker).Dealt m.core.fundingAccumulator (side.signed fill.quantity) fill.price takerFee
      takerSeat := by
  obtain ⟨_, _, hs, hf⟩ := h.taker_dealt
  exact TraderSeat.dealt hs hf

theorem Market.Filled.traded : m.Traded m' := by
  obtain ⟨filled, hf, hr⟩ := h.dealt_maker
  have hb := (TraderSeat.release_eq_ok hr).1
  have hs (i : ℕ) : (m.seats i).SameClaims (m'.seats i) ∧
      ((m.seats i).Consistent → (m'.seats i).Consistent) := by
    by_cases ht : i = taker
    · subst ht
      rw [h.seats_taker]
      exact ⟨h.dealt_taker.claims, h.dealt_taker.consistent⟩
    by_cases hm : i = fill.makerOwner
    · subst hm
      rw [h.seats_maker]
      exact ⟨hf.claims.trans hb.sameClaims, hb.consistent ∘ hf.consistent⟩
    · rw [h.seats_of_ne hm ht]
      exact ⟨.refl _, id⟩
  have h0 := add_nonneg hf.fee_nonneg h.dealt_taker.fee_nonneg
  refine ⟨fun i => (hs i).1, fun i => (hs i).2, makerFee + takerFee,
    m.core.currentOpenInterest, m.core.globalOrderSequence, m.core.globalEventSequence, h0,
    fun _ => h.covered, id, ?_⟩
  rw [h.result]
  rfl

end

end Filled

variable {order : PlaceOrderData} {prepared : PreparedOrder}

theorem restRemainder_eq_ok
    (h : restRemainder order prepared m = .ok u m') :
    (order.rests prepared.plan = false ∧ m' = m) ∨
    (order.rests prepared.plan = true ∧ order.seatIndex < v3SeatCount ∧ ∃ reserved handle b,
      (m.seats order.seatIndex).occupancy = true ∧
      (m.seats order.seatIndex).reserve (bpsOf
        (prepared.plan.takerRemaining * prepared.effectivePrice.val)
        prepared.config.initialMarginBps) prepared.side prepared.plan.takerRemaining =
          .ok reserved ∧
      PagedBookV3.insertRestingOrder prepared.tree
        { prepared.leaf with quantity := prepared.plan.takerRemaining } (m.books prepared.side) =
          .ok handle b ∧ m' = { m.withSeat order.seatIndex reserved with
        books := update m.books prepared.side b }) := by
  unfold restRemainder at h
  split at h
  · rename_i hr
    simp only [run_rules, v3TradeSeat_eq_ok, run_writeV3Seat_bind] at h
    obtain ⟨margin, hm, seat, ⟨hi, ho, -, rfl⟩, reserved, hres, h⟩ := h
    obtain ⟨handle, m₁, hb, he⟩ := run_bind_eq_ok.1 h
    obtain ⟨-, rfl⟩ := run_pure_eq_ok.1 he
    obtain ⟨b, hins, rfl⟩ := run_onBook_eq_ok.1 hb
    rw [reserveMargin_eq_ok hm] at hres
    exact .inr ⟨hr, hi, reserved, handle, b, ho, hres, hins, rfl⟩
  · rename_i hr
    obtain ⟨-, rfl⟩ := run_pure_eq_ok.1 h
    exact .inl ⟨by simpa using hr, rfl⟩

theorem settleTakerFunding_eq_ok {acc : ℤ}
    (h : settleTakerFunding i acc payment m = .ok u m') :
    ((m.seats i).lastFundingAccumulator = acc ∧ m' = m) ∨
    i < v3SeatCount ∧ (m.seats i).occupancy = true ∧
      (m.seats i).lastFundingAccumulator ≠ acc ∧ m' = m.withSeat i { m.seats i with
        realizedPnl := (m.seats i).realizedPnl - payment, lastFundingAccumulator := acc } := by
  simp only [settleTakerFunding, run_rules, v3TradeSeat_eq_ok] at h
  obtain ⟨seat, ⟨hi, ho, -, rfl⟩, h⟩ := h
  split at h
  · rename_i hne
    simp only [run_lift_bind, exists_checkedI128, run_writeV3Seat] at h
    exact .inr ⟨hi, ho, hne, h.2.symm⟩
  · rename_i heq
    obtain ⟨-, rfl⟩ := run_pure_eq_ok.1 h
    exact .inl ⟨by simpa using heq, rfl⟩

/-- The position sizes of the seats in use, in total. -/
def Market.openInterest (m : Market) : ℤ :=
  ((range v3SeatCount).map fun i =>
    if (m.seats i).occupancy = true then |(m.seats i).basePosition| else 0).sum

theorem recomputeV3OpenInterest_eq_ok {total : ℤ} (h : recomputeV3OpenInterest m = .ok total) :
    total = m.openInterest := by
  have hs : ∀ i ∈ range v3SeatCount, ∀ t t' : ℤ, True → (if (m.seats i).occupancy = true then do
        let size ← checkedI128 (custom .arithmeticOverflow) |(m.seats i).basePosition|
        checkedI128 (custom .arithmeticOverflow) (t + size)
      else pure t) = .ok t' →
      True ∧ t' = t + if (m.seats i).occupancy = true then |(m.seats i).basePosition| else 0 := by
    intro i _ t t' _ ht
    split at ht
    · simp only [bind_eq_ok, checkedI128_eq_ok] at ht
      obtain ⟨_, ⟨-, rfl⟩, -, rfl⟩ := ht
      rw [if_pos ‹_›]
      exact ⟨trivial, rfl⟩
    · rw [if_neg ‹_›, ← pure_eq_ok.1 ht, add_zero]
      exact ⟨trivial, rfl⟩
  obtain ⟨-, hsum⟩ := foldlM_sum (g := fun x : ℤ => x) hs trivial h
  rwa [zero_add] at hsum

theorem Market.openInterest_nonneg (m : Market) : 0 ≤ m.openInterest := by
  refine sum_nonneg fun x hx => ?_
  obtain ⟨i, -, rfl⟩ := mem_map.1 hx
  split
  · exact abs_nonneg _
  · exact le_rfl

def Market.recorded (m : Market) (sequence : U64) : Market :=
  { m with core := { m.core with
    currentOpenInterest := m.openInterest, globalOrderSequence := sequence } }

theorem Market.traded_recorded (m : Market) (sequence : U64) : m.Traded (m.recorded sequence) where
  claims _ := .refl _
  consistent _ := id
  core := ⟨0, m.openInterest, sequence, m.core.globalEventSequence, le_rfl, id,
    fun _ => m.openInterest_nonneg, by simp [recorded]⟩

theorem recordOrder_eq_ok (h : recordOrder prepared m = .ok u m') :
    m' = m.recorded prepared.sequence := by
  simp only [recordOrder, run_rules, run_modifyCore] at h
  obtain ⟨total, ht, -, rfl⟩ := h
  rw [recomputeV3OpenInterest_eq_ok ht]
  rfl

/-- The states an accepted order passes through. -/
structure Market.Executed (order : PlaceOrderData) (prepared : PreparedOrder)
    (m mBook mCancel mFill mRest mFund m' : Market) : Prop where
  book : ∃ b, PagedBookV3.applyMatchPlan prepared.plan (m.books prepared.side.opposite) =
      .ok () b ∧ mBook = { m with books := update m.books prepared.side.opposite b }
  cancel : prepared.plan.cancellations.forM (releaseCancelled prepared.config) mBook =
    .ok () mCancel
  fill : prepared.plan.fills.forM
    (settleV3Fill order.seatIndex prepared.side prepared.config) mCancel = .ok () mFill
  rest : restRemainder order prepared mFill = .ok () mRest
  fund : settleTakerFunding order.seatIndex m.core.fundingAccumulator prepared.fundingPayment
    mRest = .ok () mFund
  record : (mFund.recorded prepared.sequence).SameLedgers m'

variable {consume : Bool}

theorem executeOrder_eq_ok
    (h : executeOrder ctx order prepared consume m = .ok u m') :
    ∃ mBook mCancel mFill mRest mFund,
      Executed order prepared m mBook mCancel mFill mRest mFund m' := by
  simp only [executeOrder, run_asking_bind, id] at h
  obtain ⟨⟨⟩, mBook, hb, h⟩ := run_bind_eq_ok.1 h
  obtain ⟨⟨⟩, mCancel, hc, h⟩ := run_bind_eq_ok.1 h
  obtain ⟨⟨⟩, mFill, hf, h⟩ := run_bind_eq_ok.1 h
  obtain ⟨⟨⟩, mRest, hre, h⟩ := run_bind_eq_ok.1 h
  obtain ⟨⟨⟩, mFund, hfu, h⟩ := run_bind_eq_ok.1 h
  obtain ⟨⟨⟩, mRecord, hr, h⟩ := run_bind_eq_ok.1 h
  obtain ⟨⟨⟩, mEvents, he, h⟩ := run_bind_eq_ok.1 h
  rw [recordOrder_eq_ok hr] at he
  exact ⟨mBook, mCancel, mFill, mRest, mFund, run_onBook_eq_ok.1 hb, hc, hf, hre,
    hfu, (logged_of_appendEventRecords he).sameLedgers.trans (sameLedgers_of_consumeSession h)⟩

section Executed

variable {order : PlaceOrderData} {prepared : PreparedOrder}
  {mBook mCancel mFill mRest mFund : Market}

theorem traded_of_releaseCancelled {cancel : V3SelfTradeCancellation}
    (h : releaseCancelled config cancel m = .ok u m') : m.Traded m' := by
  obtain ⟨-, released, hr, rfl⟩ := releaseCancelled_eq_ok h
  have hb := (TraderSeat.release_eq_ok hr).1
  exact .withSeat hb.sameClaims hb.consistent

theorem traded_of_restRemainder (h : restRemainder order prepared m = .ok u m') : m.Traded m' := by
  rcases restRemainder_eq_ok h with ⟨-, rfl⟩ | ⟨-, -, reserved, _, _, -, hr, -, rfl⟩
  · exact .of_seats_eq rfl rfl
  · have hb := (TraderSeat.reserve_eq_ok hr).1
    exact (Traded.withSeat hb.sameClaims hb.consistent).trans (.of_seats_eq rfl rfl)

theorem traded_of_settleTakerFunding {acc : ℤ}
    (h : settleTakerFunding i acc payment m = .ok u m') : m.Traded m' := by
  rcases settleTakerFunding_eq_ok h with ⟨-, rfl⟩ | ⟨-, -, -, rfl⟩
  · exact .of_seats_eq rfl rfl
  · exact .withSeat ⟨rfl, rfl, rfl, rfl, rfl⟩ id

theorem Market.Executed.traded
    (h : Executed order prepared m mBook mCancel mFill mRest mFund m') : m.Traded m' := by
  have hb : m.Traded mBook := by
    obtain ⟨b, -, rfl⟩ := h.book
    exact .of_seats_eq rfl rfl
  have hc : m.Traded mCancel := run_forM_invariant (P := m.Traded)
    (fun cancel _ s s' hs hr => hs.trans (traded_of_releaseCancelled hr)) hb h.cancel
  have hfi : m.Traded mFill := by
    refine run_forM_invariant (P := m.Traded) (fun fill _ s s' hs hr => ?_) hc h.fill
    obtain ⟨_, _, _, _, hf⟩ := settleV3Fill_eq_ok hr
    exact hs.trans hf.traded
  have hfu := (hfi.trans (traded_of_restRemainder h.rest)).trans
    (traded_of_settleTakerFunding h.fund)
  exact (hfu.trans (mFund.traded_recorded _)).trans h.record.traded

end Executed

variable {actions : ℕ}

theorem placeOrderV3WithAction_eq_ok
    (h : placeOrderV3WithAction ctx order actions consume m = .ok u m') :
    ∃ prepared mBook mCancel mFill mRest mFund,
      prepareOrder m ctx order actions = .ok prepared ∧
      Executed order prepared m mBook mCancel mFill mRest mFund m' := by
  simp only [placeOrderV3WithAction, run_rules] at h
  obtain ⟨prepared, hp, h⟩ := h
  obtain ⟨mBook, mCancel, mFill, mRest, mFund, hex⟩ := executeOrder_eq_ok h
  exact ⟨prepared, mBook, mCancel, mFill, mRest, mFund, hp, hex⟩

theorem traded_of_placeOrder
    (h : placeOrderV3WithAction ctx order actions consume m = .ok u m') : m.Traded m' := by
  obtain ⟨_, _, _, _, _, _, -, hex⟩ := placeOrderV3WithAction_eq_ok h
  exact hex.traded

/-! ## Cancellations -/

/-- One order of a seat left its book, and the seat got back what the order held. -/
structure Market.Cancelled (seatIndex : ℕ) (side : Side) (tree : TreeKind) (leaf : LeafNode)
    (m m' : Market) : Prop where
  index : seatIndex < v3SeatCount
  occupied : (m.seats seatIndex).occupancy = true
  found : ∃ key handle, (m.books side).find tree key = .ok handle ∧
    (m.books side).leaf handle = .ok leaf ∧ leaf.owner = seatIndex ∧
    ∃ removed b config margin released,
      PagedBookV3.cancelOwnedOrder tree key seatIndex (m.books side) = .ok removed b ∧
      readV3RiskConfig m.core = .ok config ∧
      v3OrderReserve leaf tree (v3ReserveOracle m.core) config = .ok margin ∧
      (m.seats seatIndex).release margin true leaf.side leaf.quantity = .ok released ∧
      Logged { m.withSeat seatIndex released with
        books := update m.books side b } m'

variable {tree : TreeKind} {leaf : LeafNode}

theorem Market.Cancelled.traded (h : Cancelled i side tree leaf m m') : m.Traded m' := by
  obtain ⟨_, _, -, -, -, _, b, _, _, released, -, -, -, hr, hl⟩ := h.found
  have hb := (TraderSeat.release_eq_ok hr).1
  have hbo : Traded (m.withSeat i released) { m.withSeat i released with
    books := update m.books side b } := .of_seats_eq rfl rfl
  exact ((Traded.withSeat hb.sameClaims hb.consistent).trans hbo).trans hl.sameLedgers.traded

variable {key : Key}

theorem removeOrder_eq_ok {handle : ℕ}
    (hf : (m.books side).find tree key = .ok handle)
    (hl : (m.books side).leaf handle = .ok leaf) (how : leaf.owner = i)
    (hc : readV3RiskConfig m.core = .ok config)
    (hm : v3OrderReserve leaf tree (v3ReserveOracle m.core) config = .ok margin)
    (h : removeOrder ctx i side tree key leaf margin m = .ok u m') :
    Cancelled i side tree leaf m m' := by
  simp only [removeOrder, run_rules, v3TradeSeat_eq_ok] at h
  obtain ⟨seat, ⟨hi, ho, -, rfl⟩, released, hr, h⟩ := h
  obtain ⟨removed, m₁, hb, h⟩ := run_bind_eq_ok.1 h
  obtain ⟨b, hrem, rfl⟩ := run_onBook_eq_ok.1 hb
  rw [run_writeV3Seat_bind] at h
  exact ⟨hi, ho, key, handle, hf, hl, how, removed, b, config, margin, released, hrem,
    hc, hm, hr, (logged_of_appendEventRecord h).2⟩

theorem findOwned_eq_ok {trees : List (Side × TreeKind)}
    (h : findOwned m i key trees = .ok (side, tree, leaf)) :
    ∃ handle, (m.books side).find tree key = .ok handle ∧
      (m.books side).leaf handle = .ok leaf ∧ leaf.owner = i := by
  induction trees with
  | nil => simp [findOwned] at h
  | cons head rest ih =>
    obtain ⟨side', tree'⟩ := head
    rw [findOwned] at h
    split at h
    · exact ih h
    · rename_i handle hf
      simp only [bind_eq_ok] at h
      obtain ⟨leaf', hl, h⟩ := h
      split at h
      · rename_i ho
        simp only [pure_eq_ok, Prod.mk.injEq] at h
        obtain ⟨rfl, rfl, rfl⟩ := h
        exact ⟨handle, hf, hl, ho⟩
      · exact ih h

theorem cancelOrderV3WithAction_eq_ok
    (h : cancelOrderV3WithAction ctx i key nonce actions consume m = .ok u m') :
    ∃ side tree leaf m₁, findOwned m i key cancelSearchOrder = .ok (side, tree, leaf) ∧
      Cancelled i side tree leaf m m₁ ∧ m₁.SameLedgers m' := by
  simp only [cancelOrderV3WithAction, run_rules] at h
  obtain ⟨seat, -, session, -, ⟨side, tree, leaf⟩, hf, _, -, -, config, hc, margin, hm, h⟩ := h
  obtain ⟨handle, hfi, hl, ho⟩ := findOwned_eq_ok hf
  obtain ⟨⟨⟩, m₁, hr, h⟩ := run_bind_eq_ok.1 h
  exact ⟨side, tree, leaf, m₁, hf,
    removeOrder_eq_ok hfi hl ho hc hm hr, sameLedgers_of_consumeSession h⟩

theorem nextOwned_eq_some
    (h : nextOwned m i = some (side, tree, leaf)) :
    ∃ handle, (m.books side).find tree leaf.key = .ok handle ∧
      (m.books side).leaf handle = .ok leaf ∧ leaf.owner = i := by
  obtain ⟨⟨side', tree'⟩, -, hm⟩ := exists_of_findSome?_eq_some h
  simp only [Option.map_eq_some_iff, Prod.mk.injEq] at hm
  obtain ⟨leaf', hfi, rfl, rfl, rfl⟩ := hm
  obtain ⟨handle, -, hs⟩ := exists_of_findSome?_eq_some hfi
  split at hs
  · simp at hs
  · rename_i leaf'' hl
    simp only [Option.ite_none_right_eq_some, Option.some.injEq] at hs
    obtain ⟨⟨ho, hf⟩, rfl⟩ := hs
    exact ⟨handle, hf, hl, ho⟩

theorem cancelNext_eq_ok {more : Bool} (h : cancelNext ctx i m = .ok more m') :
    (more = false ∧ m' = m) ∨ ∃ side tree leaf, Cancelled i side tree leaf m m' := by
  rw [cancelNext, run_asking_bind, id] at h
  cases hn : nextOwned m i with
  | none =>
    rw [hn] at h
    obtain ⟨rfl, rfl⟩ := run_pure_eq_ok.1 h
    exact .inl ⟨rfl, rfl⟩
  | some found =>
    obtain ⟨side, tree, leaf⟩ := found
    obtain ⟨handle, hf, hl, ho⟩ := nextOwned_eq_some hn
    rw [hn] at h
    simp only [run_lift_bind] at h
    obtain ⟨config, hc, margin, hm, h⟩ := h
    obtain ⟨⟨⟩, m₁, hr, he⟩ := run_bind_eq_ok.1 h
    obtain ⟨-, rfl⟩ := run_pure_eq_ok.1 he
    exact .inr ⟨side, tree, leaf, removeOrder_eq_ok hf hl ho hc hm hr⟩

theorem cancelUpTo_induction {P : Market → Prop} {max : ℕ}
    (hs : ∀ m₁ m₂ side tree leaf, P m₁ → Cancelled i side tree leaf m₁ m₂ → P m₂)
    (hm : P m) (h : cancelUpTo ctx i max m = .ok u m') : P m' := by
  induction max generalizing m with
  | zero =>
    obtain ⟨-, rfl⟩ := run_pure_eq_ok.1 h
    exact hm
  | succ max ih =>
    rw [cancelUpTo] at h
    obtain ⟨more, m₁, hn, h⟩ := run_bind_eq_ok.1 h
    have hm₁ : P m₁ := by
      rcases cancelNext_eq_ok hn with ⟨-, rfl⟩ | ⟨side, tree, leaf, hc⟩
      · exact hm
      · exact hs _ _ _ _ _ hm hc
    split at h
    · exact ih hm₁ h
    · obtain ⟨-, rfl⟩ := run_pure_eq_ok.1 h
      exact hm₁

theorem cancelAllV3_induction {P : Market → Prop} {max : ℕ}
    (hst : ∀ m₁ m₂ side tree leaf, P m₁ → Cancelled i side tree leaf m₁ m₂ → P m₂)
    (hs : ∀ m₁ m₂, P m₁ → m₁.SameLedgers m₂ → P m₂) (hm : P m)
    (h : cancelAllV3 ctx i max nonce m = .ok u m') : P m' := by
  simp only [cancelAllV3, run_rules] at h
  obtain ⟨-, seat, -, session, -, h⟩ := h
  obtain ⟨⟨⟩, m₁, hc, h⟩ := run_bind_eq_ok.1 h
  exact hs _ _ (cancelUpTo_induction hst hm hc) (sameLedgers_of_consumeSession h)

theorem replaceOrderV3_eq_ok
    (h : replaceOrderV3 ctx key order m = .ok u m') :
    ∃ m₁ actions, (∃ side tree leaf m₀,
        findOwned m order.seatIndex key cancelSearchOrder = .ok (side, tree, leaf) ∧
        Cancelled order.seatIndex side tree leaf m m₀ ∧ m₀.SameLedgers m₁) ∧
      placeOrderV3WithAction ctx order actions true m₁ = .ok u m' := by
  simp only [replaceOrderV3, run_rules] at h
  obtain ⟨-, ⟨⟩, -, h⟩ := h
  split at h
  · obtain ⟨⟨⟩, m₁, hc, h⟩ := run_bind_eq_ok.1 h
    exact ⟨m₁, _, cancelOrderV3WithAction_eq_ok hc, h⟩
  · simp only [run_lift_bind, exists_require] at h
    obtain ⟨-, h⟩ := h
    obtain ⟨⟨⟩, m₁, hc, h⟩ := run_bind_eq_ok.1 h
    exact ⟨m₁, _, cancelOrderV3WithAction_eq_ok hc, h⟩

end Equinox
