import Equinox.Market.Cancelling
import Equinox.Market.Ranges

/-! # Replacing orders

A replacement signed by the owner of a seat checks the new order, cancels the old one
and places the new one. The check runs on the seat as the cancellation will leave it,
but plans the new order against books that still hold the old one. It refuses nothing
that the two instructions would accept unless the new order meets the old one.
-/

namespace Equinox

open Foundation CritBit PagedBookV3 World List Market PlaceOrderData V3MatchPlan Except

variable {w w₀ : World} {as : List Action} {m m' m₁ : Market} {ctx : Context}
  {order : PlaceOrderData} {actions i now : ℕ} {oracle price : I64} {behavior : SelfTradeBehavior}
  {prepared : PreparedOrder} {uses : List (Maker × Use)} {side : Side} {tree : TreeKind}
  {leaf : LeafNode} {r : Resting} {key : Key} {config : V3RiskConfig}

/-! ## The cancellation -/

/-- The owner of a seat cancelled an order of it. -/
structure Market.OwnerCancelled (i : ℕ) (side : Side) (r : Resting) (config : V3RiskConfig)
    (margin : ℤ) (m m' : Market) : Prop where
  resting : r ∈ m.orders side
  owner : r.leaf.owner = i
  config_eq : readV3RiskConfig m.core = .ok config
  margin_eq : v3OrderReserve r.leaf r.tree (v3ReserveOracle m.core) config = .ok margin
  released : (m.seats i).release margin true r.leaf.side r.leaf.quantity = .ok (m'.seats i)
  core : m'.core = { m.core with globalEventSequence := m.core.globalEventSequence + 1 }
  cleared : Cleared m i (some r.leaf.key) m'

theorem Market.Tradable.ownerCancelled (hm : m.Tradable)
    (hsi : ctx.signer = (m.seats i).trader) (h : cancelOrderV3 ctx i key 0 m = .ok () m') :
    ∃ side r config margin, r.leaf.key = key ∧ OwnerCancelled i side r config margin m m' := by
  simp only [cancelOrderV3, cancelOrderV3WithAction, run_rules] at h
  obtain ⟨seat, -, session, hs, ⟨side, tree, leaf⟩, hfo, _, -, -, config, hc, margin, hma, h⟩ := h
  obtain ⟨⟨⟩, m₀, hre, hco⟩ := run_bind_eq_ok.1 h
  obtain ⟨handle, hf, hl, ho⟩ := findOwned_eq_ok hfo
  obtain rfl := find_key (hm.valid.wellFormed side) hf hl
  have hr : (⟨tree, handle, leaf⟩ : Resting) ∈ m.orders side :=
    mem_contents.2 ((hm.valid.wellFormed side).mem_leaves_iff.2 ⟨hl, hf⟩)
  subst ho
  -- the owner acts without a session, so nothing else is written
  rw [hm.validateV3TradeAccounts_owner hr hsi rfl] at hs
  obtain rfl := ok.inj hs
  obtain ⟨-, rfl⟩ := run_pure_eq_ok.1 hco
  have hca := removeOrder_eq_ok hf hl rfl hc hma hre
  refine ⟨side, _, config, margin, rfl, hr, rfl, hc, hma, ?_, removeOrder_core hre,
    .cancelled hca ⟨⟨_, rfl⟩, rfl, rfl⟩⟩
  simp only [removeOrder, run_rules, v3TradeSeat_eq_ok] at hre
  obtain ⟨_, ⟨-, -, -, rfl⟩, released, hrel, hre⟩ := hre
  obtain ⟨_, _, hb, hre⟩ := run_bind_eq_ok.1 hre
  obtain ⟨_, -, rfl⟩ := run_onBook_eq_ok.1 hb
  rw [run_writeV3Seat_bind] at hre
  obtain ⟨-, -, rfl⟩ := appendEventRecord_eq_ok.1 hre
  rw [hrel]
  exact congrArg ok seats_withSeat_self.symm

/-! ## The plan of the new order -/

def Market.openInterestAfter (m : Market) (taker : ℕ) (side : Side) (uses : List (Maker × Use)) :
    ℤ :=
  ((range v3SeatCount).map fun i =>
    |(m.seats i).basePosition + (uses.map (movedBy taker side i)).sum|).sum

/-- What an order may do with the makers it reaches: a post-only order trades with none and
cancels none, and the open interest stays within its limit. -/
structure Market.Allows (m : Market) (order : PlaceOrderData) (side : Side)
    (uses : List (Maker × Use)) : Prop where
  postOnly : order.postOnly = true → ∀ u ∈ uses, u.2 = .passed
  range : m.openInterestAfter order.seatIndex side uses < 2 ^ 127
  limit : 0 < m.core.config.maximumOpenInterest →
    m.openInterestAfter order.seatIndex side uses ≤ m.core.config.maximumOpenInterest

/-- An order is allowed what it would do with the makers of the market as it is. -/
def Market.Foresees (m : Market) (ctx : Context) (order : PlaceOrderData) : Prop :=
  ∃ side tree uses, order.shape ctx.now = .ok (side, tree) ∧
    m.usedMakers ctx order none = .ok uses ∧ m.Allows order side uses

theorem untouched_iff {uses : List (Maker × Use)} :
    uses.filterMap fillOf = [] ∧ uses.filterMap cancellationOf = [] ↔
      ∀ u ∈ uses, u.2 = .passed := by
  rw [filterMap_eq_nil_iff, filterMap_eq_nil_iff]
  constructor
  · rintro ⟨hf, hcancel⟩ ⟨x, use⟩ hu
    cases use with
    | passed => rfl
    | cancelled => cases hcancel _ hu
    | filled => cases hf _ hu
  · intro h
    constructor <;>
    · rintro ⟨x, use⟩ hu
      obtain rfl : use = .passed := h _ hu
      rfl

theorem Market.Valid.planOrder_iff (hm : m.Valid) (hr : m.InRange)
    (hi : order.seatIndex < v3SeatCount) (hpos : 0 < price.val ∧ 0 < order.quantity)
    (hc : readV3RiskConfig m.core = .ok config) :
    (∃ plan, planOrder m order side config price oracle behavior now = .ok plan) ↔
      ∃ uses, (order.taker side behavior price).uses maxFillsPerInstruction order.quantity
        (m.makers side.opposite oracle now none) = .ok uses ∧ m.Allows order side uses := by
  obtain ⟨-, -, -, -, rfl⟩ := readV3RiskConfig_eq_ok.1 hc
  have hp := @WellFormed.planCrossingCrossTree_eq (m.books side.opposite)
    (order.taker side behavior price) (some oracle) now (hm.wellFormed _)
    (hm.distinctSequences _) order.quantity hpos
  have ht (uses : List (Maker × Use)) : m.openInterestAfter order.seatIndex side uses =
      ((range v3SeatCount).map fun i => |(m.seats i).basePosition +
        ((uses.filterMap fillOf).map (·.moves order.seatIndex side i)).sum|).sum := by
    simp only [openInterestAfter, sum_moves]
  simp only [planOrder, ok_rules, makers_none]
  constructor
  · rintro ⟨plan, _, hok, hpo, total, hpr, hl, rfl⟩
    rw [taker] at hp
    rw [hp] at hok
    obtain ⟨uses, hus, rfl⟩ := map_eq_ok.1 hok
    obtain ⟨hlt, rfl⟩ := projectedV3OpenInterest_eq_ok hpr
    simp only [extend, nil_append] at hpo hlt hl
    rw [← ht] at hlt hl
    exact ⟨uses, hus, fun h => untouched_iff.1 (hpo h), hlt, hl⟩
  · rintro ⟨uses, hus, ha⟩
    have hma : ∀ fill ∈ uses.filterMap fillOf, fill.makerOwner ≠ order.seatIndex := by
      intro fill hf
      obtain ⟨⟨x, use⟩, hu, hx⟩ := mem_filterMap.1 hf
      cases use with
      | passed | cancelled => cases hx
      | filled n =>
        obtain rfl := Option.some.inj hx
        exact (Taker.walk_of_uses hus).filled_other hu
    have hlt := ha.range
    have hl := ha.limit
    rw [ht] at hlt hl
    refine ⟨extend ⟨[], order.quantity, []⟩ uses, _, ?_, ?_, _,
      projectedV3OpenInterest_of_lt hi ?_ hr ?_, ?_, rfl⟩
    · rw [taker] at hp hus
      rw [hp]
      exact map_eq_ok.2 ⟨uses, hus, rfl⟩
    all_goals simp only [extend, nil_append]
    · exact fun h => untouched_iff.2 (ha.postOnly h)
    · exact hma
    · exact hlt
    · exact hl

/-! ## The check -/

theorem orderLeaf_sequence {sequence sequence' : U64}
    (h : orderLeaf order side tree sequence oracle now = .ok leaf) :
    ∃ leaf', orderLeaf order side tree sequence' oracle now = .ok leaf' := by
  cases tree with
  | fixed =>
    simp only [orderLeaf, OrderInput.leaf, priceTimeKey, ok_rules, mapError_eq_ok] at h ⊢
    obtain ⟨_, ⟨_, ⟨hpos, rfl⟩, rfl⟩, -⟩ := h
    exact ⟨_, _, ⟨_, ⟨hpos, rfl⟩, rfl⟩, rfl⟩
  | oraclePegged =>
    obtain ⟨⟨_, -, rfl⟩, hv⟩ := orderLeaf_eq_ok h
    obtain ⟨price, hs⟩ := hv rfl
    let leaf' : LeafNode :=
      { side, owner := order.seatIndex, key := offsetTimeKey side order.priceOrOffset sequence'
        quantity := order.quantity, expiresAt := order.expiresAt, pegLimit := order.pegLimit
        clientOrderId := order.clientOrderId, priceOrOffset := order.priceOrOffset
        sequence := sequence', postOnly := order.postOnly, reservePrice := 0 }
    have hs' : peggedState leaf' (some oracle) now = .valid price := hs
    refine ⟨leaf', ?_⟩
    simp only [orderLeaf, OrderInput.leaf, ok_rules, mapError_eq_ok]
    exact ⟨leaf', ⟨_, rfl, rfl⟩, by rw [hs']; rfl⟩

/-- The cancellation and the order that a replacement carries out. -/
def cancelThenPlace (ctx : Context) (oldOrderKey : Key) (order : PlaceOrderData) :
    MarketM Unit := do
  cancelOrderV3 ctx order.seatIndex oldOrderKey 0
  placeOrderV3 ctx order

theorem Market.Foresees.iff_uses (hs : order.shape ctx.now = .ok (side, tree))
    (ho : oraclePriceAfterFreshness ctx m.core = .ok oracle)
    (hp : order.effectivePrice tree oracle = .ok price)
    (hb : order.selfTradeBehavior = .ok behavior) :
    m.Foresees ctx order ↔ ∃ uses,
      (order.taker side behavior price).uses maxFillsPerInstruction order.quantity
        (m.makers side.opposite oracle ctx.now none) = .ok uses ∧ m.Allows order side uses := by
  have hus : m.usedMakers ctx order none =
      (order.taker side behavior price).uses maxFillsPerInstruction order.quantity
        (m.makers side.opposite oracle ctx.now none) := by
    simp only [usedMakers, hs, ho, hp, hb, ok_bind]
  simp only [Foresees, hus, hs, ok.injEq, Prod.mk.injEq]
  constructor
  · rintro ⟨_, _, uses, ⟨rfl, rfl⟩, hu, ha⟩
    exact ⟨uses, hu, ha⟩
  · rintro ⟨uses, hu, ha⟩
    exact ⟨_, _, uses, ⟨rfl, rfl⟩, hu, ha⟩

theorem authorizeOrder_of_cancelled {margin payment : ℤ} {settled : TraderSeat}
    {demand : OrderDemand} {plan : V3MatchPlan} {accumulator : ℤ} (hm : m.Tradable)
    (hcancel : OwnerCancelled order.seatIndex side r config margin m m₁)
    (hse : Risk.settleFunding (m₁.seats order.seatIndex) accumulator =
      .ok (payment, settled)) (hn : order.actionNonce = 0)
    (hs : ctx.signer = (m.seats order.seatIndex).trader) :
    authorizeOrder m ctx order actions demand settled.openOrderCount plan now = .ok none := by
  have hlt := hm.openOrderCount_lt order.seatIndex
  have hc := (TraderSeat.release_eq_ok hcancel.released).2 .count
  have hsa : settled.openOrderCount = (m₁.seats order.seatIndex).openOrderCount := by
    rw [(Risk.settleFunding_eq_ok hse).2]
  have hr := (order.rests plan).toNat_le
  simp only [TraderSeat.ordered, orderShare, Bool.toNat_true] at hc
  have ho := hcancel.owner
  rw [← ho] at hs
  simp only [authorizeOrder, ok_rules]
  refine ⟨by omega, ?_⟩
  rw [← ho]
  exact hm.validateV3TradeAccounts_owner hcancel.resting hs hn

section Check

variable {margin : ℤ} (hm : m.Tradable) (hcancel : OwnerCancelled order.seatIndex side r
  config margin m m₁) (hplaced : Placed ctx order actions oracle behavior prepared uses m₁ m')

include hm hcancel hplaced

/-- Once the cancellation and the order go through, the check is about the plan alone: everything
else that it looks at is as the order finds it. -/
theorem preflight_iff (hra : m.InRange) (hno : order.actionNonce = 0)
    (hsi : ctx.signer = (m.seats order.seatIndex).trader) :
    preflightReplaceOrderV3 m ctx r.leaf.key order = .ok () ↔ m.Foresees ctx order := by
  have hp := hplaced.prepares
  have hc := hcancel.core
  obtain ⟨settled, demand, hs, hd, -⟩ := hp.admitted
  obtain ⟨leaf, hl, -⟩ := hp.leaf
  obtain ⟨leaf', hl'⟩ := @orderLeaf_sequence _ _ _ _ _ _ _ 1 hl
  have hfr : freshV3ExecutionTimeWithSnapshot ctx m.core = .ok ctx.now := by
    have hpr := hplaced.prepared_eq
    simp only [prepareOrder, bind_eq_ok] at hpr
    obtain ⟨now, hn, -⟩ := hpr
    obtain rfl := freshV3ExecutionTime_eq hn
    rw [hc] at hn
    exact hn
  have ho : oraclePriceAfterFreshness ctx m.core = .ok oracle := by
    rw [← hcancel.cleared.oracle_eq]
    exact hp.oracle_eq
  have hco : config = prepared.config := by
    have hr := hp.config
    rw [hc] at hr
    exact ok.inj (hcancel.config_eq.symm.trans hr)
  have hfu : m₁.core.fundingAccumulator = m.core.fundingAccumulator := by rw [hc]
  have hse := hm.seat_eq hcancel.resting
  have hf := hm.valid.findOwned_eq hcancel.resting (mem_sideSearchOrder side r.tree)
  have how := hcancel.owner
  rw [how] at hse hf
  have hpos : 0 < prepared.effectivePrice.val ∧ 0 < order.quantity :=
    ⟨(effectivePrice_eq_ok hp.price).1, Nat.pos_of_ne_zero (shape_eq_ok hp.shape).1⟩
  rw [Foresees.iff_uses hp.shape ho hp.price hp.behavior_eq,
    ← hm.valid.planOrder_iff hra hp.index hpos hcancel.config_eq]
  rw [hfu] at hs
  subst hco
  simp only [preflightReplaceOrderV3, hfr, hse, hcancel.config_eq, ho, hf, ok_bind,
    hp.shape, hp.price, hp.behavior_eq, hl', bind_eq_ok, riskOk_eq_ok]
  constructor
  · rintro ⟨_, -, _, -, _, -, _, -, plan, hpl, -⟩
    exact ⟨plan, hpl⟩
  · rintro ⟨plan, hpl⟩
    exact ⟨margin, hcancel.margin_eq, _, hcancel.released, _, hs, demand, hd, plan,
      hpl, none, authorizeOrder_of_cancelled hm hcancel hs hno hsi, rfl⟩

end Check

/-! ## Replacements of the owner -/

theorem replaceOrderV3_iff (hn : order.actionNonce = 0) :
    replaceOrderV3 ctx key order m = .ok () m' ↔
      ¬(ctx.hasSession = true ∧ ctx.snapshot.isSome = true) ∧
      preflightReplaceOrderV3 m ctx key order = .ok () ∧
      cancelThenPlace ctx key order m = .ok () m' := by
  simp only [replaceOrderV3, run_rules, if_pos hn]
  constructor
  · rintro ⟨hb, ⟨⟩, hc, h⟩
    exact ⟨hb, hc, h⟩
  · rintro ⟨hb, hc, h⟩
    exact ⟨hb, (), hc, h⟩

theorem replaceOrderV3_of_refused {e : ProgramError}
    (h : preflightReplaceOrderV3 m ctx key order = .error e) :
    replaceOrderV3 ctx key order m = .error
      (if ctx.hasSession = true ∧ ctx.snapshot.isSome = true then .custom .invalidTradingSession
        else e) m := by
  unfold replaceOrderV3
  rw [run_bind_of_ok (show asking id m = .ok m m from rfl), h]
  by_cases hb : ctx.hasSession = true ∧ ctx.snapshot.isSome = true
  · rw [require, if_neg (not_not_intro hb), if_pos hb]
    rfl
  · rw [require, if_pos hb, if_neg hb]
    rfl

/-- From a market where the cancellation and the order go through, the two instructions are
exactly what the owner's replacement does, provided that the check passes. -/
theorem World.cancelThenPlace_eq_ok (hi : w₀.Initial) (hr : Run Action.Accepted w₀ as w)
    (hs : ctx.signer = (w.live.seats order.seatIndex).trader)
    (h : cancelThenPlace ctx key order w.live = .ok () m') :
    ∃ side r config margin m₁ oracle behavior prepared uses, w.live.Tradable ∧ r.leaf.key = key ∧
      OwnerCancelled order.seatIndex side r config margin w.live m₁ ∧
      Placed ctx order sessionActionPlace oracle behavior prepared uses m₁ m' := by
  obtain ⟨⟨⟩, m₁, hcancel, hp⟩ := run_bind_eq_ok.1 h
  have ht : w.live.core.mode = 1 ∧ w.live.core.delegationStatus = .delegated ∧
      w.live.core.commitPhase = .idle := by
    simp only [cancelOrderV3, cancelOrderV3WithAction, run_rules] at hcancel
    obtain ⟨_, -, _, hv, -⟩ := hcancel
    exact (validateV3TradeAccounts_eq_ok hv).2
  have hm := tradable_of_run hi hr ht.1 ht.2.1 ht.2.2
  obtain ⟨side, r, config, margin, hk, hc⟩ := hm.ownerCancelled hs hcancel
  obtain ⟨oracle, behavior, prepared, uses, hplaced⟩ := (hc.cleared.valid hm.valid).placed hp
  exact ⟨side, r, config, margin, m₁, oracle, behavior, prepared, uses, hm, hk, hc, hplaced⟩

/-- In every reachable state, the owner's replacement succeeds exactly when the cancellation and
the order do, with the same result, if and only if the order would also be allowed what it meets
with the old order still in the books, and not both optional accounts are given. A check that
refuses has written nothing. -/
theorem replace_eq_cancel_place_iff (hinit : w₀.Initial) (hrun : Run Action.Accepted w₀ as w)
    (hnonce : order.actionNonce = 0)
    (hsigner : ctx.signer = (w.live.seats order.seatIndex).trader) :
    ((∀ m', replaceOrderV3 ctx key order w.live = .ok () m' ↔
        cancelThenPlace ctx key order w.live = .ok () m') ↔
      ((∃ m', cancelThenPlace ctx key order w.live = .ok () m') →
        ¬(ctx.hasSession = true ∧ ctx.snapshot.isSome = true) ∧ w.live.Foresees ctx order)) ∧
    ∀ e, preflightReplaceOrderV3 w.live ctx key order = .error e →
      ∃ e', replaceOrderV3 ctx key order w.live = .error e' w.live := by
  have hr := inRange_of_run hinit hrun
  have hc (m' : Market) (h : cancelThenPlace ctx key order w.live = .ok () m') :
      preflightReplaceOrderV3 w.live ctx key order = .ok () ↔ w.live.Foresees ctx order := by
    obtain ⟨_, _, _, _, _, _, _, _, _, hm, rfl, hca, hplaced⟩ :=
      cancelThenPlace_eq_ok hinit hrun hsigner h
    exact preflight_iff hm hca hplaced hr hnonce hsigner
  refine ⟨⟨?_, ?_⟩, fun e hre => ⟨_, replaceOrderV3_of_refused hre⟩⟩
  · rintro hs ⟨m', h⟩
    obtain ⟨hb, hp, -⟩ := (replaceOrderV3_iff hnonce).1 ((hs m').2 h)
    exact ⟨hb, (hc m' h).1 hp⟩
  · intro hf m'
    rw [replaceOrderV3_iff hnonce]
    constructor
    · rintro ⟨-, -, h⟩
      exact h
    · intro h
      obtain ⟨hb, hw⟩ := hf ⟨m', h⟩
      exact ⟨hb, (hc m' h).2 hw, h⟩

def ownOfferRun : List Action :=
  fundRun 10000 1000 ++
    [.placeOrderV3 (call 7 1000)
      (limitOrder .ask 0 10 1000)]

def offerKey : Key := packKey (priceWord .ask 1000) 1

theorem ownOfferRun_accepted :
    Run Action.Accepted genesis ownOfferRun (genesis.after ownOfferRun) :=
  run_accepted (by decide +kernel)

theorem replace_eq_cancel_place_of_ownOfferRun :
    ∃ m', cancelThenPlace (call 7 1000) offerKey
        (limitOrder .bid 0 10 900) (genesis.after ownOfferRun).live = .ok () m' ∧
      replaceOrderV3 (call 7 1000) offerKey
        (limitOrder .bid 0 10 900) (genesis.after ownOfferRun).live = .ok () m' := by
  have hb : cancelThenPlace (call 7 1000) offerKey
      (limitOrder .bid 0 10 900) (genesis.after ownOfferRun).live =
        .ok () (finalState _) := eq_ok_of_isOk (by decide +kernel)
  have ha : (genesis.after ownOfferRun).live.Allows
      (limitOrder .bid 0 10 900) .bid [] :=
    ⟨fun _ _ hu => (not_mem_nil hu).elim, by decide +kernel, by decide +kernel⟩
  have hl : length <$> (genesis.after ownOfferRun).live.usedMakers
      (call 7 1000) (limitOrder .bid 0 10 900) none = .ok 0 := by decide +kernel
  obtain ⟨uses, hus, hn⟩ := map_eq_ok.1 hl
  obtain rfl := length_eq_zero_iff.1 hn
  have hf : (genesis.after ownOfferRun).live.Foresees
      (call 7 1000) (limitOrder .bid 0 10 900) := ⟨.bid, .fixed, [], by decide +kernel, hus, ha⟩
  have hs := (@replace_eq_cancel_place_iff _ _ _ _ _ offerKey genesis_initial
    ownOfferRun_accepted rfl (by decide +kernel)).1.2 fun _ => ⟨by decide, hf⟩
  exact ⟨_, hb, (hs _).2 hb⟩

/-- The offer is to be replaced by a bid at its own price. The check meets the offer and aborts,
while nothing is left to meet after the cancellation. -/
theorem replace_refuses_what_cancel_place_accepts :
    ∃ w₀ as w m', w₀.Initial ∧ Run Action.Accepted w₀ as w ∧
      w.live.core.delegationStatus = .delegated ∧
      (call 7 1000).signer = (w.live.seats 0).trader ∧
      cancelThenPlace (call 7 1000) offerKey
        (limitOrder .bid 0 10 1000) w.live = .ok () m' ∧
      replaceOrderV3 (call 7 1000) offerKey
        (limitOrder .bid 0 10 1000) w.live = .error (.custom .selfTradeAborted) w.live := by
  have hb : cancelThenPlace (call 7 1000) offerKey
      (limitOrder .bid 0 10 1000) (genesis.after ownOfferRun).live =
        .ok () (finalState _) := eq_ok_of_isOk (by decide +kernel)
  have hc : preflightReplaceOrderV3 (genesis.after ownOfferRun).live
      (call 7 1000) offerKey (limitOrder .bid 0 10 1000) =
        .error (.custom .selfTradeAborted) := by decide +kernel
  exact ⟨_, _, _, _, genesis_initial, ownOfferRun_accepted, by decide +kernel,
    by decide +kernel, hb, replaceOrderV3_of_refused hc⟩

end Equinox
