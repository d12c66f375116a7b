import Equinox.Book.Exchange
import Equinox.Market.Order

/-! # Prepared orders

What an order that passed every check is: its plan walks down the makers of the
other side, and the leaf it would rest as executes at its own price.
-/

namespace Equinox

open Foundation CritBit PagedBookV3 PlaceOrderData

variable {m : Market} {ctx : Context} {order : PlaceOrderData} {prepared : PreparedOrder}
  {oracle price : I64} {behavior : SelfTradeBehavior} {side : Side} {tree : TreeKind}
  {sequence : U64} {leaf : LeafNode} {now actions : ℕ}

def PlaceOrderData.taker (order : PlaceOrderData) (side : Side) (behavior : SelfTradeBehavior)
    (price : I64) : Taker :=
  { side, owner := order.seatIndex, selfTradeBehavior := behavior, price }

/-- An order passed every check at an oracle price. -/
structure Market.Prepares (m : Market) (ctx : Context) (order : PlaceOrderData) (actions : ℕ)
    (oracle : I64) (behavior : SelfTradeBehavior) (prepared : PreparedOrder) : Prop where
  index : order.seatIndex < v3SeatCount
  occupied : (m.seats order.seatIndex).occupancy = true
  shape : order.shape ctx.now = .ok (prepared.side, prepared.tree)
  config : readV3RiskConfig m.core = .ok prepared.config
  oracle_eq : oraclePriceAfterFreshness ctx m.core = .ok oracle
  price : order.effectivePrice prepared.tree oracle = .ok prepared.effectivePrice
  behavior_eq : order.selfTradeBehavior = .ok behavior
  sequence : m.core.globalOrderSequence.checkedSucc = some prepared.sequence
  leaf : ∃ leaf, orderLeaf order prepared.side prepared.tree prepared.sequence oracle ctx.now =
    .ok leaf ∧ prepared.leaf = match prepared.tree with
      | .fixed => leaf
      | .oraclePegged => { leaf with reservePrice := prepared.effectivePrice.val }
  plan : (m.books prepared.side.opposite).planCrossingCrossTree
    (order.taker prepared.side behavior prepared.effectivePrice) order.quantity (some oracle)
    ctx.now = .ok prepared.plan
  postOnly : order.postOnly = true → prepared.plan.fills = [] ∧ prepared.plan.cancellations = []
  projected : ∃ projected,
    projectedV3OpenInterest m order.seatIndex prepared.side prepared.plan = .ok projected ∧
      (0 < prepared.config.maximumOpenInterest → projected ≤ prepared.config.maximumOpenInterest)
  admitted : ∃ settled demand,
    Risk.settleFunding (m.seats order.seatIndex) m.core.fundingAccumulator =
      .ok (prepared.fundingPayment, settled) ∧
    admitOrder settled prepared.config prepared.side order oracle prepared.effectivePrice =
      .ok demand ∧
    authorizeOrder m ctx order actions demand settled.openOrderCount prepared.plan ctx.now =
      .ok prepared.session

theorem prepareOrder_eq_ok (h : prepareOrder m ctx order actions = .ok prepared) :
    ∃ oracle behavior, m.Prepares ctx order actions oracle behavior prepared := by
  simp only [prepareOrder, planOrder, ok_rules, riskOk_eq_ok, okOr_eq_ok, v3TradeSeat_eq_ok] at h
  obtain ⟨now, hn, seat, ⟨hi, ho, -, rfl⟩, ⟨payment, settled⟩, hset, ⟨side, tree⟩, hsh,
    config, hco, oracle, hor, price, hpr, demand, hd, sequence, hs,
    behavior, hb, leaf, hl, plan, ⟨_, hp, hpo, projected, hpro, hc, rfl⟩, session, hse, rfl⟩ := h
  obtain rfl := freshV3ExecutionTime_eq hn
  exact ⟨oracle, behavior, hi, ho, hsh, hco, hor, hpr, hb, hs,
    ⟨leaf, hl, rfl⟩, hp, hpo, ⟨projected, hpro, hc⟩, ⟨settled, demand, hset, hd, hse⟩⟩

/-! ## The order's own leaf -/

theorem PlaceOrderData.shape_eq_ok (h : order.shape now = .ok (side, tree)) :
    order.quantity ≠ 0 ∧ now < order.expiresAt := by
  simp only [shape, ok_rules] at h
  obtain ⟨_, -, _, -, ⟨hq, -, he⟩, -⟩ := h
  exact ⟨hq, he⟩

theorem PlaceOrderData.effectivePrice_eq_ok (h : order.effectivePrice tree oracle = .ok price) :
    0 < price.val ∧ (tree = .fixed → order.priceOrOffset = price) ∧
      (tree = .oraclePegged → oracle.checkedAdd order.priceOrOffset = some price) := by
  cases tree with
  | fixed =>
    simp only [effectivePrice, ok_rules] at h
    obtain ⟨_, rfl, hpos, rfl⟩ := h
    exact ⟨hpos, fun _ => rfl, by simp⟩
  | oraclePegged =>
    simp only [effectivePrice, ok_rules, okOr_eq_ok] at h
    obtain ⟨_, hadd, hpos, rfl⟩ := h
    exact ⟨hpos, by simp, fun _ => hadd⟩

theorem packKey_mod (high low : U64) : (packKey high low).val % 2 ^ 64 = low.val := by
  have := low.isLt
  simp only [packKey]
  omega

theorem OrderInput.leaf_eq_ok {input : OrderInput} (h : input.leaf = .ok leaf) :
    ∃ key : Key, key.val % 2 ^ 64 = input.sequence.val ∧ leaf = {
      side := input.side, owner := input.owner, key, quantity := input.quantity
      expiresAt := input.expiresAt, pegLimit := input.pegLimit
      clientOrderId := input.clientOrderId, priceOrOffset := input.priceOrOffset
      sequence := input.sequence, postOnly := input.postOnly, reservePrice := 0 } := by
  unfold OrderInput.leaf at h
  split at h
  · simp only [priceTimeKey, ok_rules] at h
    obtain ⟨_, ⟨-, rfl⟩, rfl⟩ := h
    exact ⟨_, packKey_mod _ _, rfl⟩
  · simp only [ok_rules] at h
    obtain ⟨_, rfl, rfl⟩ := h
    exact ⟨_, packKey_mod _ _, rfl⟩

theorem orderLeaf_eq_ok (h : orderLeaf order side tree sequence oracle now = .ok leaf) :
    (∃ key : Key, key.val % 2 ^ 64 = sequence.val ∧ leaf = {
      side, owner := order.seatIndex, key, quantity := order.quantity
      expiresAt := order.expiresAt, pegLimit := order.pegLimit
      clientOrderId := order.clientOrderId, priceOrOffset := order.priceOrOffset
      sequence, postOnly := order.postOnly, reservePrice := 0 }) ∧
      (tree = .oraclePegged → ∃ price, peggedState leaf (some oracle) now = .valid price) := by
  simp only [orderLeaf, bind_eq_ok, mapError_eq_ok] at h
  obtain ⟨leaf', hl, h⟩ := h
  have hi := OrderInput.leaf_eq_ok hl
  split at h
  · simp at h
  · simp at h
  · rename_i hin hsk
    obtain rfl := pure_eq_ok.1 h
    refine ⟨hi, ?_⟩
    rintro rfl
    cases hs : peggedState leaf' (some oracle) now with
    | valid price => exact ⟨price, rfl⟩
    | invalid => exact absurd hs (hin rfl)
    | skipped => exact absurd hs (hsk rfl)

/-- Whether a pegged leaf executes does not depend on how much of it is left, nor on the price
stored with it. -/
theorem peggedState_shrink {q : ℕ} (hq : q ≠ 0) (reservePrice : ℤ)
    (h : peggedState leaf (some oracle) now = .valid price) :
    peggedState { leaf with quantity := q, reservePrice } (some oracle) now = .valid price := by
  unfold peggedState at h ⊢
  split at h
  · simp at h
  · rename_i hl
    rw [if_neg (by simpa [hq] using (not_or.1 hl).2)]
    exact h

theorem peggedState_price (h : peggedState leaf (some oracle) now = .valid price) :
    oracle.checkedAdd leaf.priceOrOffset = some price := by
  unfold peggedState at h
  split at h
  · simp at h
  · dsimp only at h
    split at h
    · simp at h
    · rename_i hadd
      split_ifs at h
      rwa [← PeggedState.valid.inj h]

/-! ## Valid orders -/

def Resting.reservePrice (r : Resting) : ℤ :=
  match r.tree with
  | .fixed => r.leaf.priceOrOffset.val
  | .oraclePegged => r.leaf.reservePrice

/-- What holds of every order in the book of a side. -/
structure Resting.Valid (side : Side) (r : Resting) : Prop where
  side_eq : r.leaf.side = side
  owner_lt : r.leaf.owner < v3SeatCount
  quantity_ne : r.leaf.quantity ≠ 0
  reserve_pos : 0 < r.reservePrice
  stored : r.tree = .fixed → r.leaf.reservePrice = 0
  keyed : r.leaf.key.val % 2 ^ 64 = r.leaf.sequence.val

theorem Resting.Valid.shrink {r : Resting} (h : r.Valid side) {q : ℕ} (hq : q ≠ 0) :
    Resting.Valid side { r with leaf := { r.leaf with quantity := q } } :=
  ⟨h.side_eq, h.owner_lt, hq, h.reserve_pos, h.stored, h.keyed⟩

theorem Resting.Valid.fillReservePrice_eq {x : Maker} {oracle : Option I64}
    (h : x.resting.Valid side) (hp : executablePrice x.leaf x.tree side oracle now = some x.price) :
    (fillReservePrice x.leaf x.price : ℤ) = x.resting.reservePrice := by
  obtain ⟨tree, i, leaf, price⟩ := x
  have hpos := (executablePrice_eq_some hp).1
  cases tree with
  | fixed =>
    have hs := h.stored rfl
    have hpr : leaf.priceOrOffset = price := by
      unfold executablePrice at hp
      split_ifs at hp
      simpa using hp
    subst hpr
    simp only [Maker.resting, Resting.reservePrice] at hs hpos ⊢
    simp only [fillReservePrice, storedV3ReservePrice, hs, lt_irrefl, if_false]
    omega
  | oraclePegged =>
    have hr := h.reserve_pos
    simp only [Maker.resting, Resting.reservePrice] at hr ⊢
    simp only [fillReservePrice, storedV3ReservePrice, hr, if_true]
    omega

namespace Market.Prepares

variable (h : m.Prepares ctx order actions oracle behavior prepared)

include h

theorem leaf_eq : ∃ (key : Key) (reservePrice : ℤ),
    key.val % 2 ^ 64 = prepared.sequence.val ∧ prepared.leaf = {
    side := prepared.side, owner := order.seatIndex, key, quantity := order.quantity
    expiresAt := order.expiresAt, pegLimit := order.pegLimit
    clientOrderId := order.clientOrderId, priceOrOffset := order.priceOrOffset
    sequence := prepared.sequence, postOnly := order.postOnly, reservePrice } ∧
      (prepared.tree = .fixed → reservePrice = 0) ∧
      (prepared.tree = .oraclePegged → reservePrice = prepared.effectivePrice.val) := by
  obtain ⟨leaf, hl, hp⟩ := h.leaf
  obtain ⟨⟨key, hk, rfl⟩, -⟩ := orderLeaf_eq_ok hl
  cases ht : prepared.tree with
  | fixed => exact ⟨key, 0, hk, by rw [hp, ht], fun _ => rfl, by simp⟩
  | oraclePegged => exact ⟨key, _, hk, by rw [hp, ht], by simp, fun _ => rfl⟩

theorem reservePrice_eq (i q : ℕ) : Resting.reservePrice
    ⟨prepared.tree, i, { prepared.leaf with quantity := q }⟩ = prepared.effectivePrice.val := by
  obtain ⟨_, _, -, hl, -, hr⟩ := h.leaf_eq
  obtain ⟨-, hp, -⟩ := effectivePrice_eq_ok h.price
  rw [hl]
  cases ht : prepared.tree with
  | fixed => exact congrArg Subtype.val (hp ht)
  | oraclePegged => exact hr ht

theorem resting_valid {q : ℕ} (hq : q ≠ 0) (i : ℕ) : Resting.Valid prepared.side
    ⟨prepared.tree, i, { prepared.leaf with quantity := q }⟩ := by
  obtain ⟨_, _, hk, hl, hr, -⟩ := h.leaf_eq
  constructor
  · rw [hl]
  · rw [hl]
    exact h.index
  · exact hq
  · rw [h.reservePrice_eq]
    exact (effectivePrice_eq_ok h.price).1
  · intro ht
    rw [hl]
    exact hr ht
  · rw [hl]
    exact hk

theorem executablePrice_eq {q : ℕ} (hq : q ≠ 0) :
    executablePrice { prepared.leaf with quantity := q } prepared.tree prepared.side (some oracle)
      ctx.now = some prepared.effectivePrice := by
  obtain ⟨hqu, he⟩ := shape_eq_ok h.shape
  obtain ⟨hpos, hf, hpe⟩ := effectivePrice_eq_ok h.price
  obtain ⟨leaf, ho, hpr⟩ := h.leaf
  obtain ⟨⟨key, -, rfl⟩, hst⟩ := orderLeaf_eq_ok ho
  rw [hpr]
  cases ht : prepared.tree with
  | fixed =>
    have hp := hf ht
    simp [executablePrice, hq, not_le.2 he, hp, not_le.2 hpos]
  | oraclePegged =>
    obtain ⟨price, hv⟩ := hst ht
    have hp : price = prepared.effectivePrice :=
      Option.some.inj ((peggedState_price hv).symm.trans (hpe ht))
    have hs := peggedState_shrink hq prepared.effectivePrice.val hv
    rw [hp] at hs
    rw [executablePrice, if_neg (by simp [hq, not_le.2 he])]
    dsimp only
    rw [hs]

end Market.Prepares

end Equinox
