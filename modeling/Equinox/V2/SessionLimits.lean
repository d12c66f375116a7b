import Equinox.V2.EventStream

/-! # What a session pays

A session is asked for the notional of the price or offset as given, and pays
the notional of the price the order has now. The two are the same number for a
fixed price, and never for an order pegged to the oracle.
-/

namespace Equinox.V2

open Foundation CritBit V2.World

variable {m m' : Market} {ctx : Context} {order : PlaceOrderData} {w w' : World} {a : Action}

/-- The price of an order at the verified price of the oracle. -/
def effectivePrice (header : MarketStateHeader) (order : PlaceOrderData) : ℤ :=
  match orderTree order with
  | .fixed => order.priceOrOffset.val
  | .oraclePegged => header.lastVerifiedOraclePrice.val + order.priceOrOffset.val

theorem val_of_currentPrice {header : MarketStateHeader} {price : I64}
    (h : currentPrice header order = .ok price) : price.val = effectivePrice header order := by
  unfold currentPrice at h
  unfold effectivePrice
  cases hk : orderTree order with
  | fixed =>
    rw [hk] at h
    rw [pure_eq_ok.1 h]
  | oraclePegged =>
    rw [hk] at h
    exact I64.checkedAdd_eq_some (okOr_eq_ok.1 h)

theorem priced_of_planOrder {trader owner : Address} {s : Bool} {plan : OrderPlan}
    (h : planOrder m order trader owner s = .ok plan) :
    0 < effectivePrice m.header order ∧ 0 < m.header.lastVerifiedOraclePrice.val ∧
      order.quantity ≠ 0 ∧
      plan.taker.orderNotional = order.quantity * effectivePrice m.header order := by
  simp only [planOrder, ok_rules, initializedHeader_eq_ok] at h
  obtain ⟨_, ⟨-, -, rfl⟩, seat, -, ⟨price, behavior⟩, hc, ⟨⟩, -, taker, ht, sequence, -,
    leaf, -, scratch, -, planned, -, settlement, -, ⟨⟩, -, -, -, rfl⟩ := h
  simp only [checkOrder, ok_rules, Prod.mk.injEq] at hc
  obtain ⟨-, ⟨-, hq⟩, ⟨-, ho⟩, -, _, -, _, hp, hpos, rfl, rfl⟩ := hc
  simp only [admitTaker, ok_rules, checkRisk_eq_ok] at ht
  obtain ⟨-, -, -, notional, hn, -, -, -, -, -, rfl⟩ := ht
  obtain ⟨-, -, -, rfl⟩ := Risk.notional_eq_ok.1 hn
  rw [val_of_currentPrice hp] at hpos
  exact ⟨hpos, ho, hq, by rw [val_of_currentPrice hp]⟩

/-! ## Sessions -/

section Sessions

variable {i now : ℕ} {seat : TraderSeat} {demand : SessionDemand} {key : SessionKey}
  {granted : Option TradingSession} {session : TradingSession} {notional : ℤ} {nonce : ℕ} {u : Unit}

theorem authorizeTradingActor_session (hsi : ctx.signer ≠ seat.trader)
    (h : authorizeTradingActor m ctx i seat demand now = .ok granted) :
    ∃ session, granted = some session ∧
      m.sessions ⟨seat.trader, i, ctx.signer⟩ = some session ∧
      demand.notional ≤ session.maxOrderNotional := by
  simp only [authorizeTradingActor, if_neg hsi, ok_rules, okOr_eq_ok] at h
  obtain ⟨-, session, hs, -, -, -, ⟨-, hmax, -⟩, rfl⟩ := h
  exact ⟨session, rfl, hs, hmax⟩

theorem settleSession_consumed (h : settleSession ctx (some session) key notional nonce now m =
      .ok u m') :
    ∃ session', m'.sessions key = some session' ∧
      (session'.consumedCumulativeNotional : ℤ) =
        session.consumedCumulativeNotional + notional := by
  obtain ⟨⟨⟩, m₁, hc, hl⟩ := run_bind_eq_ok.1 h
  obtain ⟨-, rfl⟩ := run_logEvent.1 hl
  simp only [consumeSessionAction, run_lift_bind, exists_require, exists_checkedU64] at hc
  obtain ⟨⟨hn, -⟩, -, -, -, -, hw⟩ := hc
  rw [← run_modify_eq_ok.1 hw]
  refine ⟨_, Function.update_self .., ?_⟩
  push_cast [Int.toNat_of_nonneg hn]
  rfl

theorem authorizeOrder_session {actions : ℕ} {granted : Option TradingSession × SessionKey}
    (hsi : ctx.signer ≠ (m.seats order.seatIndex).trader)
    (h : authorizeOrder m ctx order actions = .ok granted) :
    ∃ session compared,
      granted = (some session, ⟨(m.seats order.seatIndex).trader, order.seatIndex, ctx.signer⟩) ∧
      m.sessions ⟨(m.seats order.seatIndex).trader, order.seatIndex, ctx.signer⟩ = some session ∧
      sessionNotional order = .ok compared ∧ compared ≤ session.maxOrderNotional := by
  simp only [authorizeOrder, ok_rules, exists_checkedI128, seatAt_eq_ok] at h
  obtain ⟨compared, hc, _, -, _, ⟨-, rfl⟩, -, given, hg, rfl⟩ := h
  obtain ⟨session, rfl, hs, hmax⟩ := authorizeTradingActor_session hsi hg
  exact ⟨session, compared, rfl, hs, hc, hmax⟩

end Sessions

theorem sessionNotional_eq_ok {compared : ℤ} (h : sessionNotional order = .ok compared) :
    compared = order.quantity * max order.priceOrOffset.val 0 := by
  unfold sessionNotional at h
  split at h
  · rename_i hpos
    rw [max_eq_left hpos.le]
    simp only [checkedI128_eq_ok] at h
    exact h.2.symm
  · rename_i hpos
    rw [max_eq_right (not_lt.1 hpos), mul_zero, pure_eq_ok.1 h]

/-! ## Orders -/

def Action.orderPlaced : Action → Option (Context × PlaceOrderData)
  | placeOrder ctx order | replaceOrder ctx _ order => some (ctx, order)
  | _ => none

/-- What a session was asked for, and what it paid. -/
structure SessionCharge (m m' : Market) (ctx : Context) (order : PlaceOrderData)
    (session session' : TradingSession) (compared : ℤ) : Prop where
  before : m.sessions ⟨(m.seats order.seatIndex).trader, order.seatIndex, ctx.signer⟩ =
    some session
  after : m'.sessions ⟨(m.seats order.seatIndex).trader, order.seatIndex, ctx.signer⟩ =
    some session'
  asked : sessionNotional order = .ok compared
  allowed : compared ≤ session.maxOrderNotional
  paid : (session'.consumedCumulativeNotional : ℤ) =
    session.consumedCumulativeNotional + order.quantity * effectivePrice m.header order
  price_pos : 0 < effectivePrice m.header order
  oracle_pos : 0 < m.header.lastVerifiedOraclePrice.val
  quantity_ne : order.quantity ≠ 0

theorem priced_of_placeOrderCore {owner : Address} {s : Bool} {charge : ℤ × ℕ}
    (h : placeOrderCore ctx order owner s m = .ok charge m') :
    0 < effectivePrice m.header order ∧ 0 < m.header.lastVerifiedOraclePrice.val ∧
      order.quantity ≠ 0 ∧ charge.1 = order.quantity * effectivePrice m.header order := by
  simp only [placeOrderCore, run_rules] at h
  obtain ⟨plan, hp, h⟩ := h
  obtain ⟨⟨⟩, _, -, hpu⟩ := run_bind_eq_ok.1 h
  obtain ⟨rfl, -⟩ := EStateM.Result.ok.inj hpu
  exact priced_of_planOrder hp

/-- The header is as it was when the order is planned. -/
theorem charge_of_settleSession {actions nonce now : ℕ} {owner : Address} {s : Bool} {u : Unit}
    {granted : Option TradingSession × SessionKey} {charge : ℤ × ℕ} {m₀ m₁ m₂ : Market}
    (hsi : ctx.signer ≠ (m.seats order.seatIndex).trader)
    (hg : authorizeOrder m ctx order actions = .ok granted) (hh : m₀.header = m.header)
    (hco : placeOrderCore ctx order owner s m₀ = .ok charge m₁)
    (hse : settleSession ctx granted.1 granted.2 charge.1 nonce now m₂ = .ok u m') :
    ∃ session session' compared, SessionCharge m m' ctx order session session' compared := by
  obtain ⟨session, compared, rfl, hs, hc, hmax⟩ := authorizeOrder_session hsi hg
  obtain ⟨hpr, ho, hq, hn⟩ := priced_of_placeOrderCore hco
  obtain ⟨session', hs', hp⟩ := settleSession_consumed hse
  rw [hh] at hpr ho hn
  rw [hn] at hp
  exact ⟨session, session', compared, hs, hs', hc, hmax, hp, hpr, ho, hq⟩

theorem placeOrder_charge {u : Unit} (h : placeOrder ctx order m = .ok u m')
    (hsi : ctx.signer ≠ (m.seats order.seatIndex).trader) :
    ∃ session session' compared, SessionCharge m m' ctx order session session' compared := by
  simp only [placeOrder, run_rules] at h
  obtain ⟨granted, hg, h⟩ := h
  obtain ⟨charge, m₁, hco, hse⟩ := run_bind_eq_ok.1 h
  exact charge_of_settleSession hsi hg rfl hco hse

theorem replaceOrder_charge {oldKey : Key} {u : Unit}
    (h : replaceOrder ctx oldKey order m = .ok u m')
    (hsi : ctx.signer ≠ (m.seats order.seatIndex).trader) :
    ∃ session session' compared, SessionCharge m m' ctx order session session' compared := by
  simp only [replaceOrder, run_rules] at h
  obtain ⟨granted, hg, -, -, h⟩ := h
  obtain ⟨⟨⟩, m₀, hc, h⟩ := run_bind_eq_ok.1 h
  obtain ⟨charge, m₁, hcore, h⟩ := run_bind_eq_ok.1 h
  obtain ⟨⟨⟩, m₂, -, hse⟩ := run_bind_eq_ok.1 h
  -- the cancellation leaves the header as it was
  have hh : m₀.header = m.header := (Prod.mk.inj (kept_of_ok Market.record hc)).1
  exact charge_of_settleSession hsi hg hh hcore hse

theorem Action.Accepted.charge (h : a.Accepted w w') (ha : a.orderPlaced = some (ctx, order))
    (hs : ctx.signer ≠ (w.market.seats order.seatIndex).trader) :
    ∃ session session' compared,
      SessionCharge w.market w'.market ctx order session session' compared := by
  obtain ⟨m', hm', rfl⟩ := Action.accepted_iff.1 h
  cases a with
  | placeOrder =>
    obtain ⟨rfl, rfl⟩ := Prod.mk.inj (Option.some.inj ha)
    exact placeOrder_charge hm' hs
  | replaceOrder =>
    obtain ⟨rfl, rfl⟩ := Prod.mk.inj (Option.some.inj ha)
    exact replaceOrder_charge hm' hs
  | _ => cases ha

theorem SessionCharge.paid_eq_asked_iff {session session' : TradingSession} {compared : ℤ}
    (h : SessionCharge m m' ctx order session session' compared) :
    order.quantity * effectivePrice m.header order = compared ↔ orderTree order = .fixed := by
  have hq : (order.quantity : ℤ) ≠ 0 := Int.natCast_ne_zero.2 h.quantity_ne
  have hp := h.price_pos
  have ho := h.oracle_pos
  rw [sessionNotional_eq_ok h.asked, mul_right_inj' hq]
  cases hk : orderTree order with
  | fixed =>
    have hf : effectivePrice m.header order = order.priceOrOffset.val := by
      simp only [effectivePrice, hk]
    rw [hf] at hp ⊢
    exact iff_of_true (max_eq_left hp.le).symm rfl
  | oraclePegged =>
    have hpe : effectivePrice m.header order =
        m.header.lastVerifiedOraclePrice.val + order.priceOrOffset.val := by
      simp only [effectivePrice, hk]
    rw [hpe] at hp ⊢
    exact iff_of_false (by omega) (by simp)

/-- An order through a session keeps to the notional the session allows, and the session pays what
it was asked for, if and only if the order has a fixed price. -/
theorem session_limits_iff_fixed (h : a.Accepted w w') (ha : a.orderPlaced = some (ctx, order))
    (hsigner : ctx.signer ≠ (w.market.seats order.seatIndex).trader) :
    ∃ session session' compared,
      w.market.sessions ⟨(w.market.seats order.seatIndex).trader, order.seatIndex, ctx.signer⟩ =
        some session ∧
      w'.market.sessions ⟨(w.market.seats order.seatIndex).trader, order.seatIndex, ctx.signer⟩ =
        some session' ∧
      sessionNotional order = .ok compared ∧
      ((order.quantity * effectivePrice w.market.header order ≤ session.maxOrderNotional ∧
          (session'.consumedCumulativeNotional : ℤ) =
            session.consumedCumulativeNotional + compared) ↔ orderTree order = .fixed) := by
  obtain ⟨session, session', compared, hc⟩ := h.charge ha hsigner
  refine ⟨session, session', compared, hc.before, hc.after, hc.asked, ?_⟩
  rw [hc.paid, add_right_inj, ← hc.paid_eq_asked_iff]
  refine and_iff_right_of_imp fun heq => ?_
  rw [heq]
  exact hc.allowed

/-- Trader 7 lets signer 50 spend 1000 per order and 5000 in all. -/
def sessionGrant : Action := .authorizeTradingSession ⟨7, 100, false⟩ 0 50
  { expiresAt := 1000000, actions := 1, maxOrderNotional := 1000, maxCumulativeNotional := 5000
    maximumExposure := 1000, maximumOpenOrders := 4 }

/-- The market of a trade up to the first order, with a session of trader 7. -/
def withSession : List Action :=
  marketCreation :: vaultInitialization :: (tradeRun 0).take 8 ++ [sessionGrant]

/-- Signer 50 bids for 20 units of trader 7, at a price or pegged to the oracle. -/
def sessionOrder (tree : ℕ) (price : I64) : PlaceOrderData :=
  { limitOrder .bid 0 20 price with tree := tree, pegLimit := 200, actionNonce := 1 }

def sessionBid (tree : ℕ) (price : I64) : Action :=
  .placeOrder ⟨50, 100, true⟩ (sessionOrder tree price)

/-- A bid at 50 takes the whole notional the session allows. -/
theorem session_limits_of_fixed_bid : ∃ w w' session session' compared,
    after withSession = some w ∧ (sessionBid 0 50).Accepted w w' ∧
    w.market.sessions ⟨7, 0, 50⟩ = some session ∧ w'.market.sessions ⟨7, 0, 50⟩ = some session' ∧
    sessionNotional (sessionOrder 0 50) = .ok compared ∧
    20 * effectivePrice w.market.header (sessionOrder 0 50) ≤ session.maxOrderNotional ∧
    (session'.consumedCumulativeNotional : ℤ) = session.consumedCumulativeNotional + compared := by
  have hr : (after withSession).any (fun w => (w.market.seats 0).trader = 7 ∧
      ((sessionBid 0 50).tryExec w).isSome = true) = true := by decide +kernel
  obtain ⟨w, hw, hn⟩ := (Option.any_eq_true _ _).1 hr
  obtain ⟨ht, hs⟩ := of_decide_eq_true hn
  obtain ⟨w', hw'⟩ := Option.isSome_iff_exists.1 hs
  have ha := Action.accepted_of_tryExec hw'
  have ht' : (w.market.seats (sessionOrder 0 50).seatIndex).trader = 7 := ht
  have hl := session_limits_iff_fixed ha rfl (by rw [ht']; decide)
  rw [ht'] at hl
  obtain ⟨session, session', compared, hb, haf, hc, hi⟩ := hl
  obtain ⟨hmax, hp⟩ := hi.2 rfl
  exact ⟨w, w', session, session', compared, hw, ha, hb, haf, hc, hmax, hp⟩

/-- A bid pegged one above the oracle is compared as 20 and paid as 2020. -/
theorem session_limits_escaped : ∃ w w' session session',
    after withSession = some w ∧ (sessionBid 1 1).Accepted w w' ∧
    w.market.sessions ⟨7, 0, 50⟩ = some session ∧ w'.market.sessions ⟨7, 0, 50⟩ = some session' ∧
    (sessionNotional (sessionOrder 1 1)).toOption = some 20 ∧
    session.maxOrderNotional = 1000 ∧
    20 * effectivePrice w.market.header (sessionOrder 1 1) = 2020 ∧
    session.consumedCumulativeNotional = 0 ∧ session'.consumedCumulativeNotional = 2020 := by
  have hr : (after withSession).any (fun w =>
      (w.market.sessions ⟨7, 0, 50⟩).any (fun session => session.maxOrderNotional = 1000 ∧
        session.consumedCumulativeNotional = 0) = true ∧
      20 * effectivePrice w.market.header (sessionOrder 1 1) = 2020 ∧
      ((sessionBid 1 1).tryExec w).any (fun w' =>
        (w'.market.sessions ⟨7, 0, 50⟩).any fun session' =>
          session'.consumedCumulativeNotional = 2020) = true) = true := by decide +kernel
  obtain ⟨w, hw, hn⟩ := (Option.any_eq_true _ _).1 hr
  obtain ⟨hb, hpr, he⟩ := of_decide_eq_true hn
  obtain ⟨session, hs, hl⟩ := (Option.any_eq_true _ _).1 hb
  obtain ⟨w', hw', ha⟩ := (Option.any_eq_true _ _).1 he
  obtain ⟨session', hs', hp⟩ := (Option.any_eq_true _ _).1 ha
  obtain ⟨hmax, hz⟩ := of_decide_eq_true hl
  exact ⟨w, w', session, session', hw, Action.accepted_of_tryExec hw', hs, hs',
    by decide, hmax, hpr, hz, of_decide_eq_true hp⟩

end Equinox.V2
