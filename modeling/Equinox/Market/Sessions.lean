import Equinox.Market.Frames
import Equinox.Market.Prepared
import Equinox.Market.Steps

/-! # Trading sessions

A session signer trades for a seat with consecutive nonces and within a budget.
An accepted action takes one nonce and its notional from the session account,
after everything else has succeeded.
-/

namespace Equinox

open Foundation CritBit Market Function Option

set_option synthInstance.maxSize 1000000

variable {m m' : Market} {ctx : Context} {a : Action}
  {i nonce now : ℕ} {notional : ℤ} {key : SessionKey} {session : TradingSession} {u : Unit}
  {order : PlaceOrderData}

/-! ## What an action takes from a session -/

/-- The session account that a signer uses for a seat. -/
def Market.sessionKey (m : Market) (ctx : Context) (i : ℕ) : SessionKey :=
  ⟨(m.seats i).trader, i, ctx.signer⟩

def TradingSession.spend (session : TradingSession) (notional : ℤ) (now : ℕ) : TradingSession :=
  { session with
    consumedCumulativeNotional := session.consumedCumulativeNotional + notional.toNat
    nextExpectedNonce := session.nextExpectedNonce + 1
    lastActionTimestamp := now }

/-- A live session has the nonce next and the notional left. -/
structure TradingSession.Affords (session : TradingSession) (nonce : ℕ) (notional : ℤ)
    (now : ℕ) : Prop where
  live : session.isLive now = true
  nonce : nonce = session.nextExpectedNonce
  nonneg : 0 ≤ notional
  budget : session.consumedCumulativeNotional + notional.toNat ≤ session.maxCumulativeNotional

/-- Who acts: the trader of the seat, or a signer with a session that affords the action. -/
inductive Market.Authorizes (m : Market) (ctx : Context) (i nonce : ℕ) (notional : ℤ) (now : ℕ) :
    Option TradingSession → Prop
  | owner (signer : (m.seats i).trader = ctx.signer) : Authorizes m ctx i nonce notional now none
  | session {session : TradingSession} (signer : (m.seats i).trader ≠ ctx.signer)
    (found : m.sessions (m.sessionKey ctx i) = some session)
    (affords : session.Affords nonce notional now) :
    Authorizes m ctx i nonce notional now (some session)

theorem validateV3TradeAccounts_authorizes {demand : SessionDemand}
    {granted : Option TradingSession}
    (h : validateV3TradeAccounts m ctx i demand now = .ok granted) :
    m.Authorizes ctx i demand.actionNonce demand.notional now granted := by
  simp only [validateV3TradeAccounts, ok_rules, v3TradeSeat_eq_ok] at h
  obtain ⟨⟨⟩, -, -, _, ⟨-, -, -, rfl⟩, h⟩ := h
  split at h
  · rename_i hs
    simp only [ok_rules] at h
    obtain ⟨-, rfl⟩ := h
    exact .owner hs
  · rename_i hs
    simp only [validateV3SessionActor, ok_rules, v3TradeSeat_eq_ok, okOr_eq_ok] at h
    obtain ⟨-, session, ⟨-, -, _, ⟨-, -, -, rfl⟩, -, found, hf, ⟨hl, -⟩, hn, -,
      ⟨hno, -, hb, -⟩, rfl⟩, rfl⟩ := h
    exact .session hs hf ⟨hl, hn, hno, by omega⟩

/-- What an accepted action does to the sessions: nothing if the trader of the seat acts, and else
it spends from the session. -/
inductive Market.Spends (m : Market) (ctx : Context) (i nonce : ℕ) (notional : ℤ) (now : ℕ)
    (m' : Market) : Prop
  | owner (signer : (m.seats i).trader = ctx.signer) (sessions : m'.sessions = m.sessions)
  | session {session : TradingSession} (signer : (m.seats i).trader ≠ ctx.signer)
    (found : m.sessions (m.sessionKey ctx i) = some session)
    (affords : session.Affords nonce notional now)
    (sessions : m'.sessions =
      update m.sessions (m.sessionKey ctx i) (some (session.spend notional now)))

theorem Market.Authorizes.spends {granted : Option TradingSession} {m₁ : Market}
    (ha : m.Authorizes ctx i nonce notional now granted) (hs : m₁.sessions = m.sessions)
    (h : consumeSession granted (m.sessionKey ctx i) notional nonce now m₁ = .ok u m') :
    m.Spends ctx i nonce notional now m' := by
  cases ha with
  | owner signer =>
    obtain ⟨-, rfl⟩ := run_pure_eq_ok.1 h
    exact .owner signer hs
  | session signer found affords =>
    simp only [consumeSession, consumeSessionAction, run_lift_bind, exists_require,
      exists_checkedU64, run_modify_eq_ok] at h
    obtain ⟨-, -, -, -, -, rfl⟩ := h
    apply Spends.session signer found affords
    rw [← hs]
    rfl

instance Market.untraded_sessions : Untraded sessions := by
  constructor <;> intros <;> rfl

/-! ## The four instructions -/

/-- The price that comes with a call, or else the cached one. -/
def Context.price (ctx : Context) (core : MarketCore) : I64 :=
  ctx.snapshot.elim core.oraclePrice (·.price)

theorem oraclePriceAfterFreshness_eq {oracle : I64} {core : MarketCore}
    (h : oraclePriceAfterFreshness ctx core = .ok oracle) : oracle = ctx.price core := by
  simp only [oraclePriceAfterFreshness, ok_rules] at h
  rw [← h.2, Context.price]
  cases ctx.snapshot <;> rfl

/-- What an order is worth at its own price, or at its distance from the price of the call. -/
def PlaceOrderData.notionalAt (order : PlaceOrderData) (ctx : Context) (core : MarketCore) : ℤ :=
  order.quantity * if order.tree = 0 then order.priceOrOffset.val
    else (ctx.price core).val + order.priceOrOffset.val

theorem PlaceOrderData.notionalAt_eq {price oracle : I64} {side : Side} {tree : TreeKind}
    (hs : order.shape now = .ok (side, tree))
    (ho : oraclePriceAfterFreshness ctx m.core = .ok oracle)
    (hpr : order.effectivePrice tree oracle = .ok price) :
    order.notionalAt ctx m.core = order.quantity * price.val := by
  obtain rfl := oraclePriceAfterFreshness_eq ho
  simp only [shape, ok_rules, okOr_eq_ok] at hs
  obtain ⟨_, -, _, ht, -, h⟩ := hs
  simp only [Prod.mk.injEq] at h
  obtain ⟨-, rfl⟩ := h
  obtain ⟨-, hf, hp⟩ := effectivePrice_eq_ok hpr
  rw [notionalAt]
  split at ht
  · rename_i h0
    obtain rfl := some.inj ht
    rw [if_pos h0, hf rfl]
  · rename_i h1
    obtain rfl := some.inj ht
    rw [if_neg (by omega), I64.checkedAdd_eq_some (hp rfl)]
  · simp at ht

variable {actions : ℕ}

theorem prepareOrder_authorizes {prepared : PreparedOrder}
    (h : prepareOrder m ctx order actions = .ok prepared) :
    prepared.notional = order.notionalAt ctx m.core ∧ prepared.now = ctx.now ∧
      m.Authorizes ctx order.seatIndex order.actionNonce prepared.notional prepared.now
        prepared.session := by
  simp only [prepareOrder, ok_rules] at h
  obtain ⟨now, hnow, _, -, _, -, ⟨side, tree⟩, hsh, _, -, oracle, ho, price, hp,
    demand, hd, _, -, _, -, _, -, _, -, session, hs, rfl⟩ := h
  simp only [authorizeOrder, ok_rules] at hs
  have hn : demand.notional = order.quantity * price.val := by
    simp only [admitOrder, ok_rules, exists_checkedI128] at hd
    obtain ⟨-, -, -, -, _, -, _, -, _, -, -, -, -, rfl⟩ := hd
    rfl
  exact ⟨hn.trans (PlaceOrderData.notionalAt_eq hsh ho hp).symm,
    freshV3ExecutionTime_eq hnow, validateV3TradeAccounts_authorizes hs.2⟩

/-- The writes of an order before it spends from the session. -/
theorem placeOrderV3WithAction_spends
    (h : placeOrderV3WithAction ctx order actions true m = .ok u m') :
    m.Spends ctx order.seatIndex order.actionNonce (order.notionalAt ctx m.core) ctx.now m' := by
  simp only [placeOrderV3WithAction, executeOrder, run_rules] at h
  obtain ⟨prepared, hp, h⟩ := h
  obtain ⟨hn, hnow, ha⟩ := prepareOrder_authorizes hp
  obtain ⟨⟨⟩, m₁, h₁, h⟩ := run_bind_eq_ok.1 h
  obtain ⟨⟨⟩, m₂, h₂, h⟩ := run_bind_eq_ok.1 h
  obtain ⟨⟨⟩, m₃, h₃, h⟩ := run_bind_eq_ok.1 h
  obtain ⟨⟨⟩, m₄, h₄, h⟩ := run_bind_eq_ok.1 h
  obtain ⟨⟨⟩, m₅, h₅, h⟩ := run_bind_eq_ok.1 h
  obtain ⟨⟨⟩, m₆, h₆, h⟩ := run_bind_eq_ok.1 h
  obtain ⟨⟨⟩, m₇, h₇, h⟩ := run_bind_eq_ok.1 h
  have hs : m₇.sessions = m.sessions := by
    have kept {α : Type} (x : MarketM α) [Keeps sessions x] {m m' : Market} {a : α}
        (h : x m = .ok a m') : m'.sessions = m.sessions := kept_of_ok sessions h
    rw [kept _ h₇, kept _ h₆, kept _ h₅, kept _ h₄, kept _ h₃, kept _ h₂, kept _ h₁]
  rw [← hn, ← hnow]
  exact ha.spends hs h

variable {orderKey : Key}

theorem cancelOrderV3WithAction_authorizes {consume : Bool}
    (h : cancelOrderV3WithAction ctx i orderKey nonce actions consume m = .ok u m') :
    ∃ granted m₁, m.Authorizes ctx i nonce 0 m.core.oracleTimestamp granted ∧
      m₁.sessions = m.sessions ∧ consumeSession (if consume then granted else none)
        (m.sessionKey ctx i) 0 nonce m.core.oracleTimestamp m₁ = .ok u m' := by
  simp only [cancelOrderV3WithAction, run_rules, v3TradeSeat_eq_ok] at h
  obtain ⟨_, ⟨-, -, -, rfl⟩, granted, ha, _, -, _, -, -, _, -, _, -, h⟩ := h
  obtain ⟨⟨⟩, m₁, hr, h⟩ := run_bind_eq_ok.1 h
  exact ⟨granted, m₁, validateV3TradeAccounts_authorizes ha, kept_of_ok sessions hr, h⟩

theorem cancelOrderV3_spends
    (h : cancelOrderV3 ctx i orderKey nonce m = .ok u m') :
    m.Spends ctx i nonce 0 m.core.oracleTimestamp m' := by
  obtain ⟨granted, m₁, ha, hs, hc⟩ := cancelOrderV3WithAction_authorizes h
  exact ha.spends hs hc

theorem cancelAllV3_spends {max : ℕ} (h : cancelAllV3 ctx i max nonce m = .ok u m') :
    m.Spends ctx i nonce 0 m.core.oracleTimestamp m' := by
  simp only [cancelAllV3, run_rules, v3TradeSeat_eq_ok] at h
  obtain ⟨-, _, ⟨-, -, -, rfl⟩, granted, ha, h⟩ := h
  obtain ⟨⟨⟩, m₁, hc, h⟩ := run_bind_eq_ok.1 h
  exact (validateV3TradeAccounts_authorizes ha).spends (kept_of_ok sessions hc) h

theorem cancelOrderV3WithAction_same (order : PlaceOrderData)
    {consume : Bool}
    (h : cancelOrderV3WithAction ctx i orderKey nonce actions consume m = .ok u m') :
    (m'.seats i).trader = (m.seats i).trader ∧ order.notionalAt ctx m'.core =
      order.notionalAt ctx m.core := by
  constructor
  · obtain ⟨_, _, _, _, -, hc, hs⟩ := cancelOrderV3WithAction_eq_ok h
    rw [hs.seats]
    exact (hc.traded.claims i).trader
  · have : Untraded fun m => order.notionalAt ctx m.core := by
      constructor <;> intros <;> rfl
    have : Unspent fun m => order.notionalAt ctx m.core := ⟨fun _ _ => rfl⟩
    exact kept_of_ok (fun m : Market => order.notionalAt ctx m.core) h

theorem Market.Spends.of_same {m₁ : Market} (h : m₁.Spends ctx i nonce notional now m')
    (ht : (m₁.seats i).trader = (m.seats i).trader) (hs : m₁.sessions = m.sessions) :
    m.Spends ctx i nonce notional now m' := by
  have hk : m₁.sessionKey ctx i = m.sessionKey ctx i := by
    rw [sessionKey, sessionKey, ht]
  cases h with
  | owner signer sessions => exact .owner (ht ▸ signer) (sessions.trans hs)
  | session signer found affords sessions =>
    rw [hs, hk] at found sessions
    exact .session (ht ▸ signer) found affords sessions

/-- A session cannot use one nonce for the cancellation and again for the order, so the two spend
once. -/
theorem replaceOrderV3_spends
    (h : replaceOrderV3 ctx orderKey order m = .ok u m') :
    m.Spends ctx order.seatIndex order.actionNonce (order.notionalAt ctx m.core) ctx.now m' := by
  simp only [replaceOrderV3, run_rules] at h
  obtain ⟨-, ⟨⟩, -, h⟩ := h
  split at h
  · rename_i hz
    obtain ⟨⟨⟩, m₁, hc, hp⟩ := run_bind_eq_ok.1 h
    obtain ⟨ht, hn⟩ := cancelOrderV3WithAction_same order hc
    have hpl := placeOrderV3WithAction_spends hp
    rw [hn] at hpl
    cases cancelOrderV3_spends hc with
    | owner signer sessions => exact hpl.of_same ht sessions
    | session signer found affords sessions =>
      have hk : m₁.sessionKey ctx order.seatIndex = m.sessionKey ctx order.seatIndex := by
        rw [sessionKey, sessionKey, ht]
      cases hpl with
      | owner signer' => exact absurd (ht ▸ signer') signer
      | session _ found' affords' _ =>
        rw [sessions, hk, update_self] at found'
        obtain rfl := some.inj found'
        have hno := affords.nonce
        have hn' : order.actionNonce = _ + 1 := affords'.nonce
        omega
  · simp only [run_lift_bind, exists_require] at h
    obtain ⟨⟨⟩, m₁, hc, hp⟩ := run_bind_eq_ok.1 h.2
    obtain ⟨ht, hn⟩ := cancelOrderV3WithAction_same order hc
    obtain ⟨_, m₀, -, hs, hco⟩ := cancelOrderV3WithAction_authorizes hc
    obtain ⟨-, rfl⟩ := run_pure_eq_ok.1 hco
    rw [← hn]
    exact (placeOrderV3WithAction_spends hp).of_same ht hs

/-! ## Refused instructions

The session is written last, so that an instruction that fails has not written it, whether or not
its other writes are undone. -/

instance consumeSession_failsClean (granted : Option TradingSession) :
    FailsClean sessions (consumeSession granted key notional nonce now) := by
  unfold consumeSession consumeSessionAction
  split <;> infer_instance

instance placeOrderV3WithAction_failsClean (ctx : Context) (order : PlaceOrderData) (actions : ℕ)
    (consume : Bool) :
    FailsClean sessions (placeOrderV3WithAction ctx order actions consume) := by
  unfold placeOrderV3WithAction executeOrder
  infer_instance

instance cancelOrderV3WithAction_failsClean (ctx : Context) (i : ℕ) (orderKey : Key)
    (nonce actions : ℕ) (consume : Bool) :
    FailsClean sessions (cancelOrderV3WithAction ctx i orderKey nonce actions consume) := by
  unfold cancelOrderV3WithAction
  infer_instance

instance cancelAllV3_failsClean (ctx : Context) (i max nonce : ℕ) :
    FailsClean sessions (cancelAllV3 ctx i max nonce) := by
  unfold cancelAllV3
  infer_instance

instance cancelOrderV3WithAction_spares (ctx : Context) (i : ℕ) (orderKey : Key)
    (nonce actions : ℕ) :
    Spares sessions (cancelOrderV3WithAction ctx i orderKey nonce actions false) := by
  simp only [cancelOrderV3WithAction, Bool.false_eq_true, if_false, consumeSession]
  infer_instance

/-- A replacement without a nonce spends for the cancellation only in a session that expects
none. -/
theorem replaceOrderV3_error {e : ProgramError}
    (h : replaceOrderV3 ctx orderKey order m = .error e m')
    (hn : ∀ s, m.sessions key = some s → s.nextExpectedNonce ≠ 0) :
    m'.sessions key = m.sessions key := by
  unfold replaceOrderV3 cancelOrderV3 placeOrderV3 at h
  rcases run_bind_eq_error h with h | ⟨_, m₀, ha, h⟩
  · simp [asking] at h
  obtain ⟨rfl, rfl⟩ := EStateM.Result.ok.inj ha
  rcases run_bind_eq_error h with h | ⟨_, m₁, hr, h⟩
  · rw [kept_of_error sessions h]
  obtain ⟨-, rfl⟩ := run_reading_eq_ok.1 hr
  rcases run_bind_eq_error h with h | ⟨_, m₂, hp, h⟩
  · rw [kept_of_error sessions h]
  obtain ⟨-, rfl⟩ := run_reading_eq_ok.1 hp
  split at h
  · rcases run_bind_eq_error h with h | ⟨_, m₃, hc, h⟩
    · rw [kept_of_error sessions h]
    rw [kept_of_error sessions h]
    cases cancelOrderV3_spends hc with
    | owner _ sessions => rw [sessions]
    | session _ found affords sessions =>
      rw [sessions]
      by_cases hk : key = m.sessionKey ctx order.seatIndex
      · exact absurd affords.nonce.symm (hn _ (hk ▸ found))
      · exact update_of_ne hk _ _
  · rcases run_bind_eq_error h with h | ⟨_, m₃, hr, h⟩
    · rw [kept_of_error sessions h]
    obtain ⟨-, rfl⟩ := run_reading_eq_ok.1 hr
    rw [kept_of_error sessions h]

end Equinox
