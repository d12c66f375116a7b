import Equinox.Market.Sessions

/-! # The nonces and the budget of a session

Over any run, the actions accepted in a session carry the nonces one, two, three
and so on, and what the account has consumed is the sum of their notionals, within
the limit that is in force. An instruction that is refused changes neither.
-/

namespace Equinox

open Foundation CritBit Function World List Option TradingSession Market Bool

set_option synthInstance.maxSize 1000000

variable {m m' : Market} {w w' w₀ : World} {ctx : Context} {a : Action} {as : List Action}
  {i nonce now : ℕ} {notional : ℤ} {key : SessionKey} {session : TradingSession} {u : Unit}
  {signer : Address} {policy : SessionPolicy}

/-! ## Control of a session -/

theorem createV3TradingSession_sessions (h : createV3TradingSession ctx i signer m = .ok u m') :
    m.sessions ⟨ctx.signer, i, signer⟩ = none ∧ m'.sessions =
      update m.sessions ⟨ctx.signer, i, signer⟩ (some empty) := by
  simp only [createV3TradingSession, writeSession, run_rules, run_modify_eq_ok,
    isNone_iff_eq_none] at h
  obtain ⟨-, -, hn, rfl⟩ := h
  exact ⟨hn, rfl⟩

theorem sessions_of_appendEventRecord {kind : EventKind} {payload : EventPayload} {t : ℕ}
    (h : appendEventRecord kind payload t m = .ok u m') : m'.sessions = m.sessions :=
  (untraded_sessions.appendEventRecord kind payload t).eq_of_ok h

theorem authorizeTradingSessionV3_sessions
    (h : authorizeTradingSessionV3 ctx i signer policy m = .ok u m') :
    ∃ session time, m.sessions ⟨ctx.signer, i, signer⟩ = some session ∧
      session.initialized = false ∧ policy.valid time = true ∧ m'.sessions =
        update m.sessions ⟨ctx.signer, i, signer⟩ (some
          { session.withPolicy policy with initialized := true, createdAt := time }) := by
  simp only [authorizeTradingSessionV3, run_rules, okOr_eq_ok, run_writeSession_bind] at h
  obtain ⟨⟨⟩, -, -, _, -, -, time, -, ⟨-, hv⟩, session, hf, ⟨hfr, -⟩, h⟩ := h
  exact ⟨session, time, hf, hfr, hv, sessions_of_appendEventRecord h⟩

theorem validateV3SessionControl_eq_ok :
    validateV3SessionControl m ctx i signer = .ok session ↔ validateExecutionBundle m = .ok () ∧
      m.sessions ⟨ctx.signer, i, signer⟩ = some session := by
  simp only [validateV3SessionControl, bind_eq_ok, okOr_eq_ok]
  constructor
  · rintro ⟨_, h⟩
    exact h
  · intro h
    exact ⟨(), h⟩

theorem revokeTradingSessionV3_sessions (h : revokeTradingSessionV3 ctx i signer m = .ok u m') :
    ∃ session, m.sessions ⟨ctx.signer, i, signer⟩ = some session ∧ m'.sessions =
      update m.sessions ⟨ctx.signer, i, signer⟩ (some { session with revoked := true }) := by
  simp only [revokeTradingSessionV3, run_rules, validateV3SessionControl_eq_ok,
    run_writeSession_bind] at h
  obtain ⟨session, ⟨-, hf⟩, h⟩ := h
  exact ⟨session, hf, sessions_of_appendEventRecord h⟩

theorem updateTradingSessionV3_sessions
    (h : updateTradingSessionV3 ctx i signer policy m = .ok u m') :
    ∃ session, m.sessions ⟨ctx.signer, i, signer⟩ = some session ∧
      policy.valid session.createdAt = true ∧
      session.consumedCumulativeNotional ≤ policy.maxCumulativeNotional ∧ m'.sessions =
        update m.sessions ⟨ctx.signer, i, signer⟩ (some { session.withPolicy policy with
          sessionGeneration := session.sessionGeneration + 1 }) := by
  simp only [updateTradingSessionV3, run_rules, validateV3SessionControl_eq_ok,
    run_writeSession_bind] at h
  obtain ⟨session, ⟨-, hf⟩, ⟨-, hv, hc⟩, -, h⟩ := h
  exact ⟨session, hf, hv, hc, sessions_of_appendEventRecord h⟩

theorem closeTradingSessionV3_sessions (h : closeTradingSessionV3 ctx i signer m = .ok u m') :
    m'.sessions = update m.sessions ⟨ctx.signer, i, signer⟩ none := by
  simp only [closeTradingSessionV3, run_rules, validateV3SessionControl_eq_ok,
    run_writeSession_bind] at h
  obtain ⟨session, -, -, h⟩ := h
  exact sessions_of_appendEventRecord h

/-! ## Which actions write sessions -/

/-- What an order instruction asks of a session. -/
structure SessionUse where
  ctx : Context
  seatIndex : ℕ
  nonce : ℕ
  notional : ℤ
  now : ℕ

/-- The order instructions, and what each of them takes. -/
def Action.sessionUse (m : Market) : Action → Option SessionUse
  | placeOrderV3 ctx order | replaceOrderV3 ctx _ order =>
    some ⟨ctx, order.seatIndex, order.actionNonce, order.notionalAt ctx m.core, ctx.now⟩
  | cancelOrderV3 ctx i _ nonce | cancelAllV3 ctx i _ nonce =>
    some ⟨ctx, i, nonce, 0, m.core.oracleTimestamp⟩
  | _ => none

variable {use : SessionUse}

theorem Action.Accepted.spends (h : a.Accepted w w')
    (hu : a.sessionUse w.live = some use) :
    w.live.Spends use.ctx use.seatIndex use.nonce use.notional use.now w'.live := by
  cases a with
  | placeOrderV3 ctx order =>
    obtain ⟨m, hm, rfl⟩ := h.of_handler rfl
    obtain rfl := some.inj hu
    exact placeOrderV3WithAction_spends hm
  | cancelOrderV3 ctx i orderKey nonce =>
    obtain ⟨m, hm, rfl⟩ := h.of_handler rfl
    obtain rfl := some.inj hu
    exact cancelOrderV3_spends hm
  | cancelAllV3 ctx i max nonce =>
    obtain ⟨m, hm, rfl⟩ := h.of_handler rfl
    obtain rfl := some.inj hu
    exact cancelAllV3_spends hm
  | replaceOrderV3 ctx orderKey order =>
    obtain ⟨m, hm, rfl⟩ := h.of_handler rfl
    obtain rfl := some.inj hu
    exact replaceOrderV3_spends hm
  | _ => simp [sessionUse] at hu

def Action.controlsSession : Action → Bool
  | createV3TradingSession .. | authorizeTradingSessionV3 .. | revokeTradingSessionV3 ..
  | updateTradingSessionV3 .. | closeTradingSessionV3 .. => true
  | _ => false

theorem Action.Accepted.sessions_of_upkeep (h : a.Accepted w w') (hup : a.isUpkeep = true)
    (ha : a.controlsSession = false) : w'.live.sessions = w.live.sessions := by
  have hc : ∀ f, Spares sessions (modifyCore f) := fun f => .modify fun _ => rfl
  cases a <;>
    simp only [isUpkeep, controlsSession, false_eq_true, reduceCtorEq] at hup ha <;>
    obtain ⟨m, hm, rfl⟩ := h.of_handler rfl <;>
    simp only [Equinox.updateFundingV3, Equinox.consumeOracleUpdateV3, Equinox.setV3Keeper,
      Equinox.setV3PriceReporter, setCoreKey, Equinox.delegateV3Core, Equinox.commitV3Bundle,
      Equinox.commitV3Member, Equinox.commitV3Core, Equinox.abortV3Snapshot] at hm <;>
    exact kept_of_ok sessions hm

theorem Action.Accepted.sessions_eq (h : a.Accepted w w') (hu : a.sessionUse w.live = none)
    (ha : a.controlsSession = false) : w'.live.sessions = w.live.sessions := by
  by_cases hup : a.isUpkeep = true
  · exact h.sessions_of_upkeep hup ha
  cases h.step with
  | opened _ _ _ logged => exact logged.sessions
  | closed _ _ logged => exact logged.sessions
  | deposited _ _ logged => exact logged.sessions
  | withdrawn _ debited => exact debited.logged.sessions
  | requested _ _ debited => exact debited.logged.sessions
  | credited _ _ _ _ _ logged => exact logged.sessions
  | traded trades => cases trades <;> simp [sessionUse] at hu
  | liquidated _ liquidated =>
    obtain ⟨_, logged⟩ := liquidated.result
    exact logged.sessions
  | kept upkeep _ => exact absurd upkeep hup
  | reconciled logged => exact logged.sessions
  | inboxed | paid | configured | rolledBack | copiedShard | copiedCore | donated => rfl

/-! ## The log of a session -/

/-- One accepted action of a session. -/
structure SessionEntry where
  nonce : ℕ
  notional : ℤ
  deriving DecidableEq, Repr

/-- The signer of a call uses the session account for the seat. -/
def Market.UsesSession (m : Market) (key : SessionKey) (use : SessionUse) : Prop :=
  m.sessionKey use.ctx use.seatIndex = key ∧ key.owner ≠ key.sessionSigner

instance (m : Market) (key : SessionKey) (use : SessionUse) : Decidable (m.UsesSession key use) :=
  inferInstanceAs (Decidable (_ ∧ _))

/-- The actions accepted in a session since it was authorized. -/
def Action.sessionLog (key : SessionKey) (a : Action) (w _w' : World) (log : List SessionEntry) :
    List SessionEntry :=
  match a with
  | authorizeTradingSessionV3 ctx i signer _ | closeTradingSessionV3 ctx i signer =>
    if (⟨ctx.signer, i, signer⟩ : SessionKey) = key then [] else log
  | a =>
    match a.sessionUse w.live with
    | some use => if w.live.UsesSession key use then log ++ [⟨use.nonce, use.notional⟩] else log
    | none => log

/-- A session account in step with the log of its actions. -/
structure TradingSession.Accounts (session : TradingSession) (log : List SessionEntry) : Prop where
  nonces : log.map (·.nonce) = range' 1 log.length
  next : session.nextExpectedNonce = log.length + 1
  consumed : (session.consumedCumulativeNotional : ℤ) = (log.map (·.notional)).sum
  within : session.consumedCumulativeNotional ≤ session.maxCumulativeNotional

theorem TradingSession.accounts_empty : empty.Accounts [] := by
  constructor <;> simp [empty]

variable {log : List SessionEntry}

theorem TradingSession.Accounts.spend (h : session.Accounts log)
    (ha : session.Affords nonce notional now) :
    (session.spend notional now).Accounts (log ++ [⟨nonce, notional⟩]) := by
  constructor
  · rw [map_append, length_append, h.nonces, ha.nonce, h.next]
    simp [range'_concat, add_comm]
  · simp only [TradingSession.spend, length_append, length_singleton, h.next]
  · have hn := Int.toNat_of_nonneg ha.nonneg
    simp only [TradingSession.spend, map_append, sum_append, ← h.consumed]
    simp [hn]
  · exact ha.budget

theorem TradingSession.Accounts.of_eq {session' : TradingSession}
    (h : session.Accounts log) (hn : session'.nextExpectedNonce = session.nextExpectedNonce)
    (hc : session'.consumedCumulativeNotional = session.consumedCumulativeNotional)
    (hle : session.consumedCumulativeNotional ≤ session'.maxCumulativeNotional) :
    session'.Accounts log := by
  constructor
  · exact h.nonces
  · rw [hn, h.next]
  · rw [hc, h.consumed]
  · rwa [hc]

/-- A session account that does not exist, or was not authorized yet, has no log. -/
def Market.SessionLogged (key : SessionKey) (m : Market) (log : List SessionEntry) : Prop :=
  (m.sessions key = none → log = []) ∧ ∀ session, m.sessions key = some session →
    session.Accounts log ∧ (session.initialized = false → log = [])

theorem Market.Spends.sessionLogged
    (h : m.Spends use.ctx use.seatIndex use.nonce use.notional use.now m')
    (hm : m.SessionLogged key log) : m'.SessionLogged key
      (if m.UsesSession key use then log ++ [⟨use.nonce, use.notional⟩] else log) := by
  cases h with
  | owner signer sessions =>
    rw [if_neg]
    · rwa [SessionLogged, sessions]
    · rintro ⟨rfl, hne⟩
      exact hne signer
  | @session session signer found affords sessions =>
    rw [SessionLogged, sessions]
    by_cases hk : m.sessionKey use.ctx use.seatIndex = key
    · subst hk
      rw [if_pos ⟨rfl, signer⟩, update_self]
      constructor
      · nofun
      · rintro _ ⟨⟩
        have hl := affords.live
        simp only [isLive, and_eq_true] at hl
        refine ⟨(hm.2 _ found).1.spend affords, fun hi => ?_⟩
        rw [spend, hl.1.1] at hi
        cases hi
    · rw [if_neg fun hu => hk hu.1, update_of_ne (Ne.symm hk)]
      exact hm

theorem Market.SessionLogged.update {k : SessionKey} {written : Option TradingSession}
    {log' : List SessionEntry} (hm : m.SessionLogged key log)
    (hw : m'.sessions = update m.sessions k written)
    (hs : k = key → (written = none → log' = []) ∧ ∀ session, written = some session →
      session.Accounts log' ∧ (session.initialized = false → log' = []))
    (ho : k ≠ key → log' = log) : m'.SessionLogged key log' := by
  rw [SessionLogged, hw]
  by_cases hk : k = key
  · subst hk
    rw [update_self]
    exact hs rfl
  · rw [update_of_ne (Ne.symm hk), ho hk]
    exact hm

theorem Action.Accepted.sessionLogged_of_control (h : a.Accepted w w')
    (ha : a.controlsSession = true) (hw : w.live.SessionLogged key log) :
    w'.live.SessionLogged key (a.sessionLog key w w' log) := by
  cases a <;> simp only [controlsSession, false_eq_true] at ha <;>
    obtain ⟨m, hm, rfl⟩ := h.of_handler rfl
  case createV3TradingSession ctx i signer =>
    obtain ⟨hn, hwr⟩ := createV3TradingSession_sessions hm
    apply hw.update hwr
    · rintro rfl
      obtain rfl := hw.1 hn
      refine ⟨nofun, ?_⟩
      rintro _ ⟨⟩
      exact ⟨accounts_empty, fun _ => rfl⟩
    · exact fun _ => rfl
  case authorizeTradingSessionV3 ctx i signer policy =>
    obtain ⟨session, time, hf, hfr, -, hwr⟩ := authorizeTradingSessionV3_sessions hm
    apply hw.update hwr
    · rintro rfl
      obtain ⟨hac, hl⟩ := hw.2 _ hf
      obtain rfl := hl hfr
      have hz : session.consumedCumulativeNotional = 0 := by simpa using hac.consumed
      rw [sessionLog, if_pos rfl]
      refine ⟨nofun, ?_⟩
      rintro _ ⟨⟩
      exact ⟨hac.of_eq rfl rfl (hz ▸ Nat.zero_le _), fun _ => rfl⟩
    · exact fun hne => if_neg hne
  case revokeTradingSessionV3 ctx i signer =>
    obtain ⟨session, hf, hwr⟩ := revokeTradingSessionV3_sessions hm
    apply hw.update hwr
    · rintro rfl
      obtain ⟨hac, hl⟩ := hw.2 _ hf
      refine ⟨nofun, ?_⟩
      rintro _ ⟨⟩
      exact ⟨hac.of_eq rfl rfl hac.within, hl⟩
    · exact fun _ => rfl
  case updateTradingSessionV3 ctx i signer policy =>
    obtain ⟨session, hf, -, hle, hwr⟩ := updateTradingSessionV3_sessions hm
    apply hw.update hwr
    · rintro rfl
      obtain ⟨hac, hl⟩ := hw.2 _ hf
      refine ⟨nofun, ?_⟩
      rintro _ ⟨⟩
      exact ⟨hac.of_eq rfl rfl hle, hl⟩
    · exact fun _ => rfl
  case closeTradingSessionV3 ctx i signer =>
    apply hw.update (closeTradingSessionV3_sessions hm)
    · rintro rfl
      exact ⟨fun _ => if_pos rfl, nofun⟩
    · exact fun hne => if_neg hne

theorem Action.sessionLog_of_use
    (hu : a.sessionUse w.live = some use) : a.sessionLog key w w' log =
      if w.live.UsesSession key use then log ++ [⟨use.nonce, use.notional⟩] else log := by
  cases a <;> simp only [sessionUse, reduceCtorEq] at hu <;> obtain rfl := some.inj hu <;> rfl

theorem Action.sessionLog_of_none (hu : a.sessionUse w.live = none)
    (ha : a.controlsSession = false) : a.sessionLog key w w' log = log := by
  cases a <;> simp only [controlsSession, reduceCtorEq] at ha <;>
    simp only [sessionUse, reduceCtorEq] at hu <;> rfl

theorem Action.Accepted.sessionLogged (h : a.Accepted w w')
    (hw : w.live.SessionLogged key log) :
    w'.live.SessionLogged key (a.sessionLog key w w' log) := by
  by_cases ha : a.controlsSession = true
  · exact h.sessionLogged_of_control ha hw
  rw [not_eq_true] at ha
  cases hu : a.sessionUse w.live with
  | some use =>
    rw [sessionLog_of_use hu]
    exact (h.spends hu).sessionLogged hw
  | none =>
    rw [sessionLog_of_none hu ha, SessionLogged, h.sessions_eq hu ha]
    exact hw

theorem Market.SessionLogged.of_run
    (hn : w₀.live.sessions key = none)
    (hr : Run (noting Action.Accepted (Action.sessionLog key)) (w₀, []) as (w, log)) :
    w.live.SessionLogged key log := by
  apply hr.invariant (P := fun s : World × List SessionEntry => s.1.live.SessionLogged key s.2)
  · exact ⟨fun _ => rfl, fun session hf => by cases hn.symm.trans hf⟩
  · rintro a ⟨w, log⟩ ⟨w', log'⟩ hw ⟨ha, hno⟩
    rw [← show a.sessionLog key w w' log = log' from hno]
    exact ha.sessionLogged hw

theorem Action.session_of_refused {x : MarketM Unit} {e : ProgramError}
    (hu : (a.sessionUse m).isSome = true) (hx : a.handler = some x) (h : x m = .error e m')
    (hn : ∀ s, m.sessions key = some s → s.nextExpectedNonce ≠ 0) :
    m'.sessions key = m.sessions key := by
  cases a <;> simp only [sessionUse, isSome, false_eq_true] at hu <;>
    simp only [handler, some.injEq, Equinox.placeOrderV3, Equinox.cancelOrderV3] at hx <;> subst hx
  case replaceOrderV3 => exact replaceOrderV3_error h hn
  all_goals rw [kept_of_error sessions h]

/-- In every run, the actions accepted in a session since it was authorized carry the nonces from
one on, each once; the account has consumed the sum of their notionals, within the limit in force;
and no refused order instruction writes the account. -/
theorem session_budget {log : List SessionEntry} (hnone : w₀.live.sessions key = none)
    (hrun : Run (noting Action.Accepted (Action.sessionLog key)) (w₀, []) as (w, log)) :
    (∀ session, w.live.sessions key = some session →
      log.map (·.nonce) = range' 1 log.length ∧
      session.nextExpectedNonce = log.length + 1 ∧
      (session.consumedCumulativeNotional : ℤ) = (log.map (·.notional)).sum ∧
      session.consumedCumulativeNotional ≤ session.maxCumulativeNotional) ∧
    ∀ a x e m', (Action.sessionUse w.live a).isSome = true → a.handler = some x →
      x w.live = .error e m' → m'.sessions key = w.live.sessions key := by
  have hl := SessionLogged.of_run hnone hrun
  constructor
  · intro session hf
    obtain ⟨ha, -⟩ := hl.2 session hf
    exact ⟨ha.nonces, ha.next, ha.consumed, ha.within⟩
  · intro a x e m' hu hx he
    apply Action.session_of_refused hu hx he
    intro session hf
    rw [(hl.2 session hf).1.next]
    omega

/-- A session until time 50 for orders of up to 5000. -/
def samplePolicy : SessionPolicy where
  expiresAt := 50
  actions := 31
  maxOrderNotional := 5000
  maxCumulativeNotional := 5000
  maximumExposure := 100
  maximumOpenOrders := 10

def sessionCall : Context := { call 5 1000 with hasSession := true }

def sessionBid (quantity nonce : ℕ) : Action :=
  .placeOrderV3 sessionCall
    { limitOrder .bid 0 quantity 1000 with actionNonce := nonce }

/-- The market authority takes a seat and authorizes a session for it. -/
def sessionSetup : List Action :=
  [.createTraderSeat (call 3 1000) 0,
    .depositCollateralV3 (call 3 1000) 0 10000 10000,
    .createV3TradingSession (call 3 1000) 0 5,
    .delegateV3Core (call 3 1000) 9,
    .authorizeTradingSessionV3 (call 3 1000) 0 5 samplePolicy]

/-- The signer places an order, cancels it, and places another under a lower limit. -/
def sessionRun : List Action :=
  sessionSetup ++ [sessionBid 2 1, .cancelAllV3 sessionCall 0 5 2,
    .updateTradingSessionV3 (call 3 1000) 0 5
      { samplePolicy with maxOrderNotional := 1000, maxCumulativeNotional := 3000 },
    sessionBid 1 3]

theorem session_budget_of_sessionRun : ∃ session log,
    (genesis.after sessionRun).live.sessions ⟨3, 0, 5⟩ = some session ∧
    log = [⟨1, 2000⟩, ⟨2, 0⟩, ⟨3, 1000⟩] ∧ session.nextExpectedNonce = 4 ∧
    (session.consumedCumulativeNotional : ℤ) = (log.map SessionEntry.notional).sum ∧
    session.consumedCumulativeNotional ≤ session.maxCumulativeNotional := by
  have hr : Run (noting Action.Accepted (Action.sessionLog ⟨3, 0, 5⟩)) (genesis, [])
      sessionRun (genesis.after sessionRun,
        genesis.noted (Action.sessionLog ⟨3, 0, 5⟩) [] sessionRun) :=
    run_noted_accepted (by decide +kernel)
  have hl : genesis.noted (Action.sessionLog ⟨3, 0, 5⟩) [] sessionRun =
      [⟨1, 2000⟩, ⟨2, 0⟩, ⟨3, 1000⟩] := by decide +kernel
  obtain ⟨session, hf⟩ : ∃ session,
      (genesis.after sessionRun).live.sessions ⟨3, 0, 5⟩ = some session :=
    isSome_iff_exists.1 (by decide +kernel)
  obtain ⟨-, hn, hc, hw⟩ := (session_budget rfl hr).1 session hf
  rw [hl] at hn hc
  exact ⟨session, _, hf, rfl, hn, hc, hw⟩

end Equinox
