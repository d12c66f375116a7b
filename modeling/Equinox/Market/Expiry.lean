import Equinox.Market.Budget

/-! # Expired sessions

Orders and replacements check a session against the clock. Cancellations and the
closing of a session check it against the time of the core's cached price, which
may lie far behind the clock.
-/

namespace Equinox

open Foundation CritBit World Option

variable {m m' : Market} {ctx : Context} {i nonce now : ℕ} {notional : ℤ} {key : SessionKey}
  {session : TradingSession} {signer : Address}

/-- A call of the signer of a session, at a time of the clock. -/
structure Market.InSession (m : Market) (key : SessionKey) (now : ℕ) (ctx : Context) (i : ℕ) :
    Prop where
  account : m.sessionKey ctx i = key
  signed : (m.seats i).trader ≠ ctx.signer
  clock : ctx.now = now

/-- No order instruction is accepted from the signer of a session. -/
structure Market.Powerless (m : Market) (key : SessionKey) (now : ℕ) : Prop where
  place : ∀ ctx order m', m.InSession key now ctx order.seatIndex →
    placeOrderV3 ctx order m ≠ .ok () m'
  replace : ∀ ctx orderKey order m', m.InSession key now ctx order.seatIndex →
    replaceOrderV3 ctx orderKey order m ≠ .ok () m'
  cancel : ∀ ctx i orderKey nonce m', m.InSession key now ctx i →
    cancelOrderV3 ctx i orderKey nonce m ≠ .ok () m'
  cancelAll : ∀ ctx i max nonce m', m.InSession key now ctx i →
    cancelAllV3 ctx i max nonce m ≠ .ok () m'

def Market.Closable (m : Market) (key : SessionKey) (now : ℕ) : Prop :=
  ∀ ctx : Context, ctx.signer = key.owner → ctx.now = now →
    ∃ m', closeTradingSessionV3 ctx key.seatIndex key.sessionSigner m = .ok () m'

def TradingSession.Ended (session : TradingSession) (time : ℕ) : Prop :=
  session.revoked = true ∨ session.expiresAt ≤ time

theorem TradingSession.not_isLive_of_ended {time : ℕ} (h : session.Ended time) :
    session.isLive time = false := by
  rcases h with hr | he
  · simp [isLive, hr]
  · simp [isLive, not_lt.2 he]

theorem Market.Spends.not_ended {time : ℕ} (h : m.Spends ctx i nonce notional time m')
    (hin : m.InSession key now ctx i) (hf : m.sessions key = some session) :
    ¬session.Ended time := by
  intro he
  cases h with
  | owner owner => exact hin.signed owner
  | session _ found affords =>
    rw [hin.account, hf] at found
    obtain rfl := some.inj found
    exact absurd affords.live (by rw [TradingSession.not_isLive_of_ended he]; decide)

theorem closeTradingSessionV3_iff :
    (∃ m', closeTradingSessionV3 ctx i signer m = .ok () m') ↔
      (∃ session, m.sessions ⟨ctx.signer, i, signer⟩ = some session ∧
        session.Ended m.core.oracleTimestamp) ∧
      validateExecutionBundle m = .ok () ∧ validateEventCore m.core = .ok () ∧
      m.core.globalEventSequence + 1 < 2 ^ 64 := by
  simp only [closeTradingSessionV3, run_rules, validateV3SessionControl_eq_ok,
    run_writeSession_bind, appendEventRecord_eq_ok]
  constructor
  · rintro ⟨_, session, ⟨hb, hf⟩, he, hl, hr, -⟩
    exact ⟨⟨session, hf, he⟩, hb, hl, hr⟩
  · rintro ⟨⟨session, hf, he⟩, hb, hl, hr⟩
    exact ⟨_, session, ⟨hb, hf⟩, he, hl, hr, rfl⟩

/-- A session that has ended by the clock places and replaces no order. It can do nothing else and
can be closed exactly when it has also ended by the time of the cached price, in a market that is
in operation and has room for the event. -/
theorem expired_session_iff (hfound : m.sessions key = some session)
    (hended : session.Ended now) :
    (∀ ctx order m', m.InSession key now ctx order.seatIndex →
      placeOrderV3 ctx order m ≠ .ok () m' ∧
      ∀ orderKey, replaceOrderV3 ctx orderKey order m ≠ .ok () m') ∧
    (m.Powerless key now ∧ m.Closable key now ↔
      session.Ended m.core.oracleTimestamp ∧ validateExecutionBundle m = .ok () ∧
        validateEventCore m.core = .ok () ∧ m.core.globalEventSequence + 1 < 2 ^ 64) := by
  have hp : ∀ ctx order m', m.InSession key now ctx order.seatIndex →
      placeOrderV3 ctx order m ≠ .ok () m' := by
    intro ctx order m' hin h
    exact (placeOrderV3WithAction_spends h).not_ended hin hfound (hin.clock.symm ▸ hended)
  have hre : ∀ ctx orderKey order m', m.InSession key now ctx order.seatIndex →
      replaceOrderV3 ctx orderKey order m ≠ .ok () m' := by
    intro ctx orderKey order m' hin h
    exact (replaceOrderV3_spends h).not_ended hin hfound (hin.clock.symm ▸ hended)
  constructor
  · intro ctx order m' hin
    exact ⟨hp ctx order m' hin, fun orderKey => hre ctx orderKey order m' hin⟩
  constructor
  · rintro ⟨-, hcl⟩
    have hclo := hcl ⟨key.owner, now, false, none⟩ rfl rfl
    obtain ⟨⟨found, hf', hc⟩, hr⟩ := closeTradingSessionV3_iff.1 hclo
    obtain rfl := some.inj (hfound.symm.trans hf')
    exact ⟨hc, hr⟩
  · rintro ⟨hc, hr⟩
    constructor
    · constructor
      · exact hp
      · exact hre
      · intro ctx i orderKey nonce m' hin h
        exact (cancelOrderV3_spends h).not_ended hin hfound hc
      · intro ctx i max nonce m' hin h
        exact (cancelAllV3_spends h).not_ended hin hfound hc
    · intro ctx ho _
      exact closeTradingSessionV3_iff.2 ⟨⟨session, ho ▸ hfound, hc⟩, hr⟩

def revokedRun : List Action :=
  sessionSetup ++ [.revokeTradingSessionV3 (call 3 1000) 0 5]

theorem expired_session_iff_of_revokedRun :
    (genesis.after revokedRun).live.Powerless ⟨3, 0, 5⟩ 100 ∧
      (genesis.after revokedRun).live.Closable ⟨3, 0, 5⟩ 100 := by
  obtain ⟨session, hf⟩ : ∃ session,
      (genesis.after revokedRun).live.sessions ⟨3, 0, 5⟩ = some session :=
    isSome_iff_exists.1 (by decide +kernel)
  have hr : ((genesis.after revokedRun).live.sessions ⟨3, 0, 5⟩).map (·.revoked) =
      some true := by decide +kernel
  rw [hf] at hr
  have he : ∀ time, session.Ended time := fun _ => .inl (some.inj hr)
  exact (expired_session_iff hf (he 100)).2.2
    ⟨he _, by decide +kernel, by decide +kernel, by decide +kernel⟩

def sessionOrderRun : List Action := sessionSetup ++ [sessionBid 2 1]

/-- The session expired at 50. At 100 its signer cancels, and its owner cannot close it. -/
theorem expired_session_cancels : ∃ w₀ w session w', w₀.Initial ∧
    Run Action.Accepted w₀ sessionOrderRun w ∧ w.live.sessions ⟨3, 0, 5⟩ = some session ∧
    session.expiresAt = 50 ∧
    (Action.cancelAllV3 { sessionCall with now := 100 } 0 5 2).Accepted w w' ∧
    ∀ m', closeTradingSessionV3 { call 3 1000 with now := 100 } 0 5 w.live ≠ .ok () m' := by
  have hrun : Run Action.Accepted genesis sessionOrderRun
      (genesis.after sessionOrderRun) := run_accepted (by decide +kernel)
  obtain ⟨session, hf⟩ : ∃ session,
      (genesis.after sessionOrderRun).live.sessions ⟨3, 0, 5⟩ = some session :=
    isSome_iff_exists.1 (by decide +kernel)
  have he : ((genesis.after sessionOrderRun).live.sessions ⟨3, 0, 5⟩).map
      (·.expiresAt) = some 50 := by decide +kernel
  rw [hf] at he
  have hr : isOk (closeTradingSessionV3 { call 3 1000 with now := 100 } 0 5
      (genesis.after sessionOrderRun).live) = false := by decide +kernel
  refine ⟨genesis, _, session, _, genesis_initial, hrun, hf,
    some.inj he, accepted_of_accepts (by decide +kernel), ?_⟩
  intro m' h
  rw [h] at hr
  cases hr

end Equinox
