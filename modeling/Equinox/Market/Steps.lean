import Equinox.Market.World

/-! # What an accepted action does

Every accepted action is one of a few kinds of steps: it opens or closes a seat,
moves one trader's claim on the vault, trades, liquidates, configures, keeps all
accounts, or copies accounts to L1. Invariants of runs are proved over these.
-/

namespace Equinox

open Foundation CritBit World Market Function

variable {a : Action} {w w' : World} {m m' : Market}

namespace World

theorem onLive_eq_ok {α : Type} {x : MarketM α} {v : α} :
    w.onLive x = .ok (v, w') ↔ ∃ m', x w.live = .ok v m' ∧ w.withLive m' = w' := by
  unfold onLive
  split
  · rename_i a m h
    simp only [h, Except.ok.injEq, Prod.mk.injEq, EStateM.Result.ok.injEq]
    constructor
    · rintro ⟨rfl, rfl⟩
      exact ⟨m, ⟨rfl, rfl⟩, rfl⟩
    · rintro ⟨_, ⟨rfl, rfl⟩, rfl⟩
      exact ⟨rfl, rfl⟩
  · rename_i h
    simp [h]

theorem seats_withLive (i : ℕ) : (w.withLive m).l1.seats i = w.l1.seats i ∨
    (w.withLive m).l1.seats i = m.seats i := by
  unfold withLive
  dsimp only
  split
  · exact .inr rfl
  · exact .inl rfl

end World

namespace Action

/-- Operators, governance, commits and sessions: no claim, order or ledger changes. -/
def isUpkeep : Action → Bool
  | updateFundingV3 .. | consumeOracleUpdateV3 .. | setV3Keeper .. | setV3PriceReporter ..
  | delegateV3Core .. | commitV3Bundle .. | commitV3Member .. | commitV3Core ..
  | abortV3Snapshot .. | createV3TradingSession .. | authorizeTradingSessionV3 ..
  | revokeTradingSessionV3 .. | updateTradingSessionV3 .. | closeTradingSessionV3 .. => true
  | _ => false

end Action

/-- An order instruction succeeds. -/
inductive Action.Trades (m m' : Market) : Action → Prop
  | placed {ctx : Context} {order : PlaceOrderData} :
    Equinox.placeOrderV3 ctx order m = .ok () m' → Trades m m' (.placeOrderV3 ctx order)
  | cancelled {ctx : Context} {i nonce : ℕ} {key : Key} :
    Equinox.cancelOrderV3 ctx i key nonce m = .ok () m' →
      Trades m m' (.cancelOrderV3 ctx i key nonce)
  | cancelledAll {ctx : Context} {i max nonce : ℕ} :
    Equinox.cancelAllV3 ctx i max nonce m = .ok () m' → Trades m m' (.cancelAllV3 ctx i max nonce)
  | replaced {ctx : Context} {key : Key} {order : PlaceOrderData} :
    Equinox.replaceOrderV3 ctx key order m = .ok () m' →
      Trades m m' (.replaceOrderV3 ctx key order)

theorem Action.Trades.induction {P : Market → Prop}
    (hpl : ∀ m₁ m₂ ctx order actions consume, P m₁ →
      placeOrderV3WithAction ctx order actions consume m₁ = .ok () m₂ → P m₂)
    (hca : ∀ m₁ m₂ i side tree leaf, P m₁ → Cancelled i side tree leaf m₁ m₂ → P m₂)
    (hsa : ∀ m₁ m₂, P m₁ → m₁.SameLedgers m₂ → P m₂) (hm : P m) (h : a.Trades m m') : P m' := by
  cases h with
  | placed h => exact hpl _ _ _ _ _ _ hm h
  | cancelled h =>
    obtain ⟨_, _, _, _, -, hc, hs⟩ := cancelOrderV3WithAction_eq_ok h
    exact hsa _ _ (hca _ _ _ _ _ _ hm hc) hs
  | cancelledAll h =>
    exact cancelAllV3_induction (fun _ _ _ _ _ hp hc => hca _ _ _ _ _ _ hp hc) hsa hm h
  | replaced h =>
    obtain ⟨_, _, ⟨_, _, _, _, -, hc, hs⟩, hp⟩ := replaceOrderV3_eq_ok h
    exact hpl _ _ _ _ _ _ (hsa _ _ (hca _ _ _ _ _ _ hm hc) hs) hp

theorem Action.Trades.traded (h : a.Trades m m') : m.Traded m' :=
  h.induction (fun _ _ _ _ _ _ ht hp => ht.trans (traded_of_placeOrder hp))
    (fun _ _ _ _ _ _ ht hc => ht.trans hc.traded) (fun _ _ ht hs => ht.trans hs.traded)
    (.of_seats_eq rfl rfl)

section Liquidated

variable {i maxQuantity : ℕ} {mark fee : ℤ} {config : V3RiskConfig} {settled filled : TraderSeat}

section

variable (h : Liquidated i maxQuantity mark config settled filled fee m m')

include h

theorem Market.Liquidated.dealt :
    (m.seats i).Dealt m.core.fundingAccumulator (if 0 < (m.seats i).basePosition then
      -liquidationQuantity settled maxQuantity else liquidationQuantity settled maxQuantity)
      mark fee filled := by
  obtain ⟨_, hs⟩ := h.settled_eq
  exact TraderSeat.dealt hs h.filled_eq

theorem Market.Liquidated.seats_self :
    ∃ state, m'.seats i = { filled with liquidationState := state } := by
  obtain ⟨state, hl⟩ := h.result
  refine ⟨state, ?_⟩
  rw [hl.seats]
  exact seats_withSeat_self

theorem Market.Liquidated.seats_of_ne {j : ℕ} (hj : j ≠ i) : m'.seats j = m.seats j := by
  obtain ⟨state, hl⟩ := h.result
  rw [hl.seats]
  exact seats_withSeat_of_ne hj

theorem Market.Liquidated.sameClaims (j : ℕ) : (m.seats j).SameClaims (m'.seats j) := by
  rcases eq_or_ne j i with rfl | hj
  · obtain ⟨state, hs⟩ := h.seats_self
    rw [hs]
    exact h.dealt.claims.trans ⟨rfl, rfl, rfl, rfl, rfl⟩
  · rw [h.seats_of_ne hj]
    exact .refl _

end

end Liquidated

/-! ## Steps -/

/-- How an accepted action changes the world. -/
inductive World.Step (w : World) : Action → World → Prop
  | opened {ctx : Context} {i : ℕ} {m : Market} (index : i < v3SeatCount)
    (absent : w.live.seated ctx.signer = false) (vacant : (w.live.seats i).occupancy = false)
    (logged : (w.live.withSeat i
      (TraderSeat.opened ctx.signer w.live.core.globalEventSequence)).Logged m) :
    Step w (.createTraderSeat ctx i) (w.withLive m)
  | closed {ctx : Context} {i : ℕ} {m : Market} (index : i < v3SeatCount)
    (closable : (w.live.seats i).canClose = true)
    (logged : (w.live.withSeat i TraderSeat.empty).Logged m) :
    Step w (.closeTraderSeat ctx i) (w.withLive m)
  | deposited {ctx : Context} {i amount source : ℕ} {m : Market} (index : i < v3SeatCount)
    (occupied : (w.live.seats i).occupancy = true)
    (logged : Logged { w.live.withSeat i { w.live.seats i with
        availableCollateral := (w.live.seats i).availableCollateral + amount } with
      core := { w.live.core with vaultLiability := w.live.core.vaultLiability + amount } } m) :
    Step w (.depositCollateralV3 ctx i amount source)
      { w.withLive m with vault := w.vault + amount }
  | withdrawn {ctx : Context} {i amount : ℕ} {seat : TraderSeat} {m : Market}
    (kept : seat.withdrawalRequested = (w.live.seats i).withdrawalRequested)
    (debited : w.live.Debited i amount seat m) :
    Step w (.withdrawCollateralV3 ctx i amount) { w.withLive m with vault := w.vault - amount }
  | requested {ctx : Context} {i amount : ℕ} {seat : TraderSeat} {m : Market}
    (owner : (w.live.seats i).trader = ctx.signer)
    (raised : seat.withdrawalRequested = (w.live.seats i).withdrawalRequested + amount)
    (debited : w.live.Debited i amount seat m) :
    Step w (.requestWithdrawalV3 ctx i amount)
      ((w.withLive m).record .withdrawalRequested ctx.signer amount)
  | inboxed {ctx : Context} {amount source : ℕ} :
    Step w (.depositToInboxV3 ctx amount source) ({ w with
      vault := w.vault + amount
      receipts := update w.receipts ctx.signer (w.receipts ctx.signer + amount) }.record
        .inboxDeposited ctx.signer amount)
  | credited {ctx : Context} {i amount seen : ℕ} {trader : Address} {m : Market}
    (index : i < v3SeatCount) (occupied : (w.live.seats i).occupancy = true)
    (owner : (w.live.seats i).trader = trader) (bound : seen ≤ w.receipts trader)
    (sum : (w.live.seats i).inboxCredited + amount = seen)
    (logged : Logged { w.live.withSeat i { w.live.seats i with
        availableCollateral := (w.live.seats i).availableCollateral + amount
        inboxCredited := seen } with
      core := { w.live.core with vaultLiability := w.live.core.vaultLiability + amount } } m) :
    Step w (.claimInboxDepositV3 ctx i trader seen)
      ((w.withLive m).record .inboxCredited trader amount)
  | paid {ctx : Context} {i amount : ℕ} (occupied : (w.l1.seats i).occupancy = true)
    (owner : (w.l1.seats i).trader = ctx.signer)
    (sum : w.payouts ctx.signer + amount = (w.l1.seats i).withdrawalRequested) :
    Step w (.claimWithdrawalV3 ctx i) ({ w with
      vault := w.vault - amount
      payouts := update w.payouts ctx.signer (w.l1.seats i).withdrawalRequested }.record
        .withdrawalPaid ctx.signer amount)
  | traded {a : Action} {m : Market} (trades : a.Trades w.live m) : Step w a (w.withLive m)
  | liquidated {ctx : Context} {i maxQuantity : ℕ} {mark : I64} {fee : ℤ} {config : V3RiskConfig}
    {settled filled : TraderSeat} {m : Market}
    (price : oraclePriceAfterFreshness ctx w.live.core = .ok mark)
    (liquidated : Liquidated i maxQuantity mark.val config settled filled fee w.live m) :
    Step w (.liquidateV3 ctx i maxQuantity) (w.withLive m)
  | configured {ctx : Context} {config : V3RiskConfig} (bounds : config.InBounds)
    (readable : ∃ old, readV3RiskConfig w.live.core = .ok old) :
    Step w (.updateV3RiskConfig ctx config) (w.withLive { w.live with core := { w.live.core with
      config := config, riskConfigVersion := v3RiskConfigVersion } })
  | kept {a : Action} {m : Market} (upkeep : a.isUpkeep = true)
    (same : w.live.SameAccounts m) : Step w a (w.withLive m)
  | reconciled {ctx : Context} {status : DelegationStatus} {phase : CommitPhase} {m : Market}
    (logged : Logged { w.live with core := { w.live.core with
      reconciliationStatus := 0
      config := { w.live.core.config with vaultSurplus := 0 }
      delegationStatus := status
      commitPhase := phase } } m) :
    Step w (.reconcileVaultV3 ctx) { w.withLive m with l1 := ⟨m.core, m.seats⟩ }
  | rolledBack : Step w .rollbackV3Undelegation { w with
      live := { w.live with core := w.l1.core.rolledBack }
      l1 := { w.l1 with core := w.l1.core.rolledBack } }
  | copiedShard {shard : ℕ} : Step w (.writeBackShard shard) { w with
      l1 := { w.l1 with seats := fun i =>
        if i / v3SeatsPerShard = shard then w.live.seats i else w.l1.seats i } }
  | copiedCore : Step w .writeBackCore { w with l1 := { w.l1 with core := w.live.core } }
  | donated {amount : ℕ} : Step w (.donate amount) { w with vault := w.vault + amount }

namespace Action

theorem exec_of_handler {x : MarketM Unit} (h : a.handler = some x) :
    a.exec w = (do let (_, w) ← w.onLive x; pure w) := by
  cases a <;> simp only [handler, Option.some.injEq, reduceCtorEq] at h <;> subst h <;> rfl

theorem Accepted.of_handler {x : MarketM Unit} (h : a.Accepted w w') (hx : a.handler = some x) :
    ∃ m, x w.live = .ok () m ∧ w.withLive m = w' := by
  rw [Accepted, exec_of_handler hx] at h
  simp only [ok_rules, Prod.exists, onLive_eq_ok] at h
  obtain ⟨⟨⟩, _, ⟨m, hm, rfl⟩, rfl⟩ := h
  exact ⟨m, hm, rfl⟩

theorem Accepted.of_reconcile {ctx : Context} (h : (reconcileVaultV3 ctx).Accepted w w') :
    ∃ m, Equinox.reconcileVaultV3 ctx w.vault w.live = .ok () m ∧
      { w.withLive m with l1 := ⟨m.core, m.seats⟩ } = w' := by
  simp only [Accepted, exec, ok_rules, Prod.exists, onLive_eq_ok] at h
  obtain ⟨⟨⟩, _, ⟨m, hm, rfl⟩, rfl⟩ := h
  exact ⟨m, hm, rfl⟩

theorem Accepted.of_upkeep (h : a.Accepted w w') (ha : a.isUpkeep = true) : w.Step a w' := by
  cases a <;> simp only [isUpkeep, Bool.false_eq_true] at ha <;>
    obtain ⟨m, hm, rfl⟩ := h.of_handler rfl <;>
    refine .kept rfl ((?_ : Leads SameAccounts _).of_ok hm) <;>
    simp only [Equinox.updateFundingV3, Equinox.consumeOracleUpdateV3, Equinox.setV3Keeper,
      Equinox.setV3PriceReporter, setCoreKey, Equinox.delegateV3Core, Equinox.commitV3Bundle,
      Equinox.commitV3Member, Equinox.commitV3Core, Equinox.abortV3Snapshot,
      Equinox.createV3TradingSession, Equinox.authorizeTradingSessionV3,
      Equinox.revokeTradingSessionV3, Equinox.updateTradingSessionV3, Equinox.closeTradingSessionV3]
  -- The writes of the core are all that is looked at; the rest follows from the handlers' text.
  all_goals
    repeat' first
      | intro _
      | exact .modify fun m => by constructor <;> first | rfl | grind [MarketCore.openSnapshot]
      | infer_instance
      | apply Leads.andThen

theorem accepted_claimWithdrawalV3 {ctx : Context} {i : ℕ} :
    (claimWithdrawalV3 ctx i).Accepted w w' ↔
      (w.l1.core.initialized = true ∧ w.l1.core.mode = 1) ∧ i / v3SeatsPerShard < v3SeatShards ∧
      ((w.l1.seats i).occupancy = true ∧ (w.l1.seats i).trader = ctx.signer) ∧
      w.payouts ctx.signer < (w.l1.seats i).withdrawalRequested ∧
      (w.l1.seats i).withdrawalRequested - w.payouts ctx.signer ≤ w.vault ∧ { w with
        vault := w.vault - ((w.l1.seats i).withdrawalRequested - w.payouts ctx.signer)
        payouts := update w.payouts ctx.signer
          (w.l1.seats i).withdrawalRequested }.record .withdrawalPaid ctx.signer
            ((w.l1.seats i).withdrawalRequested - w.payouts ctx.signer) = w' := by
  simp only [Accepted, exec, World.claimWithdrawalV3, checkCore, ok_rules]

/-- Every accepted action is such a step. -/
theorem Accepted.step (h : a.Accepted w w') : w.Step a w' := by
  by_cases hup : a.isUpkeep = true
  · exact h.of_upkeep hup
  cases a with
  | createTraderSeat ctx i =>
    obtain ⟨m, hm, rfl⟩ := h.of_handler rfl
    obtain ⟨hi, hs, ho, hl⟩ := createTraderSeat_eq_ok hm
    exact .opened hi hs ho hl
  | closeTraderSeat ctx i =>
    obtain ⟨m, hm, rfl⟩ := h.of_handler rfl
    obtain ⟨hi, -, hc, -, hl⟩ := closeTraderSeat_eq_ok hm
    exact .closed hi hc hl
  | depositCollateralV3 ctx i amount source =>
    simp only [Accepted, exec, ok_rules, Prod.exists, onLive_eq_ok] at h
    obtain ⟨⟨⟩, _, ⟨m, hm, rfl⟩, rfl⟩ := h
    obtain ⟨hi, ho, -, hl⟩ := depositCollateralV3_eq_ok hm
    exact .deposited hi ho hl
  | withdrawCollateralV3 ctx i amount =>
    simp only [Accepted, exec, ok_rules, Prod.exists, onLive_eq_ok] at h
    obtain ⟨⟨⟩, _, ⟨m, hm, rfl⟩, rfl⟩ := h
    obtain ⟨-, -, seat, hk, hd⟩ := withdrawCollateralV3_eq_ok hm
    exact .withdrawn hk hd
  | requestWithdrawalV3 ctx i amount =>
    simp only [Accepted, exec, ok_rules, Prod.exists, onLive_eq_ok] at h
    obtain ⟨⟨⟩, _, ⟨m, hm, rfl⟩, rfl⟩ := h
    obtain ⟨-, ht, seat, hr, hd⟩ := requestWithdrawalV3_eq_ok hm
    exact .requested ht hr hd
  | depositToInboxV3 ctx amount source =>
    simp only [Accepted, exec, World.depositToInboxV3, ok_rules, exists_checkedU64] at h
    obtain ⟨-, ⟨⟩, -, -, -, rfl⟩ := h
    exact .inboxed
  | claimInboxDepositV3 ctx i trader seen =>
    simp only [Accepted, exec, ok_rules, Prod.exists, onLive_eq_ok] at h
    obtain ⟨hse, amount, _, ⟨m, hm, rfl⟩, rfl⟩ := h
    obtain ⟨hi, ho, ht, hsum, -, hl⟩ := claimInboxDepositV3_eq_ok hm
    exact .credited hi ho ht hse hsum hl
  | claimWithdrawalV3 ctx i =>
    obtain ⟨-, -, ⟨ho, ht⟩, hlt, -, rfl⟩ := accepted_claimWithdrawalV3.1 h
    exact .paid ho ht (by omega)
  | placeOrderV3 ctx order =>
    obtain ⟨m, hm, rfl⟩ := h.of_handler rfl
    exact .traded (.placed hm)
  | cancelOrderV3 ctx i key nonce =>
    obtain ⟨m, hm, rfl⟩ := h.of_handler rfl
    exact .traded (.cancelled hm)
  | cancelAllV3 ctx i max nonce =>
    obtain ⟨m, hm, rfl⟩ := h.of_handler rfl
    exact .traded (.cancelledAll hm)
  | replaceOrderV3 ctx key order =>
    obtain ⟨m, hm, rfl⟩ := h.of_handler rfl
    exact .traded (.replaced hm)
  | liquidateV3 ctx i max =>
    obtain ⟨m, hm, rfl⟩ := h.of_handler rfl
    obtain ⟨mark, config, settled, filled, fee, hma, hliq⟩ := liquidateV3_eq_ok hm
    exact .liquidated hma hliq
  | updateV3RiskConfig ctx config =>
    obtain ⟨m, hm, rfl⟩ := h.of_handler rfl
    obtain ⟨hb, hold, rfl⟩ := updateV3RiskConfig_eq_ok hm
    exact .configured hb hold
  | reconcileVaultV3 ctx =>
    obtain ⟨m, hm, rfl⟩ := h.of_reconcile
    obtain ⟨-, status, phase, hl⟩ := reconcileVaultV3_eq_ok hm
    exact .reconciled hl
  | rollbackV3Undelegation =>
    obtain rfl := pure_eq_ok.1 h
    exact .rolledBack
  | writeBackShard shard =>
    obtain rfl := pure_eq_ok.1 h
    exact .copiedShard
  | writeBackCore =>
    obtain rfl := pure_eq_ok.1 h
    exact .copiedCore
  | donate amount =>
    obtain rfl := pure_eq_ok.1 h
    exact .donated
  | _ => exact absurd rfl hup

end Action

end Equinox
