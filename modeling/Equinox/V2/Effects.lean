import Equinox.V2.Frames
import Equinox.V2.World

/-! # What instructions write

An accepted instruction writes accounts, rewrites the header, and logs events
under the next sequences; an order also logs its fills under the sequences that
were reserved for them. All of it is a number of small steps of four kinds, so
that a law of the small steps is a law of every instruction.
-/

namespace Equinox.V2

open Foundation CritBit List V2.Market

set_option synthInstance.maxSize 1000000

variable {cycle : Bool} {m m' : Market} {ctx : Context} {order : PlaceOrderData} {u : Unit}

/-- Where a market stands between L1 and the rollup. -/
structure CommitCursor where
  status : DelegationStatus
  expected : ℕ
  committed : ℕ
  final : ℕ
  pending : Bool
  deriving DecidableEq

def MarketStateHeader.cursor (header : MarketStateHeader) : CommitCursor where
  status := header.delegationStatus
  expected := header.expectedCommitSequence
  committed := header.lastCommittedSequence
  final := header.expectedFinalCommitSequence
  pending := header.pendingUndelegation

/-- One small step. Only the instructions of the cycle between L1 and the rollup move the
cursor. -/
inductive Market.Writes (cycle : Bool) (m : Market) : Market → Prop
  /-- Arenas, seats, sessions, scratch accounts or the ring of fills. -/
  | accounts {m' : Market} (header : m'.header = m.header) (log : m'.log = m.log) :
      Writes cycle m m'
  | header (header : MarketStateHeader)
      (cursor : cycle = false → header.cursor = m.header.cursor)
      (sequence : header.globalEventSequence = m.header.globalEventSequence)
      (initialized : header.initialized = m.header.initialized) :
      Writes cycle m { m with header }
  | event (kind : EventKind) (t : ℕ) (payload : EventPayload) :
      Writes cycle m (m.logged kind t payload)
  /-- The fills of an order, with the sequences after the stored one. -/
  | fills {m' : Market} (events : List EventRecord) (log : m'.log = m.log ++ events)
      (sequences : events.map EventRecord.sequence =
        range' (m.header.globalEventSequence + 1) events.length)
      (cursor : m'.header.cursor = m.header.cursor)
      (sequence : m'.header.globalEventSequence = m.header.globalEventSequence + events.length)
      (initialized : m'.header.initialized = m.header.initialized) :
      Writes cycle m m'

/-! ## Primitives -/

def Market.record (m : Market) : MarketStateHeader × List EventRecord := (m.header, m.log)

section Primitives

variable {α : Type}

instance unbooked_record : Unbooked record := ⟨fun _ _ => rfl⟩

instance record_writeSeat (i : ℕ) (seat : TraderSeat) :
    Keeps record (writeSeat i seat) where
  of_ok h := by
    obtain ⟨-, rfl⟩ := run_writeSeat.1 h
    rfl

instance record_writeSession (key : SessionKey) (session : Option TradingSession) :
    Keeps record (writeSession key session) := .modify fun _ => rfl

instance (priority := low) takes_of_keeps {x : MarketM α} [h : Keeps record x] :
    Takes (Writes cycle) x := by
  refine .one fun hx => ?_
  obtain ⟨hh, hl⟩ := Prod.mk.inj (h.of_ok hx)
  exact .accounts hh hl

theorem takes_modifyHeader {f : MarketStateHeader → MarketStateHeader}
    (cursor : ∀ header, (f header).cursor = header.cursor)
    (sequence : ∀ header, (f header).globalEventSequence = header.globalEventSequence)
    (initialized : ∀ header, (f header).initialized = header.initialized) :
    Takes (Writes cycle) (modifyHeader f) := .modify fun m =>
    .single (.header _ (fun _ => cursor m.header) (sequence m.header) (initialized m.header))

theorem takes_modifyCursor {f : MarketStateHeader → MarketStateHeader}
    (sequence : ∀ header, (f header).globalEventSequence = header.globalEventSequence)
    (initialized : ∀ header, (f header).initialized = header.initialized) :
    Takes (Writes true) (modifyHeader f) :=
  .modify fun m => .single (.header _ nofun (sequence m.header) (initialized m.header))

instance takes_logEvent (kind : EventKind) (t : ℕ)
    (payload : EventPayload) : Takes (Writes cycle) (logEvent kind t payload) := by
  refine .one fun h => ?_
  obtain ⟨-, rfl⟩ := run_logEvent.1 h
  exact .event _ _ _

end Primitives

/-! ## Trading -/

section Trading

instance takes_creditFees (fee : ℤ) (i t : ℕ) :
    Takes (Writes cycle) (creditFees fee i t) := by
  have (balance : ℕ) : Takes (Writes cycle) (modifyHeader fun header =>
      { header with protocolFeeBalance := balance }) :=
    takes_modifyHeader (fun _ => rfl) (fun _ => rfl) fun _ => rfl
  unfold creditFees
  infer_instance

def fillRecord (kind : EventKind) (event : FillEvent) : EventRecord where
  kind
  sequence := event.sequence
  timestamp := event.timestamp
  payload := .fill event.makerSeat event.takerSeat event.price.val.toNat event.quantity
    event.sequence

theorem recordFills_eq_ok {kind : EventKind} {events : List FillEvent}
    (h : events.forM (recordFill kind) m = .ok u m') :
    m'.record = (m.header, m.log ++ events.map (fillRecord kind)) := by
  induction events generalizing m with
  | nil =>
    obtain ⟨-, rfl⟩ := run_pure_eq_ok.1 h
    rw [map_nil, append_nil]
    rfl
  | cons event events ih =>
    obtain ⟨m₁, hf, h⟩ := run_forM_cons.1 h
    simp only [recordFill, run_modify_bind, emitEvent, run_modify_eq_ok] at hf
    rw [ih h, map_cons, append_cons m.log, ← hf]
    rfl

/-- The events of a settlement have the sequences after the stored one. -/
structure Settlement.Numbered (settlement : Settlement) (s : ℕ) : Prop where
  sequences : settlement.events.map FillEvent.sequence =
    range' (s + 1) settlement.events.length
  final : settlement.finalEventSequence = s + settlement.events.length

theorem settleFill_sequences {header : MarketStateHeader} {side : Side} {plan plan' : SeatPlan}
    {fill : FillRecord}
    (hp : plan.events.map FillEvent.sequence =
      range' (header.globalEventSequence + 1) plan.events.length)
    (h : settleFill m header side plan fill = .ok plan') :
    plan'.events.map FillEvent.sequence =
        range' (header.globalEventSequence + 1) plan'.events.length ∧
      plan'.events.length = plan.events.length + 1 := by
  simp only [settleFill, ok_rules, exists_checkedI128, exists_checkedU64] at h
  obtain ⟨_, -, ⟨_, _⟩, -, ⟨_, _⟩, -, -, -, _, -, _, -, -, rfl⟩ := h
  refine ⟨?_, length_append⟩
  rw [map_append, hp, length_append, length_singleton, range'_1_concat]
  rfl

theorem planSeatResults_numbered {header : MarketStateHeader} {input : OrderInput}
    {taker : TraderSeat} {plan : PlannedMatch} {settlement : Settlement}
    (h : planSeatResults m header input taker plan = .ok settlement) :
    settlement.Numbered header.globalEventSequence := by
  simp only [planSeatResults, ok_rules, exists_checkedU64] at h
  obtain ⟨settled, hf, taker, ht, total, -, -, rfl⟩ := h
  obtain ⟨hs, hl⟩ := foldlM_sum (d := fun _ => 1)
    (P := fun p => p.events.map FillEvent.sequence =
      range' (header.globalEventSequence + 1) p.events.length)
    (g := fun p => p.events.length) (fun fill _ p p' hp hp' => settleFill_sequences hp hp') rfl hf
  refine ⟨hs, ?_⟩
  simp only [length_nil, Nat.zero_add, map_const', sum_replicate, smul_eq_mul, mul_one] at hl
  exact congrArg _ hl.symm

theorem planOrder_numbered {trader owner : Address} {s : Bool} {plan : OrderPlan}
    (h : planOrder m order trader owner s = .ok plan) :
    plan.settlement.Numbered m.header.globalEventSequence := by
  simp only [planOrder, ok_rules, initializedHeader_eq_ok] at h
  obtain ⟨_, ⟨-, -, rfl⟩, _, -, ⟨price, behavior⟩, -, ⟨⟩, -, taker, -, sequence, -, leaf, -,
    scratch, -, planned, -, settlement, hs, ⟨⟩, -, -, -, rfl⟩ := h
  exact planSeatResults_numbered hs

theorem applyOrder_steps {plan : OrderPlan}
    (hp : plan.settlement.Numbered m.header.globalEventSequence)
    (h : applyOrder ctx order plan m = .ok u m') : Relation.ReflTransGen (Writes cycle) m m' := by
  obtain ⟨⟨⟩, m₁, hb, h⟩ := run_bind_eq_ok.1 h
  obtain ⟨⟨⟩, m₂, hr, h⟩ := run_bind_eq_ok.1 h
  obtain ⟨⟨⟩, m₄, hre, h⟩ := run_bind_eq_ok.1 h
  obtain ⟨⟨⟩, m₅, hh, h⟩ := run_bind_eq_ok.1 h
  obtain ⟨⟨⟩, m₆, hl, h⟩ := run_bind_eq_ok.1 h
  obtain ⟨⟨⟩, m₇, hfe, hs⟩ := run_bind_eq_ok.1 h
  obtain ⟨⟨⟩, m₃, hse, hf⟩ := run_bind_eq_ok.1 hre
  generalize (if plan.settlement.plan.remaining = 0 then EventKind.orderFilled
    else .orderPartiallyFilled) = kind at hf
  have hm₃ : m₃.record = m.record := by
    rw [kept_of_ok record hse, kept_of_ok record hr, kept_of_ok record hb]
  obtain ⟨hh₃, hl₃⟩ := Prod.mk.inj hm₃
  obtain ⟨hh₄, hl₄⟩ := Prod.mk.inj (recordFills_eq_ok hf)
  rw [hh₃] at hh₄
  rw [hl₃] at hl₄
  -- the fills and the counters are written at once
  have hfi : Writes cycle m m₅ := by
    rw [← run_modify_eq_ok.1 hh]
    refine .fills (plan.settlement.events.map (fillRecord kind)) ?log ?sequences ?cursor ?sequence
      ?initialized
    case log => exact hl₄
    case sequences =>
      rw [map_map, length_map]
      exact hp.sequences
    case cursor => rw [← hh₄]; rfl
    case sequence => rw [length_map]; exact hp.final
    case initialized => rw [← hh₄]
  have hs' : Writes cycle m₇ m' := by
    rw [← run_modify_eq_ok.1 hs]
    exact .accounts rfl rfl
  have hl' : Relation.ReflTransGen (Writes cycle) m₅ m₆ := Leads.of_ok hl
  have hfe' : Relation.ReflTransGen (Writes cycle) m₆ m₇ := Leads.of_ok hfe
  exact ((Relation.ReflTransGen.single hfi).trans hl').trans (hfe'.tail hs')

instance takes_placeOrderCore (owner : Address) (s : Bool) :
    Takes (Writes cycle) (placeOrderCore ctx order owner s) where
  of_ok {m result m'} h := by
    simp only [placeOrderCore, run_rules] at h
    obtain ⟨plan, hp, h⟩ := h
    obtain ⟨⟨⟩, m₁, ha, he⟩ := run_bind_eq_ok.1 h
    obtain ⟨-, rfl⟩ := run_pure_eq_ok.1 he
    exact applyOrder_steps (planOrder_numbered hp) ha

instance record_cancelOrderCore (i : ℕ) (key : Key) :
    Keeps record (cancelOrderCore i key) := by
  unfold cancelOrderCore
  infer_instance

end Trading

/-! ## The vault -/

theorem reconciledHeader_eq_ok {header he' : MarketStateHeader} {actual expected : ℤ}
    {kind : EventKind} (h : reconciledHeader header actual expected = .ok (he', kind)) :
    he'.cursor = header.cursor ∧ he'.globalEventSequence = header.globalEventSequence ∧
      he'.initialized = header.initialized := by
  unfold reconciledHeader at h
  split at h
  · obtain ⟨rfl, -⟩ := Prod.mk.inj (pure_eq_ok.1 h)
    exact ⟨rfl, rfl, rfl⟩
  split at h
  · simp only [ok_rules, exists_checkedU64] at h
    obtain ⟨rfl, -⟩ := Prod.mk.inj h.2
    exact ⟨rfl, rfl, rfl⟩
  · obtain ⟨rfl, -⟩ := Prod.mk.inj (pure_eq_ok.1 h)
    exact ⟨rfl, rfl, rfl⟩

instance takes_reconcileVault (accounts : CustodyAccounts) :
    Takes (Writes cycle) (reconcileVault ctx accounts) where
  of_ok {m u m'} h := by
    simp only [reconcileVault, run_rules, initializedHeader_eq_ok, run_modifyHeader_bind,
      run_logEvent] at h
    obtain ⟨_, ⟨-, -, rfl⟩, -, -, expected, -, ⟨updated, kind⟩, hu, -, rfl⟩ := h
    obtain ⟨hc, hs, hi⟩ := reconciledHeader_eq_ok hu
    exact .tail (.single (.header updated (fun _ => hc) hs hi)) (.event _ _ _)

/-! ## All instructions -/

namespace Action

/-- The instructions that move the market between L1 and the rollup. -/
def isCycle : Action → Bool
  | delegateMarket .. | commitMarket .. | commitAndUndelegateMarket .. | undelegateCallback .. =>
    true
  | _ => false

theorem takes_handler_of_isCycle {a : Action} (ha : a.isCycle = true) (vault : TokenAccount) :
    Takes (Writes true) (a.handler vault) := by
  cases a with
  | delegateMarket | commitMarket | commitAndUndelegateMarket | undelegateCallback =>
    simp only [handler, V2.delegateMarket, commitMarketInner, V2.undelegateCallback]
    repeat' first
      | intro _ | exact takes_modifyCursor (fun _ => rfl) fun _ => rfl | infer_instance
      | apply Leads.andThen | split
  | _ => cases ha

theorem initializeMarketAccount_ne_ok {authority : Address} {id : ℕ}
    (hm : m.header.initialized = true) : initializeMarketAccount authority id m ≠ .ok u m' := by
  intro h
  simp only [initializeMarketAccount, run_asking_bind, run_lift_bind, exists_require] at h
  exact Bool.false_ne_true (h.1.symm.trans hm)

/-- Every instruction on a market is a number of small steps. -/
theorem steps_of_handler {a : Action} {vault : TokenAccount} (hm : m.header.initialized = true)
    (h : a.handler vault m = .ok u m') : Relation.ReflTransGen (Writes a.isCycle) m m' := by
  cases a with
  | initializeMarket => exact absurd h (initializeMarketAccount_ne_ok hm)
  | createPerpMarket =>
    simp only [handler, V2.createPerpMarket, run_lift_bind, exists_require] at h
    obtain ⟨⟨⟩, m₁, hc, -⟩ := run_bind_eq_ok.1 h.2
    exact absurd hc (initializeMarketAccount_ne_ok hm)
  | reconcileVault => exact (takes_reconcileVault _).of_ok h
  | placeOrder | replaceOrder | cancelOrder | cancelAll =>
    simp only [handler, V2.placeOrder, V2.replaceOrder, V2.cancelOrder, V2.cancelAll] at h
    exact Leads.of_ok h
  | delegateMarket | commitMarket | commitAndUndelegateMarket | undelegateCallback =>
    exact (takes_handler_of_isCycle rfl vault).of_ok h
  | donate => exact (Leads.pure ()).of_ok h
  | withdrawProtocolFees | withdrawInsuranceFunds | initializeVault | createSeat | closeSeat
  | initializeSettlementScratch | depositCollateral | withdrawCollateral
  | transferToInsuranceFund | recordBadDebt | resolveBadDebt | updateFunding | liquidate
  | consumeOracleUpdate | transitionMarket | updateMarketRisk | authorizeTradingSession
  | revokeTradingSession | updateTradingSessionLimits | closeTradingSession =>
    refine (?_ : Takes (Writes false) _).of_ok h
    simp only [handler, withdrawLedgerBalance, MarketStateHeader.withLedgerBalance,
      configureVaultHeader, V2.createSeat, V2.closeSeat, V2.initializeSettlementScratch,
      V2.depositCollateral, V2.withdrawCollateral, V2.transferToInsuranceFund, V2.recordBadDebt,
      V2.resolveBadDebt, V2.updateFunding, V2.liquidate, V2.consumeOracleUpdate,
      V2.transitionMarket, V2.updateMarketRisk, V2.authorizeTradingSession,
      V2.revokeTradingSession, V2.updateTradingSessionLimits, V2.closeTradingSession]
    repeat' first
      | intro _ | exact takes_modifyHeader (fun _ => rfl) (fun _ => rfl) fun _ => rfl
      | exact @takes_of_keeps _ _ _ (.modify fun _ => rfl) | infer_instance | apply Leads.andThen

end Action

end Equinox.V2
