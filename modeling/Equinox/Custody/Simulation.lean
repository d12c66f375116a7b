import Equinox.Custody.Claims
import Equinox.Market.Steps

/-! # Custody of the market

The market is a custodian of its traders' deposits: seats are accounts, the inbox
and request counters live in their reserved bytes, and payouts read the copy on
L1. Trading is idle for custody.
-/

namespace Equinox

open Foundation CritBit Function Custody TraderSeat Market

variable {a : Action} {w w' : World} {m m' : Market} {as : List Action}

def TraderSeat.claim (seat : TraderSeat) : Claim Address where
  holder := if seat.occupancy = true then some seat.trader else none
  collateral := seat.availableCollateral
  credited := seat.inboxCredited
  requested := seat.withdrawalRequested

def World.custody (w : World) : State Address where
  claims i := (w.live.seats i).claim
  committed i := (w.l1.seats i).claim
  ledger := w.live.core.vaultLiability + w.live.core.protocolFeeBalance
  deposited := w.total .inboxDeposited
  credited := w.total .inboxCredited
  requested := w.total .withdrawalRequested
  paid := w.total .withdrawalPaid

def Action.event : Action → Event Address
  | createTraderSeat ctx i => .opened i ctx.signer
  | closeTraderSeat _ i => .closed i
  | depositCollateralV3 _ i amount _ => .deposited i amount
  | withdrawCollateralV3 _ i amount => .withdrawn i amount
  | requestWithdrawalV3 ctx i amount => .requested i ctx.signer amount
  | depositToInboxV3 ctx amount _ => .inboxed ctx.signer amount
  | claimInboxDepositV3 _ i trader seen => .credited i trader seen
  | claimWithdrawalV3 ctx i => .paid i ctx.signer
  | rollbackV3Undelegation => .ledgerLost
  | _ => .idle

/-! ## Totals -/

namespace World

variable {kind kind' : MovementKind} {trader : Address} {amount : ℕ}

theorem total_record_self : (w.record kind trader amount).total kind =
    update (w.total kind) trader (w.total kind trader + amount) := by
  ext t
  rcases eq_or_ne t trader with rfl | hne
  · simp [total, record, add_comm]
  · simp [total, record, hne, hne.symm]

theorem total_record_of_ne (h : kind ≠ kind') :
    (w.record kind trader amount).total kind' = w.total kind' := by
  ext t
  simp [total, record, h]

/-- The receipts hold what was deposited into them, and the payout records what was paid. -/
structure Accounted (w : World) : Prop where
  receipts : w.receipts = w.total .inboxDeposited
  payouts : w.payouts = w.total .withdrawalPaid

theorem Initial.accounted (h : w.Initial) : w.Accounted := by
  constructor <;> ext trader
  · simp [h.receipts, total, h.history]
  · simp [h.payouts, total, h.history]

theorem Accounted.step (h : w.Accounted) (hs : w.Step a w') : w'.Accounted := by
  cases hs with
  | requested | credited =>
    constructor
    · rw [total_record_of_ne (by decide)]
      exact h.receipts
    · rw [total_record_of_ne (by decide)]
      exact h.payouts
  | inboxed =>
    constructor
    · rw [total_record_self]
      change update w.receipts _ _ = update (w.total _) _ _
      rw [h.receipts]
      rfl
    · rw [total_record_of_ne (by decide)]
      exact h.payouts
  | paid ho ht hsum =>
    constructor
    · rw [total_record_of_ne (by decide)]
      exact h.receipts
    · rw [total_record_self]
      change update w.payouts _ _ = update (w.total _) _ _
      rw [← hsum, h.payouts]
      rfl
  | _ => exact ⟨h.receipts, h.payouts⟩

end World

/-! ## Simulation -/

variable {seat : TraderSeat}

theorem TraderSeat.claim_eq {seat' : TraderSeat} (h : seat.SameClaims seat') :
    seat'.claim = seat.claim := by
  simp only [claim, h.occupancy, h.trader, h.availableCollateral, h.inboxCredited,
    h.withdrawalRequested]

theorem TraderSeat.holder_of_occupied (h : seat.occupancy = true) :
    seat.claim.holder = some seat.trader := if_pos h

variable {i : ℕ}

theorem claim_withSeat :
    (fun j => ((m.withSeat i seat).seats j).claim) =
      update (fun j => (m.seats j).claim) i seat.claim := by
  ext1 j
  rcases eq_or_ne j i with rfl | hne
  · rw [seats_withSeat_self, update_self]
  · rw [seats_withSeat_of_ne hne, update_of_ne hne]

/-- Trading and upkeep are idle for custody. -/
structure Market.KeepsClaims (m m' : Market) : Prop where
  claims : ∀ i, (m'.seats i).claim = (m.seats i).claim
  ledger : m'.core.vaultLiability + m'.core.protocolFeeBalance =
    m.core.vaultLiability + m.core.protocolFeeBalance

theorem Market.Traded.keepsClaims (h : m.Traded m') : m.KeepsClaims m' := by
  obtain ⟨fees, _, _, _, -, -, -, hc⟩ := h.core
  refine ⟨fun i => claim_eq (h.claims i), ?_⟩
  rw [hc]
  dsimp only
  omega

theorem Market.SameAccounts.keepsClaims (h : m.SameAccounts m') : m.KeepsClaims m' :=
  ⟨fun i => by rw [h.seats], by rw [h.vaultLiability, h.protocolFeeBalance]⟩

theorem Market.Liquidated.keepsClaims {maxQuantity : ℕ} {mark fee : ℤ} {config : V3RiskConfig}
    {settled filled : TraderSeat}
    (h : Liquidated i maxQuantity mark config settled filled fee m m') : m.KeepsClaims m' := by
  obtain ⟨state, ⟨_, hc⟩, -⟩ := h.result
  exact ⟨fun j => claim_eq (h.sameClaims j), by rw [hc]⟩

theorem World.custody_step {e : Event Address}
    (ha : e.Allowed v3SeatCount w.custody)
    (hs : { w'.custody with committed := w.custody.committed } = e.apply w.custody)
    (hc : ∀ i, w'.l1.seats i = w.l1.seats i ∨ w'.l1.seats i = w'.live.seats i) :
    Custody.Step v3SeatCount e w.custody w'.custody := by
  refine ⟨ha, w'.custody.committed, by rw [← hs], fun i => ?_⟩
  rcases hc i with heq | heq
  · exact .inl (congrArg claim heq)
  · rw [← hs]
    exact .inr (congrArg claim heq)

theorem Market.KeepsClaims.custody (h : w.live.KeepsClaims m) :
    { (w.withLive m).custody with committed := w.custody.committed } = w.custody := by
  have hc : (fun i => (m.seats i).claim) = fun i => (w.live.seats i).claim := funext h.claims
  simp only [World.custody, World.withLive, hc, h.ledger]
  rfl

theorem Market.KeepsClaims.idle (h : w.live.KeepsClaims m) :
    Step v3SeatCount .idle w.custody (w.withLive m).custody :=
  World.custody_step trivial h.custody World.seats_withLive

theorem World.custody_withSeat {core : MarketCore}
    (h : Logged { w.live.withSeat i seat with core := core } m) :
    { (w.withLive m).custody with committed := w.custody.committed } = { w.custody with
      claims := update w.custody.claims i seat.claim
      ledger := core.vaultLiability + core.protocolFeeBalance } := by
  obtain ⟨⟨s, hco⟩, -, hs, -⟩ := h
  have hc : (fun j => (m.seats j).claim) =
      update (fun j => (w.live.seats j).claim) i seat.claim := by
    rw [hs]
    exact claim_withSeat
  simp only [custody, withLive, hc, hco]
  rfl

theorem World.holder_ne_of_seated {trader : Address} {j : ℕ} (h : w.live.seated trader = false)
    (hj : j < v3SeatCount) : (w.custody.claims j).holder ≠ some trader := by
  simp only [seated, List.any_eq_false, List.mem_range] at h
  have := h j hj
  simp only [custody, claim]
  split <;> simp_all

theorem World.holder_isSome (h : (w.live.seats i).occupancy = true) :
    (w.custody.claims i).holder = some (w.live.seats i).trader := if_pos h

theorem World.holder_eq_none (h : (w.live.seats i).occupancy = false) :
    (w.custody.claims i).holder = none := if_neg (by simp [h])

/-- What the market does, custody sees as its event. -/
theorem World.Step.custody (h : w.Step a w') (hw : w.Accounted) :
    Custody.Step v3SeatCount a.event w.custody w'.custody := by
  cases h with
  | opened index absent vacant logged =>
    exact custody_step ⟨index, holder_eq_none vacant, fun j => holder_ne_of_seated absent⟩
      (custody_withSeat logged) seats_withLive
  | closed index closable logged =>
    simp only [canClose, Bool.and_eq_true] at closable
    have := holder_isSome closable.1.1.1.1
    exact custody_step ⟨index, by simp [this]⟩ (custody_withSeat logged) seats_withLive
  | deposited index occupied logged =>
    refine custody_step ⟨index, by simp [holder_isSome occupied]⟩ ?_ seats_withLive
    refine (custody_withSeat logged).trans ?_
    simp only [Event.apply, Action.event, World.custody, claim,
      add_right_comm _ (_ : ℤ) w.live.core.protocolFeeBalance]
  | @withdrawn ctx i amount seat m kept debited =>
    obtain ⟨payment, hse⟩ := debited.paid
    refine custody_step ⟨debited.index, by simp [holder_isSome debited.occupied],
      debited.covered⟩ ?_ seats_withLive
    refine (custody_withSeat debited.logged).trans ?_
    rw [hse, kept]
    simp only [Event.apply, Action.event, World.custody, claim, sub_add_eq_add_sub]
  | @requested ctx i amount seat m owner raised debited =>
    obtain ⟨payment, hse⟩ := debited.paid
    refine custody_step ⟨debited.index, by rw [holder_isSome debited.occupied, owner],
      debited.covered⟩ ?_ seats_withLive
    have hs := custody_withSeat debited.logged
    rw [hse, raised] at hs
    have hc := congrArg State.claims hs
    have hl := congrArg State.ledger hs
    exact State.ext hc rfl (hl.trans (sub_add_eq_add_sub ..))
      (total_record_of_ne (by decide)) (total_record_of_ne (by decide)) total_record_self
      (total_record_of_ne (by decide))
  | inboxed =>
    exact custody_step trivial (State.ext rfl rfl rfl total_record_self
      (total_record_of_ne (by decide)) (total_record_of_ne (by decide))
      (total_record_of_ne (by decide))) fun _ => .inl rfl
  | @credited ctx i amount seen trader m index occupied owner bound sum logged =>
    have hs := custody_withSeat logged
    have hc := congrArg State.claims hs
    have hl := congrArg State.ledger hs
    obtain rfl : seen - (w.live.seats i).inboxCredited = amount := by omega
    have hle : (w.live.seats i).inboxCredited ≤ seen := by omega
    refine custody_step ⟨index, by rw [holder_isSome occupied, owner], hle,
      bound.trans_eq (congrFun hw.receipts trader)⟩ ?_ seats_withLive
    exact State.ext hc rfl (hl.trans (add_right_comm ..))
      (total_record_of_ne (by decide)) total_record_self (total_record_of_ne (by decide))
      (total_record_of_ne (by decide))
  | @paid ctx i amount occupied owner sum =>
    rw [hw.payouts] at sum
    have hh : (w.l1.seats i).claim.holder = some ctx.signer := by
      rw [holder_of_occupied occupied, owner]
    have hle : w.total .withdrawalPaid ctx.signer ≤ (w.l1.seats i).withdrawalRequested := by omega
    refine custody_step ⟨hh, hle⟩ ?_ fun _ => .inl rfl
    refine State.ext rfl rfl rfl (total_record_of_ne (by decide))
      (total_record_of_ne (by decide)) (total_record_of_ne (by decide)) ?_
    refine total_record_self.trans ?_
    change update (w.total _) _ (w.total _ _ + amount) = _
    rw [sum]
    rfl
  | traded trades =>
    have hk := trades.traded.keepsClaims
    cases trades <;> exact hk.idle
  | liquidated price liquidated => exact liquidated.keepsClaims.idle
  | configured bounds => exact KeepsClaims.idle ⟨fun _ => rfl, rfl⟩
  | kept upkeep same =>
    cases a <;> first | exact same.keepsClaims.idle | simp [Action.isUpkeep] at upkeep
  | reconciled logged =>
    obtain ⟨⟨s, hco⟩, -, hsea, -⟩ := logged
    have hk : w.live.KeepsClaims _ := ⟨fun i => by rw [hsea], by rw [hco]⟩
    exact custody_step trivial hk.custody fun _ => .inr rfl
  | rolledBack => exact custody_step trivial rfl fun _ => .inl rfl
  | copiedShard =>
    refine custody_step trivial rfl fun i => ?_
    dsimp only
    split
    · exact .inr rfl
    · exact .inl rfl
  | copiedCore | donated => exact custody_step trivial rfl fun _ => .inl rfl

end Equinox
