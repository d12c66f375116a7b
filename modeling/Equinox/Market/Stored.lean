import Equinox.Market.Agreement
import Equinox.Market.Frozen
import Equinox.Market.Headers
import Equinox.Market.Ledgers

/-! # Stored numbers and names

In every reachable state the order fields of each seat fit the integers they are
stored in, a seat with orders has a trader, and the pages of both books have blank
headers after the first. A delegated core is initialized and, but for the
liability of the vault, readable.
-/

namespace Equinox

open Foundation CritBit PagedBookV3 Market MarketCore

variable {a : Action} {w w' w₀ : World} {as : List Action} {m m' : Market} {ctx : Context}
  {order : PlaceOrderData} {prepared : PreparedOrder} {actions i : ℕ} {consume : Bool}
  {seat seat' : TraderSeat} {u : Unit}

/-! ## Seats -/

/-- The order fields fit, and orders have an owner. -/
structure TraderSeat.Stored (seat : TraderSeat) : Prop where
  range : ∀ k ≠ .count, InI128 (seat.ordered k)
  named : seat.openOrderCount ≠ 0 → seat.trader ≠ 0

theorem TraderSeat.Stored.of_ordered_eq (h : seat.Stored)
    (ho : ∀ k, seat'.ordered k = seat.ordered k) (ht : seat'.trader = seat.trader) :
    seat'.Stored where
  range k hk := by
    rw [ho]
    exact h.range k hk
  named hc := by
    have heq : (seat'.openOrderCount : ℤ) = seat.openOrderCount := ho .count
    rw [ht]
    exact h.named (by omega)

theorem TraderSeat.stored_of_ordered_zero (h : ∀ k, seat.ordered k = 0) : seat.Stored where
  range k _ := by
    rw [h]
    decide
  named hc := by
    have hz : (seat.openOrderCount : ℤ) = 0 := h .count
    exact absurd (by omega) hc

theorem TraderSeat.Stored.withExposure {reserved exposure : ℤ} {count : ℕ} (hs : seat.Stored)
    (hm : InI128 reserved) (he : InI128 exposure) (hn : count ≠ 0 → seat.trader ≠ 0) (side : Side) :
    Stored ({ seat with reservedMargin := reserved, openOrderCount := count }.withExposure side
      exposure) := by
  constructor
  · intro k hk
    cases k with
    | count => exact absurd rfl hk
    | margin => cases side <;> exact hm
    | bid =>
      cases side with
      | bid => exact he
      | ask => exact hs.range .bid hk
    | ask =>
      cases side with
      | bid => exact hs.range .ask hk
      | ask => exact he
  · cases side <;> exact hn

theorem TraderSeat.Stored.release {margin : ℤ} {closes : Bool} {side : Side} {quantity : ℕ}
    (hs : seat.Stored) (h : seat.release margin closes side quantity = .ok seat') :
    seat'.Stored := by
  simp only [TraderSeat.release, ok_rules, exists_checkedI128] at h
  obtain ⟨hm, -, he, rfl⟩ := h
  exact hs.withExposure hm he (fun hne => hs.named (by omega)) side

theorem TraderSeat.Stored.reserve {margin : ℤ} {side : Side} {quantity : ℕ} (hs : seat.Stored)
    (ht : seat.trader ≠ 0) (h : seat.reserve margin side quantity = .ok seat') : seat'.Stored := by
  simp only [TraderSeat.reserve, ok_rules, exists_checkedI128] at h
  obtain ⟨-, -, hm, -, he, rfl⟩ := h
  exact hs.withExposure hm he (fun _ => ht) side

/-! ## Markets -/

structure Market.Stored (m : Market) : Prop where
  seats : ∀ i, (m.seats i).Stored
  headers : ∀ side, ∀ page < bookPagesPerSide - 1, (m.books side).tailBlank page = true

theorem Market.stored_withSeat (hm : ∀ j, (m.seats j).Stored) (hs : seat.Stored) (j : ℕ) :
    ((m.withSeat i seat).seats j).Stored := by
  by_cases hj : j = i
  · rw [hj, seats_withSeat_self]
    exact hs
  · rw [seats_withSeat_of_ne hj]
    exact hm j

theorem restRemainder_trader (h : restRemainder order prepared m = .ok u m')
    (hr : order.rests prepared.plan = true) : (m.seats order.seatIndex).trader ≠ 0 := by
  simp only [restRemainder, hr, if_true, run_rules, v3TradeSeat_eq_ok] at h
  obtain ⟨_, -, _, ⟨-, -, ht, rfl⟩, -⟩ := h
  exact ht

theorem Market.Executed.stored_seats {mBook mCancel mFill mRest mFund : Market}
    (h : Executed order prepared m mBook mCancel mFill mRest mFund m')
    (hm : ∀ i, (m.seats i).Stored) : ∀ i, (m'.seats i).Stored := by
  have hb : ∀ i, (mBook.seats i).Stored := by
    rw [h.seats_book]
    exact hm
  have hc : ∀ i, (mCancel.seats i).Stored := by
    refine run_forM_invariant (P := fun s : Market => ∀ i, (s.seats i).Stored)
      (fun cancel _ s s' hs hr => ?_) hb h.cancel
    obtain ⟨-, released, hrel, rfl⟩ := releaseCancelled_eq_ok hr
    exact stored_withSeat hs ((hs _).release hrel)
  have hfi : ∀ i, (mFill.seats i).Stored := by
    refine run_forM_invariant (P := fun s : Market => ∀ i, (s.seats i).Stored)
      (fun fill _ s s' hs hr => ?_) hc h.fill
    obtain ⟨_, _, makerSeat, takerSeat, hf⟩ := settleV3Fill_eq_ok hr
    obtain ⟨filled, hfil, hrel⟩ := hf.dealt_maker
    have hma : makerSeat.Stored :=
      ((hs _).of_ordered_eq hfil.ordered hfil.claims.trader).release hrel
    have ht : takerSeat.Stored :=
      (hs _).of_ordered_eq hf.dealt_taker.ordered hf.dealt_taker.claims.trader
    rw [hf.result]
    exact stored_withSeat (stored_withSeat hs hma) ht
  have hre : ∀ i, (mRest.seats i).Stored := by
    rcases restRemainder_eq_ok h.rest with ⟨-, rfl⟩ | ⟨hrests, -, reserved, _, b, -, hres, -, rfl⟩
    · exact hfi
    · exact stored_withSeat hfi ((hfi _).reserve (restRemainder_trader h.rest hrests) hres)
  have hfu : ∀ i, (mFund.seats i).Stored := by
    rcases settleTakerFunding_eq_ok h.fund with ⟨-, rfl⟩ | ⟨-, -, -, rfl⟩
    · exact hre
    · refine stored_withSeat hre ((hre _).of_ordered_eq (fun k => ?_) rfl)
      cases k <;> rfl
  rw [h.seats_record]
  exact hfu

theorem Market.Stored.placed (hm : m.Stored)
    (h : placeOrderV3WithAction ctx order actions consume m = .ok u m') : m'.Stored := by
  obtain ⟨prepared, _, _, _, _, _, -, hex⟩ := placeOrderV3WithAction_eq_ok h
  refine ⟨hex.stored_seats hm.seats, fun side page hp => ?_⟩
  obtain ⟨hpl, ho⟩ := hex.books
  rcases prepared.side.eq_or_eq_opposite side with rfl | rfl
  · rcases ho with ⟨-, hs⟩ | ⟨-, handle, hi⟩
    · rw [hs]
      exact hm.headers _ page hp
    · rw [kept_of_ok tailBlank hi]
      exact hm.headers _ page hp
  · rw [kept_of_ok tailBlank hpl]
    exact hm.headers _ page hp

theorem Market.Stored.cancelled {side : Side} {tree : TreeKind} {leaf : LeafNode} (hm : m.Stored)
    (h : Cancelled i side tree leaf m m') : m'.Stored := by
  obtain ⟨_, _, -, -, -, _, b, _, _, released, hc, -, -, hr, hl⟩ := h.found
  constructor
  · rw [hl.seats]
    exact stored_withSeat hm.seats ((hm.seats i).release hr)
  · intro s page hp
    rw [hl.books]
    by_cases hs : s = side
    · subst hs
      dsimp only
      rw [Function.update_self, kept_of_ok (x := removeOwned _ _ _) tailBlank hc]
      exact hm.headers s page hp
    · dsimp only
      rw [Function.update_of_ne hs]
      exact hm.headers s page hp

theorem Market.Stored.of_eq (hm : m.Stored) (hb : m'.books = m.books)
    (hs : ∀ i, (m'.seats i).Stored) : m'.Stored := by
  refine ⟨hs, ?_⟩
  rw [hb]
  exact hm.headers

theorem Market.Stored.sameLedgers (hm : m.Stored) (h : m.SameLedgers m') : m'.Stored :=
  hm.of_eq h.books (by rw [h.seats]; exact hm.seats)

theorem World.Turn.stored (h : w.Turn a w') (hw : w.live.Stored) : w'.live.Stored := by
  cases h with
  | opened _ _ logged =>
    refine hw.of_eq logged.books ?_
    rw [logged.seats]
    exact stored_withSeat hw.seats
      (TraderSeat.stored_of_ordered_zero (TraderSeat.ordered_opened _ _))
  | closed _ _ logged =>
    refine hw.of_eq logged.books ?_
    rw [logged.seats]
    exact stored_withSeat hw.seats (TraderSeat.stored_of_ordered_zero TraderSeat.ordered_empty)
  | traded trades =>
    exact trades.induction (fun _ _ _ _ _ _ hm hp => hm.placed hp)
      (fun _ _ _ _ _ _ hm hc => hm.cancelled hc) (fun _ _ hm hs => hm.sameLedgers hs) hw
  | liquidated _ liquidated =>
    exact hw.of_eq liquidated.books fun i =>
      (hw.seats i).of_ordered_eq (liquidated.ordered i) (liquidated.sameClaims i).trader
  | configured _ _ result | rolledBack result =>
    rw [result]
    exact ⟨hw.seats, hw.headers⟩
  | kept ho _ _ _ =>
    exact hw.of_eq ho.books fun i =>
      (hw.seats i).of_ordered_eq (ho.ordered i) (ho.trader i)

theorem World.stored_of_run (hi : w₀.Initial) (hr : Run Action.Accepted w₀ as w) :
    w.live.Stored := by
  refine hr.invariant (P := fun w => w.live.Stored) ⟨fun i => ?_, fun side => ?_⟩
    fun _ _ _ hw ha => ha.step.turn.stored hw
  · rw [hi.seats]
    exact TraderSeat.stored_of_ordered_zero TraderSeat.ordered_empty
  · exact (hi.books side).tailBlank

/-! ## Cores -/

/-- Everything that is checked of a core but the liability of the vault. -/
structure MarketCore.Configured (core : MarketCore) : Prop where
  initialized : core.initialized = true
  version : core.riskConfigVersion = v3RiskConfigVersion
  inBounds : core.config.effective.InBounds
  openInterest : 0 ≤ core.currentOpenInterest
  protocolFees : 0 ≤ core.protocolFeeBalance
  insurance : 0 ≤ core.insuranceBalance
  badDebt : 0 ≤ core.badDebt
  status : core.reconciliationStatus ≤ 3

theorem MarketCore.Configured.readable_iff {core : MarketCore} (h : core.Configured) :
    core.Readable ↔ 0 ≤ core.vaultLiability := by
  rw [MarketCore.readable_iff]
  constructor
  · rintro ⟨-, -, ⟨-, -, -, -, hl⟩, -⟩
    exact hl
  · intro hl
    exact ⟨h.version, h.inBounds,
      ⟨h.openInterest, h.protocolFees, h.insurance, h.badDebt, hl⟩, h.status⟩

/-- A commit or an abort leaves the core initialized, and does not delegate it. -/
theorem Action.Accepted.status_of_commit (h : a.Accepted w w') (ha : a.isCommit = true) :
    w'.live.core.initialized = w.live.core.initialized ∧
      (w'.live.core.delegationStatus = .delegated → w.live.core.delegationStatus = .delegated) := by
  cases a with
  | commitV3Bundle =>
    obtain ⟨m, hm, rfl⟩ := h.of_handler rfl
    simp only [Equinox.commitV3Bundle, run_rules, run_modifyCore_bind] at hm
    obtain ⟨-, ⟨⟩, -, ⟨-, hs, -⟩, hm⟩ := hm
    obtain ⟨⟨⟩, m₁, hev, he⟩ := run_bind_eq_ok.1 hm
    obtain ⟨-, -, rfl⟩ := appendEventRecord_eq_ok.1 hev
    obtain rfl := run_modifyCore.1 he
    exact ⟨rfl, fun _ => hs⟩
  | commitV3Member =>
    obtain ⟨m, hm, rfl⟩ := h.of_handler rfl
    simp only [Equinox.commitV3Member, run_rules, run_modifyCore] at hm
    obtain ⟨-, ⟨hs, -⟩, -, -, -, -, rfl⟩ := hm
    refine ⟨?_, fun _ => hs⟩
    simp only [World.withLive, openSnapshot]
    split <;> rfl
  | commitV3Core ctx sequence kind =>
    obtain ⟨m, hm, rfl⟩ := h.of_handler rfl
    simp only [Equinox.commitV3Core, run_rules, run_modifyCore] at hm
    obtain ⟨-, ⟨hs, -⟩, -, -, -, rfl⟩ := hm
    refine ⟨?_, fun _ => hs⟩
    cases kind <;> rfl
  | abortV3Snapshot =>
    obtain ⟨m, hm, rfl⟩ := h.of_handler rfl
    simp only [Equinox.abortV3Snapshot, run_rules, run_modifyCore] at hm
    obtain ⟨-, -, rfl⟩ := hm
    exact ⟨rfl, id⟩
  | _ => cases ha

theorem Action.Accepted.delegated_of_reconcile (h : (Action.reconcileVaultV3 ctx).Accepted w w')
    (hs : w'.live.core.delegationStatus = .delegated) :
    w.live.core.delegationStatus = .delegated := by
  obtain ⟨m, hm, rfl⟩ := h.of_reconcile
  simp only [Equinox.reconcileVaultV3, run_rules, exists_checkedI128, exists_checkedU64,
    run_modifyCore_bind] at hm
  obtain ⟨⟨⟩, -, -, -, -, -, -, -, hm⟩ := hm
  obtain ⟨-, -, rfl⟩ := appendEventRecord_eq_ok.1 hm
  simp only [World.withLive, appended] at hs
  split at hs
  · cases hs
  · exact hs

theorem Action.Accepted.delegated_before (h : a.Accepted w w')
    (ha : ∀ ctx validator, a ≠ .delegateV3Core ctx validator)
    (hs : w'.live.core.delegationStatus = .delegated) :
    w.live.core.delegationStatus = .delegated := by
  cases hc : a.isCommit with
  | true => exact (h.status_of_commit hc).2 hs
  | false =>
    cases hm : a.isMove with
    | false =>
      have hl := congrArg delegationStatus (h.lasting_eq hc hm)
      exact hl.symm.trans hs
    | true =>
      cases a with
      | delegateV3Core ctx validator => exact absurd rfl (ha ctx validator)
      | reconcileVaultV3 => exact h.delegated_of_reconcile hs
      | rollbackV3Undelegation =>
        obtain rfl := pure_eq_ok.1 h
        cases hs
      | _ => cases hm

theorem Action.Accepted.initialized_of_upkeep (h : a.Accepted w w') (hup : a.isUpkeep = true) :
    w'.live.core.initialized = w.live.core.initialized := by
  cases hc : a.isCommit with
  | true => exact (h.status_of_commit hc).1
  | false =>
    cases hm : a.isMove with
    | false =>
      have hl := congrArg initialized (h.lasting_eq hc hm)
      exact hl
    | true =>
      cases a with
      | delegateV3Core =>
        obtain ⟨-, -, _, hco⟩ := h.delegates
        rw [hco]
      | reconcileVaultV3 | rollbackV3Undelegation => cases hup
      | _ => cases hm

theorem Market.Logged.configured (h : m.Logged m') (hm : m.core.Configured) :
    m'.core.Configured := by
  obtain ⟨_, hc⟩ := h.core
  rw [hc]
  exact ⟨hm.1, hm.2, hm.3, hm.4, hm.5, hm.6, hm.7, hm.8⟩

theorem Market.Traded.configured (h : m.Traded m') (hm : m.core.Configured) :
    m'.core.Configured := by
  obtain ⟨fees, oi, _, _, hf, -, hoi, hc⟩ := h.core
  rw [hc]
  exact ⟨hm.1, hm.2, hm.3, hoi hm.openInterest, add_nonneg hm.protocolFees hf, hm.6, hm.7, hm.8⟩

theorem Market.Liquidated.configured {maxQuantity : ℕ} {mark fee : ℤ} {config : V3RiskConfig}
    {settled filled : TraderSeat}
    (h : Liquidated i maxQuantity mark config settled filled fee m m')
    (hm : m.core.Configured) : m'.core.Configured := by
  obtain ⟨_, hl⟩ := h.result
  refine hl.configured ⟨hm.1, hm.2, hm.3, h.openInterest_nonneg, hm.protocolFees,
    add_nonneg hm.insurance h.dealt.fee_nonneg, ?_, hm.status⟩
  have hd := hm.badDebt
  dsimp only
  split <;> omega

/-- Only the rollback of an undelegation loses the configuration of a core. -/
theorem Action.Accepted.configured (h : a.Accepted w w') (ha : a ≠ .rollbackV3Undelegation)
    (hw : w.live.core.Configured) : w'.live.core.Configured := by
  cases h.step with
  | opened _ _ _ logged => exact logged.configured hw
  | closed _ _ logged => exact logged.configured hw
  | deposited _ _ logged => exact logged.configured ⟨hw.1, hw.2, hw.3, hw.4, hw.5, hw.6, hw.7, hw.8⟩
  | credited _ _ _ _ _ logged =>
    exact logged.configured ⟨hw.1, hw.2, hw.3, hw.4, hw.5, hw.6, hw.7, hw.8⟩
  | withdrawn _ debited =>
    exact debited.logged.configured ⟨hw.1, hw.2, hw.3, hw.4, hw.5, hw.6, hw.7, hw.8⟩
  | requested _ _ debited =>
    exact debited.logged.configured ⟨hw.1, hw.2, hw.3, hw.4, hw.5, hw.6, hw.7, hw.8⟩
  | traded trades => exact trades.traded.configured hw
  | liquidated _ hl => exact hl.configured hw
  | configured bounds _ => exact ⟨hw.1, rfl, bounds.effective, hw.4, hw.5, hw.6, hw.7, hw.8⟩
  | kept upkeep same =>
    have hin := h.initialized_of_upkeep upkeep
    constructor
    · exact hin.trans hw.initialized
    · exact same.riskConfigVersion.trans hw.version
    · exact same.config ▸ hw.inBounds
    · exact same.currentOpenInterest ▸ hw.openInterest
    · exact same.protocolFeeBalance ▸ hw.protocolFees
    · exact same.insuranceBalance ▸ hw.insurance
    · exact same.badDebt ▸ hw.badDebt
    · exact same.reconciliationStatus ▸ hw.status
  | reconciled logged =>
    refine logged.configured ⟨hw.1, hw.2, ?_, hw.4, hw.5, hw.6, hw.7, Nat.zero_le _⟩
    obtain ⟨hi, hm, hle, hlev, hl', hma, ht, hl, hd, hpos, hoi, -, hb⟩ := hw.inBounds
    exact ⟨hi, hm, hle, hlev, hl', hma, ht, hl, hd, hpos, hoi, le_rfl, hb⟩
  | rolledBack => exact absurd rfl ha
  | inboxed | paid | copiedShard | copiedCore | donated => exact hw

theorem World.configured_of_run (hin : w₀.Initial) (hrun : Run Action.Accepted w₀ as w)
    (hs : w.live.core.delegationStatus = .delegated) : w.live.core.Configured := by
  refine hrun.invariant (P := fun w => w.live.core.delegationStatus = .delegated →
    w.live.core.Configured) (fun hd => ?_) (fun a t t' ht h hd => ?_) hs
  · obtain ⟨_, _, _, _, _, _, hc⟩ := hin.core
    simp only [initializeV3Market, ok_rules] at hc
    obtain ⟨-, -, -, hc⟩ := hc
    rw [← hc] at hd
    cases hd
  · by_cases ha : ∃ ctx validator, a = .delegateV3Core ctx validator
    · obtain ⟨ctx, validator, rfl⟩ := ha
      obtain ⟨hini, ⟨_, hre⟩, _, hc⟩ := h.delegates
      obtain ⟨hv, hb, ⟨ho, hp, hi, hbad, -⟩, hr, rfl⟩ := readV3RiskConfig_eq_ok.1 hre
      rw [hc]
      exact ⟨hini, hv, hb, ho, hp, hi, hbad, hr⟩
    · have hbe := h.delegated_before (fun ctx validator heq => ha ⟨ctx, validator, heq⟩) hd
      refine h.configured (fun heq => ?_) (ht hbe)
      subst heq
      obtain rfl := pure_eq_ok.1 h
      cases hd

end Equinox
