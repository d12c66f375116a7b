import Equinox.Market.Stored

/-! # Taking orders out

When the owner of a resting order can cancel it. An order rests under a key of its
own, so the search finds it; what can refuse the cancellation are the liability of
the vault, the numbers of the order's margin, the sequence of events and, for a
pegged order, the price that the core holds.
-/

namespace Equinox

open Foundation CritBit PagedBookV3 Resting

variable {m m' : Market} {ctx : Context} {side : Side} {tree : TreeKind} {leaf : LeafNode}
  {r r' : Resting} {i now : ℕ} {reserve : ℤ} {config : V3RiskConfig} {demand : SessionDemand}
  {core : MarketCore}

/-! ## Finding orders -/

theorem Market.Valid.resting_ext {s s' : Side} (hm : m.Valid) (hr : r ∈ m.orders s)
    (hr' : r' ∈ m.orders s') (hk : r.leaf.key = r'.leaf.key) : s = s' ∧ r = r' := by
  have hs : r.leaf.sequence = r'.leaf.sequence := by
    apply Fin.ext
    rw [← (hm.resting s r hr).keyed, ← (hm.resting s' r' hr').keyed, hk]
  have hd := hm.distinct
  rw [← m.orders_add s, Multiset.map_add, Multiset.nodup_add] at hd
  obtain ⟨ho, -, hdi⟩ := hd
  rcases s.eq_or_eq_opposite s' with rfl | rfl
  · exact ⟨rfl, Multiset.inj_on_of_nodup_map ho r hr r' hr' hs⟩
  · have hmem := Multiset.mem_map_of_mem (fun r => r.leaf.sequence) hr
    have hm' := Multiset.mem_map_of_mem (fun r => r.leaf.sequence) hr'
    rw [hs] at hmem
    exact absurd hm' (Multiset.disjoint_left.1 hdi hmem)

theorem Market.Valid.find_eq_ok (hm : m.Valid) (hr : r ∈ m.orders side) :
    (m.books side).find r.tree r.leaf.key = .ok r.handle :=
  (hm.wellFormed side).find_eq_ok.2 ⟨r.leaf, mem_contents.1 hr, rfl⟩

theorem Market.Valid.leaf_eq (hm : m.Valid) (hr : r ∈ m.orders side) :
    (m.books side).leaf r.handle = .ok r.leaf := (hm.wellFormed side).leaf_eq (mem_contents.1 hr)

theorem Market.Valid.findOwned_eq {trees : List (Side × TreeKind)} (hm : m.Valid)
    (hr : r ∈ m.orders side) (ht : (side, r.tree) ∈ trees) :
    findOwned m r.leaf.owner r.leaf.key trees = .ok (side, r.tree, r.leaf) := by
  induction trees with
  | nil => cases ht
  | cons head rest ih =>
    obtain ⟨s, t⟩ := head
    rw [findOwned]
    cases hf : (m.books s).find t r.leaf.key with
    | error e =>
      refine ih ((List.mem_cons.1 ht).resolve_left fun heq => ?_)
      obtain ⟨rfl, rfl⟩ := Prod.mk.inj heq
      rw [hm.find_eq_ok hr] at hf
      cases hf
    | ok handle =>
      obtain ⟨leaf, hmem, hk⟩ := (hm.wellFormed s).find_eq_ok.1 hf
      have hfo : (⟨t, handle, leaf⟩ : Resting) ∈ m.orders s := mem_contents.2 hmem
      obtain ⟨rfl, rfl⟩ := hm.resting_ext hr hfo hk.symm
      simp [(hm.wellFormed side).leaf_eq hmem, bind, Except.bind, pure, Except.pure]

theorem mem_cancelSearchOrder (side : Side) (tree : TreeKind) :
    (side, tree) ∈ cancelSearchOrder := by
  cases side <;> cases tree <;> decide

theorem mem_sideSearchOrder (side : Side) (tree : TreeKind) : (side, tree) ∈ sideSearchOrder := by
  cases side <;> cases tree <;> decide

theorem Market.Valid.owner_ne_of_nextOwned (hm : m.Valid) (h : nextOwned m i = none)
    (hr : r ∈ m.orders side) : r.leaf.owner ≠ i := by
  intro ho
  have hn := List.findSome?_eq_none_iff.1 h _ (mem_sideSearchOrder side r.tree)
  rw [Option.map_eq_none_iff] at hn
  have hwf := hm.wellFormed side
  have hlt : r.handle < bookSlotsPerSide :=
    (hwf.handle_lt_bump (mem_contents.1 hr)).trans_le hwf.bump_le
  have hs := List.findSome?_eq_none_iff.1 hn r.handle (List.mem_range.2 hlt)
  rw [hm.leaf_eq hr] at hs
  simp [ho, hm.find_eq_ok hr] at hs

theorem Market.Valid.mem_of_nextOwned (hm : m.Valid)
    (h : nextOwned m i = some (side, tree, leaf)) :
    ∃ r ∈ m.orders side, r.tree = tree ∧ r.leaf = leaf ∧ r.leaf.owner = i := by
  obtain ⟨handle, hf, hl, ho⟩ := nextOwned_eq_some h
  have hmem := (hm.wellFormed side).mem_leaves_iff.2 ⟨hl, hf⟩
  exact ⟨⟨tree, handle, leaf⟩, mem_contents.2 hmem, rfl, rfl, ho⟩

/-! ## The margin of an order -/

/-- A pegged order is worth a reserve only while the core holds a price to which its offset can be
added, although its reserve price is stored with it. -/
structure Resting.Priced (core : MarketCore) (r : Resting) : Prop where
  oracle : r.tree = .oraclePegged → 0 < core.oraclePrice.val
  sum : r.tree = .oraclePegged → core.oraclePrice.val + r.leaf.priceOrOffset.val < 2 ^ 63
  product : r.leaf.quantity * r.reservePrice * core.config.effective.initialMarginBps < 2 ^ 127

def Resting.margin (core : MarketCore) (r : Resting) : ℤ :=
  Risk.bpsOf (r.leaf.quantity * r.reservePrice) core.config.effective.initialMarginBps

theorem Resting.Valid.margin_nonneg (hr : r.Valid side) : 0 ≤ r.margin core :=
  Risk.bpsOf_nonneg (mul_nonneg (Int.natCast_nonneg _) hr.reserve_pos.le)

theorem reserveMargin_iff {quantity : ℕ} {price : ℤ} (hp : 0 ≤ price)
    (hb : config.initialMarginBps ≠ 0) :
    reserveMargin config quantity price = .ok reserve ↔
      quantity * price * config.initialMarginBps < 2 ^ 127 ∧
        Risk.bpsOf (quantity * price) config.initialMarginBps = reserve := by
  simp only [reserveMargin, bind_eq_ok, exists_checkedI128, riskOk_eq_ok,
    Risk.initialMargin_eq_ok, InI128]
  have hn : (0 : ℤ) ≤ quantity * price := mul_nonneg (Int.natCast_nonneg _) hp
  have hle : (quantity * price : ℤ) ≤ quantity * price * config.initialMarginBps :=
    le_mul_of_one_le_right hn (by omega)
  constructor
  · rintro ⟨-, ⟨-, hlt⟩, heq⟩
    exact ⟨hlt, heq⟩
  · rintro ⟨hlt, heq⟩
    exact ⟨⟨by omega, by omega⟩, ⟨by omega, hlt⟩, heq⟩

theorem v3ReserveOracle_eq_some {o : I64} :
    v3ReserveOracle core = some o ↔ 0 < core.oraclePrice.val ∧ core.oraclePrice = o := by
  unfold v3ReserveOracle
  split <;> simp_all

/-- Exactly when the margin of an order can be computed, and what it is. -/
theorem v3OrderReserve_iff (hr : r.Valid side)
    (hb : core.config.effective.initialMarginBps ≠ 0) :
    v3OrderReserve r.leaf r.tree (v3ReserveOracle core) core.config.effective = .ok reserve ↔
      r.Priced core ∧ r.margin core = reserve := by
  have hpos := hr.reserve_pos
  have hre : reserveMargin core.config.effective r.leaf.quantity r.reservePrice = .ok reserve ↔
      _ := reserveMargin_iff hpos.le hb
  obtain ⟨tree, handle, leaf⟩ := r
  cases tree with
  | fixed =>
    simp only [v3OrderReserve, ok_rules, exists_eq_left']
    simp only [reservePrice] at hpos hre
    rw [hre]
    constructor
    · rintro ⟨-, hlt, heq⟩
      exact ⟨⟨by simp, by simp, hlt⟩, heq⟩
    · rintro ⟨hp, heq⟩
      exact ⟨hpos, hp.product, heq⟩
  | oraclePegged =>
    simp only [reservePrice] at hpos hre
    have hs : storedV3ReservePrice leaf = some leaf.reservePrice := if_pos hpos
    simp only [v3OrderReserve, ok_rules, okOr_eq_ok, hs, Option.getD_some]
    constructor
    · rintro ⟨o, ho, c, hc, _, rfl, -, hm⟩
      obtain ⟨hor, rfl⟩ := v3ReserveOracle_eq_some.1 ho
      obtain ⟨hlt, heq⟩ := hre.1 hm
      exact ⟨⟨fun _ => hor, fun _ => (I64.exists_checkedAdd_of_pos hor).1 ⟨c, hc⟩, hlt⟩, heq⟩
    · rintro ⟨hp, heq⟩
      have hor := hp.oracle rfl
      obtain ⟨c, hc⟩ := (I64.exists_checkedAdd_of_pos hor).2 (hp.sum rfl)
      exact ⟨_, v3ReserveOracle_eq_some.2 ⟨hor, rfl⟩, c, hc, _, rfl, hpos, hre.2 ⟨hp.product, heq⟩⟩

/-! ## Taking an order out -/

/-- A market that trades, with what holds of every reachable one. -/
structure Market.Tradable (m : Market) : Prop where
  valid : m.Valid
  agrees : m.Agrees
  stored : m.Stored
  configured : m.core.Configured
  mode : m.core.mode = 1
  delegated : m.core.delegationStatus = .delegated
  idle : m.core.commitPhase = .idle

theorem Resting.Valid.share_nonneg (hr : r.Valid side) (bps i : ℕ) (k : OrderField) :
    0 ≤ r.share bps i k := by
  unfold share
  split
  · cases k with
    | count => exact Int.natCast_nonneg _
    | margin =>
      exact Risk.bpsOf_nonneg (mul_nonneg (Int.natCast_nonneg _) hr.reserve_pos.le)
    | bid | ask =>
      simp only [orderShare]
      split <;> omega
  · exact le_rfl

theorem Market.Valid.share_le_held (hm : m.Valid) (hr : r ∈ m.orders side) (bps i : ℕ)
    (k : OrderField) : r.share bps i k ≤ m.held bps i k := by
  refine Multiset.single_le_sum (fun x hx => ?_) _ (Multiset.mem_map_of_mem _ ?_)
  · obtain ⟨r', hr', rfl⟩ := Multiset.mem_map.1 hx
    rcases Multiset.mem_add.1 hr' with hr' | hr'
    · exact (hm.resting _ r' hr').share_nonneg bps i k
    · exact (hm.resting _ r' hr').share_nonneg bps i k
  · rw [← m.orders_add side]
    exact Multiset.mem_add.2 (.inl hr)

namespace Market.Tradable

section

variable (hm : m.Tradable)

include hm

theorem validateEventCore : validateEventCore m.core = .ok () := by
  simp [Equinox.validateEventCore, hm.configured.initialized, hm.mode, hm.delegated, hm.idle]

theorem ordered_eq (i : ℕ) {k : OrderField} (hk : k ≠ .margin) :
    (m.seats i).ordered k = m.held 0 i k := sub_eq_zero.1 (hm.agrees.counted i k hk)

section

variable (hr : r ∈ m.orders side)

include hr

theorem share_le {k : OrderField} (hk : k ≠ .margin) :
    r.share 0 r.leaf.owner k ≤ (m.seats r.leaf.owner).ordered k := by
  rw [hm.ordered_eq _ hk]
  exact hm.valid.share_le_held hr _ _ _

theorem openOrderCount_ne : (m.seats r.leaf.owner).openOrderCount ≠ 0 := by
  have hle := hm.share_le (k := .count) hr (by decide)
  simp only [share, if_true, orderShare, TraderSeat.ordered, Bool.toNat_true] at hle
  omega

theorem seat_eq :
    v3TradeSeat m r.leaf.owner = .ok (m.seats r.leaf.owner) :=
  v3TradeSeat_eq_ok.2 ⟨(hm.valid.resting side r hr).owner_lt, hm.agrees.occupied side r hr,
    (hm.stored.seats _).named (hm.openOrderCount_ne hr), rfl⟩

theorem openExposure_sub :
    InI128 ((m.seats r.leaf.owner).openExposure r.leaf.side - r.leaf.quantity) := by
  have hle := hm.share_le (k := .bid) hr (by decide)
  have hle' := hm.share_le (k := .ask) hr (by decide)
  obtain ⟨-, hb⟩ := (hm.stored.seats r.leaf.owner).range .bid (by decide)
  obtain ⟨-, ha⟩ := (hm.stored.seats r.leaf.owner).range .ask (by decide)
  simp only [share, if_true, orderShare, TraderSeat.ordered] at hle hle' hb ha
  unfold InI128 TraderSeat.openExposure
  cases hs : r.leaf.side <;> simp only [hs, if_true] at hle hle' ⊢ <;> omega

theorem cancelOwnedOrder_eq_ok :
    ∃ b, PagedBookV3.cancelOwnedOrder r.tree r.leaf.key r.leaf.owner (m.books side) =
      .ok r.leaf b := by
  obtain ⟨b, hre, -⟩ := (hm.valid.wellFormed side).remove (mem_contents.1 hr)
  refine ⟨b, ?_⟩
  simp only [PagedBookV3.cancelOwnedOrder, removeOwned, run_reading_bind]
  refine ⟨_, hm.valid.find_eq_ok hr, _, hm.valid.leaf_eq hr, ?_⟩
  rw [if_neg (by simp)]
  exact hre

/-- An order is taken out unless the seat's margin or the sequence of events runs over. -/
theorem removeOrder_iff (ctx : Context) (reserve : ℤ) :
    (∃ m', removeOrder ctx r.leaf.owner side r.tree r.leaf.key r.leaf reserve m = .ok () m') ↔
      InI128 ((m.seats r.leaf.owner).reservedMargin - reserve) ∧
        m.core.globalEventSequence + 1 < 2 ^ 64 := by
  constructor
  · rintro ⟨m', h⟩
    simp only [removeOrder, run_rules, v3TradeSeat_eq_ok] at h
    obtain ⟨seat, ⟨-, -, -, rfl⟩, released, hre, h⟩ := h
    obtain ⟨removed, m₁, hb, h⟩ := run_bind_eq_ok.1 h
    obtain ⟨b, -, rfl⟩ := run_onBook_eq_ok.1 hb
    rw [run_writeV3Seat_bind] at h
    simp only [TraderSeat.release, bind_eq_ok, exists_checkedI128] at hre
    exact ⟨hre.1, (appendEventRecord_eq_ok.1 h).2.1⟩
  · rintro ⟨hma, hs⟩
    obtain ⟨b, hc⟩ := hm.cancelOwnedOrder_eq_ok hr
    have hre : ∃ released, (m.seats r.leaf.owner).release reserve true r.leaf.side
        r.leaf.quantity = .ok released := by
      simp only [TraderSeat.release, ok_rules, exists_checkedI128]
      exact ⟨_, hma, fun _ => hm.openOrderCount_ne hr, hm.openExposure_sub hr, rfl⟩
    obtain ⟨released, hre⟩ := hre
    simp only [removeOrder, run_rules]
    exact ⟨_, _, hm.seat_eq hr, released, hre, run_bind_eq_ok.2 ⟨_, _,
      run_onBook_eq_ok.2 ⟨b, hc, rfl⟩, run_writeV3Seat_bind.2 (appendEventRecord_eq_ok.2
        ⟨hm.validateEventCore, hs, rfl⟩)⟩⟩

end

end

end Market.Tradable

/-- What taking an order out of a market asks for. -/
structure Market.Removes (m : Market) (r : Resting) : Prop where
  liability : 0 ≤ m.core.vaultLiability
  priced : r.Priced m.core
  margin : -2 ^ 127 ≤ (m.seats r.leaf.owner).reservedMargin - r.margin m.core
  sequence : m.core.globalEventSequence + 1 < 2 ^ 64

namespace Market.Tradable

/-- The steps that both ways to cancel have in common succeed exactly under these conditions. -/
theorem removes_iff (hm : m.Tradable) (hr : r ∈ m.orders side) (ctx : Context) :
    (∃ config reserve m', readV3RiskConfig m.core = .ok config ∧
      v3OrderReserve r.leaf r.tree (v3ReserveOracle m.core) config = .ok reserve ∧
      removeOrder ctx r.leaf.owner side r.tree r.leaf.key r.leaf reserve m = .ok () m') ↔
      m.Removes r := by
  have hv := hm.valid.resting side r hr
  have hb := hm.configured.inBounds.1
  constructor
  · rintro ⟨config, reserve, m', hre, hres, hrem⟩
    have hl := hm.configured.readable_iff.1 ⟨config, hre⟩
    obtain ⟨-, -, -, -, rfl⟩ := readV3RiskConfig_eq_ok.1 hre
    obtain ⟨hp, rfl⟩ := (v3OrderReserve_iff hv hb).1 hres
    obtain ⟨hma, hs⟩ := (hm.removeOrder_iff hr ctx _).1 ⟨m', hrem⟩
    exact ⟨hl, hp, hma.1, hs⟩
  · intro h
    obtain ⟨config, hre⟩ := hm.configured.readable_iff.2 h.liability
    obtain ⟨-, -, -, -, rfl⟩ := readV3RiskConfig_eq_ok.1 hre
    have hma : InI128 ((m.seats r.leaf.owner).reservedMargin - r.margin m.core) := by
      have hn : 0 ≤ r.margin m.core := hv.margin_nonneg
      have hra : (m.seats r.leaf.owner).reservedMargin < 2 ^ 127 :=
        ((hm.stored.seats _).range .margin (by decide)).2
      exact ⟨h.margin, by omega⟩
    obtain ⟨m', hrem⟩ := (hm.removeOrder_iff hr ctx _).2 ⟨hma, h.sequence⟩
    exact ⟨_, _, m', hre, (v3OrderReserve_iff hv hb).2 ⟨h.priced, rfl⟩, hrem⟩

theorem validateV3TradeAccounts_owner (hm : m.Tradable) (hr : r ∈ m.orders side)
    (hs : ctx.signer = (m.seats r.leaf.owner).trader) (hn : demand.actionNonce = 0) :
    validateV3TradeAccounts m ctx r.leaf.owner demand now = .ok none := by
  have hh (s : Side) : (m.books s).headersValid = true :=
    (hm.valid.wellFormed s).headersValid_of_tailBlank (hm.stored.headers s)
  have hb : validateExecutionBundle m = .ok () := by
    simp [validateExecutionBundle, validateExecutionBundleInner, hm.configured.initialized,
      hm.configured.version, hm.mode, hm.idle, hh]
  simp only [validateV3TradeAccounts, ok_rules]
  refine ⟨(), hb, ⟨hm.mode, hm.delegated⟩, _, hm.seat_eq hr, ?_⟩
  rw [if_pos hs.symm]
  simp only [bind_eq_ok, exists_require]
  exact ⟨hn, rfl⟩

end Market.Tradable

/-- What the cancellation of one order asks for. It also computes the price at which a pegged order
would rest now. -/
structure Market.Cancels (m : Market) (r : Resting) : Prop extends m.Removes r where
  current : r.tree = .oraclePegged → 0 < m.core.oraclePrice.val + r.leaf.priceOrOffset.val

theorem currentPrice_iff (hr : r.Valid side) (hp : r.Priced core) :
    (∃ price, currentPrice r.leaf r.tree (v3ReserveOracle core) = .ok price ∧ 0 < price.val) ↔
      (r.tree = .oraclePegged → 0 < core.oraclePrice.val + r.leaf.priceOrOffset.val) := by
  have hpos := hr.reserve_pos
  obtain ⟨tree, handle, leaf⟩ := r
  cases tree with
  | fixed => simpa [currentPrice, reservePrice] using hpos
  | oraclePegged =>
    have hor := hp.oracle rfl
    simp only [currentPrice, bind_eq_ok, okOr_eq_ok, true_imp_iff]
    constructor
    · rintro ⟨price, ⟨o, ho, hc⟩, hpr⟩
      obtain ⟨-, rfl⟩ := v3ReserveOracle_eq_some.1 ho
      rwa [I64.checkedAdd_eq_some hc] at hpr
    · intro hsum
      obtain ⟨c, hc⟩ := (I64.exists_checkedAdd_of_pos hor).2 (hp.sum rfl)
      refine ⟨c, ⟨_, v3ReserveOracle_eq_some.2 ⟨hor, rfl⟩, hc⟩, ?_⟩
      rwa [I64.checkedAdd_eq_some hc]

theorem Market.Valid.orders_of_cancelOrderV3 {u : Unit} {nonce : ℕ} (hm : m.Valid)
    (hr : r ∈ m.orders side) (h : cancelOrderV3 ctx r.leaf.owner r.leaf.key nonce m = .ok u m') :
    m.orders side = r ::ₘ m'.orders side ∧ m'.orders side.opposite = m.orders side.opposite := by
  obtain ⟨s, t, l, m₁, hf, hc, hs⟩ := cancelOrderV3WithAction_eq_ok h
  rw [hm.findOwned_eq hr (mem_cancelSearchOrder _ _)] at hf
  obtain ⟨rfl, rfl, rfl⟩ : side = s ∧ r.tree = t ∧ r.leaf = l := by simpa using hf
  obtain ⟨-, handle, ho⟩ := hc.orders_eq hm
  have hmem : (⟨r.tree, handle, r.leaf⟩ : Resting) ∈ m.orders side := by
    rw [ho]
    exact Multiset.mem_cons_self _ _
  obtain ⟨-, heq⟩ := hm.resting_ext hmem hr rfl
  rw [heq] at ho
  constructor
  · rw [ho, orders, orders, hs.books]
  · rw [orders, hs.books, hc.books_of_ne (by cases side <;> decide)]
    rfl

namespace Market.Tradable

theorem cancelOrderV3_iff (hm : m.Tradable) (hr : r ∈ m.orders side)
    (hs : ctx.signer = (m.seats r.leaf.owner).trader) :
    (∃ m', cancelOrderV3 ctx r.leaf.owner r.leaf.key 0 m = .ok () m') ↔ m.Cancels r := by
  have hv := hm.valid.resting side r hr
  have hf := hm.valid.findOwned_eq hr (mem_cancelSearchOrder side r.tree)
  constructor
  · rintro ⟨m', h⟩
    simp only [cancelOrderV3, cancelOrderV3WithAction, run_rules, hf, Except.ok.injEq,
      exists_eq_left'] at h
    obtain ⟨_, -, _, -, price, hp, hpos, config, hre, reserve, hres, h⟩ := h
    obtain ⟨⟨⟩, m₁, hrem, -⟩ := run_bind_eq_ok.1 h
    have hremo := (hm.removes_iff hr ctx).1 ⟨config, reserve, m₁, hre, hres, hrem⟩
    exact ⟨hremo, (currentPrice_iff hv hremo.priced).1 ⟨price, hp, hpos⟩⟩
  · intro h
    obtain ⟨price, hp, hpos⟩ := (currentPrice_iff hv h.priced).2 h.current
    obtain ⟨config, reserve, m₁, hre, hres, hrem⟩ := (hm.removes_iff hr ctx).2 h.toRemoves
    refine ⟨m₁, ?_⟩
    simp only [cancelOrderV3, cancelOrderV3WithAction, run_rules]
    exact ⟨_, hm.seat_eq hr, none, hm.validateV3TradeAccounts_owner hr hs rfl, _, hf,
      price, hp, hpos, config, hre, reserve, hres, run_bind_eq_ok.2 ⟨(), m₁, hrem, rfl⟩⟩

end Market.Tradable

end Equinox
