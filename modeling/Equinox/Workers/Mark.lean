import Equinox.Market.Funding
import Equinox.Market.Quotes
import Equinox.Workers.BookView

/-! # The displayed mark

The worker takes the mark from all orders that can execute and draws it into a
fixed band around the oracle's price. A funding update takes it from the first
order of each tree and draws it into the configured band. If the first orders
lead their sides, both see the same mark as long as it stays inside of both bands.
-/

namespace Equinox

open Foundation CritBit List PagedBookV3 Option Subtype V3RiskConfig CoreBytes Side World

variable {books : Side → PagedBookV3} {side : Side} {oracle : I64} {now : ℕ}

/-! ## Quotes -/

/-- The best price among all orders that carry a side and can execute, on the pages of either. -/
def liveQuote (books : Side → PagedBookV3) (side : Side) (oracle : I64) (now : ℕ) : Option I64 :=
  bestOf side ([bid, .ask].flatMap fun s => (books s).restingLeaves.filterMap fun x =>
    executablePrice x.2.2 x.1 side (some oracle) now)

theorem mem_livePrices {price : I64} :
    (price ∈ [bid, .ask].flatMap fun s => (books s).restingLeaves.filterMap fun x =>
      executablePrice x.2.2 x.1 side (some oracle) now) ↔
      ∃ s, ∃ x ∈ (books s).queue side (some oracle) now, x.price = price := by
  simp only [mem_flatMap, mem_filterMap]
  constructor
  · rintro ⟨s, -, ⟨tree, handle, leaf⟩, hx, hp⟩
    exact ⟨s, ⟨tree, handle, leaf, price⟩, mem_queue.2 ⟨mem_restingLeaves.1 hx, hp⟩, rfl⟩
  · rintro ⟨s, x, hx, rfl⟩
    obtain ⟨hmem, hp⟩ := mem_queue.1 hx
    exact ⟨s, by cases s <;> simp, ⟨x.tree, x.handle, x.leaf⟩, mem_restingLeaves.2 hmem, hp⟩

theorem liveQuote_pos {price : I64} (h : liveQuote books side oracle now = some price) :
    0 < price.val := by
  obtain ⟨s, x, hx, rfl⟩ := mem_livePrices.1 (bestOf_eq_some_iff.1 h).1
  exact (executablePrice_eq_some (mem_queue.1 hx).2).1

/-- Prices that lead a list they are from have its best one. -/
theorem bestOf_congr {prices leading : List I64} (hsub : ∀ p ∈ leading, p ∈ prices)
    (hl : ∀ p ∈ prices, ∃ q ∈ leading, crosses side.opposite p.val q.val = true) :
    bestOf side prices = bestOf side leading := by
  refine ext fun price => ?_
  rw [bestOf_eq_some_iff, bestOf_eq_some_iff]
  constructor
  · rintro ⟨hmem, hbe⟩
    obtain ⟨q, hq, hc⟩ := hl price hmem
    obtain rfl := Subtype.ext (crosses_antisymm hc (hbe q (hsub q hq)))
    exact ⟨hq, fun p hp => hbe p (hsub p hp)⟩
  · rintro ⟨hmem, hbe⟩
    refine ⟨hsub price hmem, fun p hp => ?_⟩
    obtain ⟨q, hq, hc⟩ := hl p hp
    exact crosses_trans hc (hbe q hq)

def Permits (leaf : LeafNode) (price : ℤ) : Prop :=
  match leaf.side with
  | .bid => price ≤ leaf.pegLimit
  | .ask => leaf.pegLimit ≤ price

/-- When an order executes at a price: it is live and on the side, and the price is its own or,
if pegged, the oracle's with its offset, within its limit. -/
def Executes (oracle : ℤ) (now : ℕ) (side : Side) (tree : TreeKind) (leaf : LeafNode)
    (price : ℤ) : Prop :=
  leaf.side = side ∧ leaf.quantity ≠ 0 ∧ now < leaf.expiresAt ∧ 0 < price ∧
    match tree with
    | .fixed => leaf.priceOrOffset.val = price
    | .oraclePegged => oracle + leaf.priceOrOffset.val = price ∧ 0 < leaf.pegLimit ∧
      Permits leaf price

variable {price : ℤ} {tree : TreeKind} {leaf : LeafNode}

theorem Executes.price_le {oracle : ℤ}
    (h : Executes oracle now side tree leaf price) :
    price ≤ max leaf.priceOrOffset.val (oracle + leaf.priceOrOffset.val) := by
  obtain ⟨-, -, -, -, h⟩ := h
  cases tree with
  | fixed => exact h ▸ le_max_left _ _
  | oraclePegged => exact h.1 ▸ le_max_right _ _

theorem peggedState_eq_valid_iff {price : I64} (hq : leaf.quantity ≠ 0)
    (he : now < leaf.expiresAt) :
    peggedState leaf (some oracle) now = .valid price ↔
      oracle.val + leaf.priceOrOffset.val = price.val ∧ 0 < price.val ∧ 0 < leaf.pegLimit ∧
        Permits leaf price.val := by
  have hli : ¬(leaf.quantity = 0 ∨ leaf.expiresAt ≤ now) := not_or.2 ⟨hq, not_le.2 he⟩
  rw [peggedState, if_neg hli]
  cases hadd : oracle.checkedAdd leaf.priceOrOffset with
  | none =>
    refine iff_of_false (by simp) fun h => ?_
    obtain ⟨_, hso⟩ := I64.exists_checkedAdd.2 (h.1 ▸ price.property)
    simp [hadd] at hso
  | some sum =>
    have hsum := I64.checkedAdd_eq_some hadd
    have hp : (match leaf.side with
        | .bid => decide (sum.val ≤ leaf.pegLimit)
        | .ask => decide (leaf.pegLimit ≤ sum.val)) = false ↔ ¬Permits leaf sum.val := by
      unfold Permits
      cases leaf.side <;> simp
    simp only
    split_ifs with hpos hl
    · exact iff_of_false (by simp) fun h => by omega
    · refine iff_of_false (by simp) fun h => ?_
      have hs : sum.val = price.val := by omega
      rcases hl with hl | hl
      · omega
      · exact hp.1 hl (hs ▸ h.2.2.2)
    · obtain ⟨hpeg, hl⟩ := not_or.1 hl
      rw [PeggedState.valid.injEq]
      constructor
      · rintro rfl
        exact ⟨hsum.symm, by omega, by omega, not_not.1 (mt hp.2 hl)⟩
      · rintro ⟨heq, -⟩
        exact Subtype.ext (hsum.trans heq)

theorem map_executablePrice_iff
    (hsum : oracle.val + leaf.priceOrOffset.val < 2 ^ 63) :
    (executablePrice leaf tree side (some oracle) now).map val = some price ↔
      Executes oracle.val now side tree leaf price := by
  unfold executablePrice
  by_cases hd : leaf.quantity = 0 ∨ leaf.expiresAt ≤ now ∨ leaf.side ≠ side
  · rw [if_pos hd]
    refine iff_of_false (by simp) ?_
    rintro ⟨hs, hq, he, -⟩
    rcases hd with h | h | h
    · exact hq h
    · omega
    · exact h hs
  · rw [if_neg hd]
    simp only [not_or, not_le, not_not] at hd
    obtain ⟨hq, he, rfl⟩ := hd
    cases tree with
    | fixed =>
      simp only [Executes, he, true_and]
      by_cases hpos : leaf.priceOrOffset.val ≤ 0
      · rw [if_pos hpos]
        exact iff_of_false (by simp) fun h => by omega
      · rw [if_neg hpos, map_some, some.injEq]
        exact ⟨fun h => ⟨hq, by omega, h⟩, fun h => h.2.2⟩
    | oraclePegged =>
      simp only [map_eq_some_iff]
      constructor
      · rintro ⟨p, hp, rfl⟩
        split at hp
        · obtain rfl := some.inj hp
          obtain ⟨heq, hpos, hl, hpe⟩ := (peggedState_eq_valid_iff hq he).1 ‹_›
          exact ⟨rfl, hq, he, hpos, heq, hl, hpe⟩
        · cases hp
        · cases hp
      · rintro ⟨-, -, -, hpos, rfl, hl, hpe⟩
        have hv : peggedState leaf (some oracle) now =
            .valid ⟨oracle.val + leaf.priceOrOffset.val, by omega, hsum⟩ :=
          (peggedState_eq_valid_iff hq he).2 ⟨rfl, hpos, hl, hpe⟩
        exact ⟨_, by rw [hv], rfl⟩

/-! ## Bands -/

theorem clamp_of_mem {lower upper mark : ℤ} (h : lower ≤ mark ∧ mark ≤ upper) :
    min (max mark lower) upper = mark := by
  omega

/-- A mark is drawn to one price in two bands around an oracle exactly if it is inside of both
bands, or their ends on its side are the same. -/
theorem clamp_eq_clamp_iff {oracle lower upper lower' upper' mark : ℤ}
    (h : lower ≤ oracle ∧ oracle ≤ upper) (h' : lower' ≤ oracle ∧ oracle ≤ upper') :
    min (max mark lower) upper = min (max mark lower') upper' ↔
      (lower ≤ mark ∧ lower' ≤ mark ∨ lower = lower') ∧
        (mark ≤ upper ∧ mark ≤ upper' ∨ upper = upper') := by
  omega

def maxDeviation (oracle : ℤ) (markDeviationBps : ℕ) : ℤ :=
  let deviationBps : ℤ := if markDeviationBps = 0 then 500 else markDeviationBps
  (oracle * deviationBps).tdiv 10000

def markLower (oracle : ℤ) (markDeviationBps : ℕ) : ℤ :=
  max (oracle - maxDeviation oracle markDeviationBps) 1

def markUpper (oracle : ℤ) (markDeviationBps : ℕ) : ℤ :=
  oracle + maxDeviation oracle markDeviationBps

theorem maxDeviation_nonneg {oracle : ℤ} (h : 0 < oracle) (bps : ℕ) :
    0 ≤ maxDeviation oracle bps := by
  refine Int.tdiv_nonneg (mul_nonneg h.le ?_) (by decide)
  split <;> omega

theorem oracle_mem_band {oracle : ℤ} (h : 0 < oracle) (bps : ℕ) :
    markLower oracle bps ≤ oracle ∧ oracle ≤ markUpper oracle bps := by
  have hd := maxDeviation_nonneg h bps
  unfold markLower markUpper
  omega

theorem clampMark_eq (mark oracle : ℤ) (bps : ℕ) :
    clampMark mark oracle bps = min (max mark (markLower oracle bps)) (markUpper oracle bps) := rfl

theorem clampMark_self {oracle : ℤ} (h : 0 < oracle) (bps : ℕ) :
    clampMark oracle oracle bps = oracle := by
  rw [clampMark_eq, clamp_of_mem (oracle_mem_band h bps)]

/-! ## The program's mark -/

namespace Market

/-- The mark of the first orders of the trees, before it is drawn into a band. -/
def headMark (m : Market) (now : ℕ) : ℤ :=
  bookMark ((m.books .bid).headQuote .bid m.core.oraclePrice now)
    ((m.books .ask).headQuote .ask m.core.oraclePrice now) m.core.oraclePrice

/-- The mark of all orders that can execute, before it is drawn into a band. -/
def liveMark (m : Market) (now : ℕ) : ℤ :=
  bookMark (liveQuote m.books .bid m.core.oraclePrice now)
    (liveQuote m.books .ask m.core.oraclePrice now) m.core.oraclePrice

theorem fundingMark_eq {m : Market} (hwf : ∀ side, (m.books side).WellFormed)
    (config : V3RiskConfig) (now : ℕ) :
    m.fundingMark config m.core.oraclePrice now =
      .ok (clampMark (m.headMark now) m.core.oraclePrice.val config.markDeviationBps) := by
  rw [Market.fundingMark, (hwf .bid).bestFor_eq, ok_bind, (hwf .ask).bestFor_eq, ok_bind]
  rfl

/-- The first orders of a side's trees lead the side, and no order on the pages of the other side
executes for it. -/
def HeadsLead (m : Market) (now : ℕ) (side : Side) : Prop :=
  (m.books side).HeadsLead side m.core.oraclePrice now ∧
    (m.books side.opposite).queue side (some m.core.oraclePrice) now = []

theorem HeadsLead.liveQuote_eq {m : Market} (h : m.HeadsLead now side) :
    liveQuote m.books side m.core.oraclePrice now =
      (m.books side).headQuote side m.core.oraclePrice now := by
  refine bestOf_congr (fun price hp => ?_) fun price hp => ?_
  · obtain ⟨tree, hh⟩ := mem_headPrices.1 hp
    obtain ⟨x, hx, rfl⟩ := exists_maker_of_headPrice hh
    exact mem_livePrices.2 ⟨side, x, hx, rfl⟩
  · obtain ⟨s, x, hx, rfl⟩ := mem_livePrices.1 hp
    obtain rfl : s = side := by
      by_contra hne
      have hs : s = side.opposite := by cases s <;> cases side <;> simp_all [opposite]
      rw [hs, h.2] at hx
      exact not_mem_nil hx
    obtain ⟨tree, first, hf, hl⟩ := h.1 x hx
    exact ⟨first, mem_headPrices.2 ⟨tree, hf⟩, hl⟩

theorem liveMark_eq {m : Market} (h : ∀ side, m.HeadsLead now side) :
    m.liveMark now = m.headMark now := by
  rw [liveMark, (h .bid).liveQuote_eq, (h .ask).liveQuote_eq, headMark]

end Market

/-! ## The worker's mark -/

namespace MarketView

variable {core : V3CoreState} {view : OrderBook}

theorem better_comm (bid : Bool) (best : Option ℤ) (p q : ℤ) :
    better bid (better bid best p) q = better bid (better bid best q) p := by
  cases best <;> cases bid <;> simp [better] <;> omega

theorem better_betterPrice (side : Side) (best : Option I64) (price : I64) :
    better (side = .bid) (best.map val) price.val = some (betterPrice side best price).val := by
  cases best with
  | none => rfl
  | some best =>
    cases side
    · simp only [better, betterPrice, map_some, decide_true, if_true, some.injEq]
      exact (mono_coe _).map_max.symm
    · simp only [better, betterPrice, map_some, reduceCtorEq, decide_false,
        Bool.false_eq_true, if_false, some.injEq]
      exact (mono_coe _).map_min.symm

theorem foldl_better (side : Side) (prices : List I64) :
    (prices.map val).foldl (better (side = .bid)) none = (bestOf side prices).map val := by
  have hf (best : Option I64) : (prices.map val).foldl (better (side = .bid))
        (best.map val) =
      (prices.foldl (fun best price => some (betterPrice side best price)) best).map val := by
    induction prices generalizing best with
    | nil => rfl
    | cons price prices ih =>
      rw [map_cons, foldl_cons, foldl_cons, better_betterPrice, ← map_some, ih]
  exact hf none

theorem side_byte_eq (leafSide side : Side) :
    decide (leafSide.byte = 0) = decide (side = .bid) ↔ leafSide = side := by
  cases leafSide <;> cases side <;> decide

theorem executablePrice_entry_iff {handle : ℕ} :
    executablePrice core now (side = .bid) (entry (some tree) handle leaf) = some price ↔
      Executes core.lastVerifiedOraclePrice now side tree leaf price ∧ price ≤ maxSafeInteger := by
  simp only [executablePrice, entry, bind_eq_bind, bind_some,
    bind_eq_some_iff, guard_eq_some', side_byte_eq, Option.pure_def,
    some.injEq, exists_const, true_and]
  cases tree with
  | fixed =>
    simp only [some.injEq, Executes]
    constructor
    · rintro ⟨⟨rfl, hq, he⟩, _, rfl, ⟨hpos, hmax⟩, rfl⟩
      exact ⟨⟨rfl, hq, he, hpos, rfl⟩, hmax⟩
    · rintro ⟨⟨rfl, hq, he, hpos, rfl⟩, hmax⟩
      exact ⟨⟨rfl, hq, he⟩, _, rfl, ⟨hpos, hmax⟩, rfl⟩
  | oraclePegged =>
    simp only [bind_eq_some_iff, guard_eq_some', some.injEq, exists_const, Executes]
    constructor
    · rintro ⟨⟨rfl, hq, he⟩, _, ⟨hl, hp, rfl⟩, ⟨hpos, hmax⟩, rfl⟩
      refine ⟨⟨rfl, hq, he, hpos, rfl, hl, ?_⟩, hmax⟩
      unfold Permits
      cases hs : leaf.side <;> simpa [hs] using hp
    · rintro ⟨⟨rfl, hq, he, hpos, rfl, hl, hp⟩, hmax⟩
      refine ⟨⟨rfl, hq, he⟩, _, ⟨hl, ?_, rfl⟩, ⟨hpos, hmax⟩, rfl⟩
      unfold Permits at hp
      cases hs : leaf.side <;> simpa [hs] using hp

theorem executablePrice_entry {handle : ℕ}
    (ho : core.lastVerifiedOraclePrice = oracle.val)
    (hb : oracle.val < 2 ^ 39) (hp : leaf.priceOrOffset.val < 2 ^ 39) (side : Side) :
    executablePrice core now (side = .bid) (entry (some tree) handle leaf) =
      (Equinox.executablePrice leaf tree side (some oracle) now).map val := by
  refine ext fun price => ?_
  rw [executablePrice_entry_iff, ho, map_executablePrice_iff (by omega)]
  refine and_iff_left_of_imp fun he => ?_
  have hle := he.price_le
  unfold maxSafeInteger
  omega

/-- The best price that the worker sees on a side is that of the orders that can execute. -/
theorem OrderBook.Shows.bestSide_eq (h : view.Shows books) (now : ℕ)
    (ho : core.lastVerifiedOraclePrice = oracle.val) (hb : oracle.val < 2 ^ 39)
    (hp : ∀ s tree, ∀ x ∈ (books s).leaves tree, x.2.priceOrOffset.val < 2 ^ 39)
    (side : Side) : bestSide core now (view.bids ++ view.asks) (side = .bid) =
      (liveQuote books side oracle now).map val := by
  have hu : (view.bids ++ view.asks).filterMap (executablePrice core now (side = .bid)) =
      ((view.bids ++ view.asks).map V3BookNodeState.untimed).filterMap
        (executablePrice core now (side = .bid)) := by
    rw [filterMap_map]
    rfl
  have he : ([bid, .ask].flatMap fun s => restingEntries (books s)).filterMap
        (executablePrice core now (side = .bid)) =
      ([bid, .ask].flatMap fun s => (books s).restingLeaves.filterMap fun x =>
        Equinox.executablePrice x.2.2 x.1 side (some oracle) now).map val := by
    rw [filterMap_flatMap, map_flatMap]
    refine flatMap_congr fun s _ => ?_
    rw [restingEntries, filterMap_map, map_filterMap]
    refine filterMap_congr fun x hx => ?_
    exact executablePrice_entry ho hb (hp s x.1 x.2 (mem_restingLeaves.1 hx)) side
  have : RightCommutative (better (side = .bid)) := ⟨fun best p q => better_comm _ best p q⟩
  rw [bestSide, hu, (h.perm.filterMap _).foldl_eq, he, foldl_better]
  rfl

theorem clampMark_default {oracle : ℤ} (hpos : 0 < oracle) (value : ℤ) :
    clampMark oracle value = Equinox.clampMark value oracle 500 := by
  have hd : (oracle * 500).tdiv 10000 = oracle * 500 / 10000 :=
    Int.tdiv_eq_ediv_of_nonneg (by omega)
  simp only [clampMark, Equinox.clampMark, defaultMaxMarkDeviationBps, max_comm (1 : ℤ)]
  rw [← hd]
  rfl

/-- The worker's mark is the mark of its quotes, drawn into the default band. -/
theorem executableV3Mark_eq {bid ask : Option I64}
    (hmode : 1 ≤ core.mode ∧ core.mode ≤ 3) (hv : core.oracleValid = true)
    (ho : core.lastVerifiedOraclePrice = oracle.val) (hpos : 0 < oracle.val)
    (hp : ∀ price, bid = some price ∨ ask = some price → 0 < price.val)
    (hb : bestSide core now (view.bids ++ view.asks) true = bid.map val)
    (ha : bestSide core now (view.bids ++ view.asks) false = ask.map val) :
    ∃ quote, executableV3Mark core view.bids view.asks now = some quote ∧
      quote.price = Equinox.clampMark (bookMark bid ask oracle) oracle.val 500 := by
  have hmo : ¬(core.mode ≠ 1 ∧ core.mode ≠ 2 ∧ core.mode ≠ 3) := by omega
  have hpr : ¬(core.oracleValid = false ∨ core.lastVerifiedOraclePrice ≤ 0) := by
    rw [hv, ho]
    simp [hpos]
  rw [executableV3Mark, if_neg hmo, if_neg hpr, hb, ha, ho]
  have hs := clampMark_self hpos 500
  cases bid with
  | none =>
    cases ask with
    | none => exact ⟨_, rfl, hs.symm⟩
    | some ask => exact ⟨_, rfl, clampMark_default hpos ask.val⟩
  | some bid =>
    cases ask with
    | none => exact ⟨_, rfl, clampMark_default hpos bid.val⟩
    | some ask =>
      simp only [map_some, bookMark]
      split_ifs with hlt
      · have hm : (bid.val + ask.val).tdiv 2 = (bid.val + ask.val) / 2 := by
          refine Int.tdiv_eq_ediv_of_nonneg ?_
          have := hp bid (.inl rfl)
          have := hp ask (.inr rfl)
          omega
        exact ⟨_, rfl, hm ▸ clampMark_default hpos _⟩
      · exact ⟨_, rfl, hs.symm⟩

/-! ## Both marks of a bundle -/

/-- The bytes of the core hold what a mark depends on where the program keeps it. -/
structure CoreShows (bytes : Bytes) (core : MarketCore) : Prop where
  mode : coreUnsigned bytes v3CoreModeOffset 1 = core.mode
  oracleValid : coreUnsigned bytes 180 1 = core.oracleValid.toNat
  oraclePrice : signed bytes 181 8 = core.oraclePrice.val
  markDeviationBps :
    coreUnsigned bytes v3CoreMarkDeviationBpsOffset 2 = core.config.markDeviationBps

theorem CoreShows.decode {bytes : Bytes} {stored : MarketCore} (h : CoreShows bytes stored)
    (hd : decodeV3Core bytes = some core) :
    core.mode = stored.mode ∧ core.oracleValid = stored.oracleValid ∧
      core.lastVerifiedOraclePrice = stored.oraclePrice.val := by
  unfold decodeV3Core at hd
  split_ifs at hd
  obtain rfl := some.inj hd
  refine ⟨h.mode, ?_, h.oraclePrice⟩
  simp only [h.oracleValid]
  cases stored.oracleValid <;> rfl

/-- The oracle of the core may be used. -/
structure OracleUsable (core : MarketCore) : Prop where
  oracleValid : core.oracleValid = true
  mode : 1 ≤ core.mode ∧ core.mode ≤ 3
  positive : 0 < core.oraclePrice.val

/-- The oracle's price and the prices of all resting orders are below a bound. -/
structure PricesBelow (m : Market) (bound : ℤ) : Prop where
  oracle : m.core.oraclePrice.val < bound
  leaves : ∀ side tree, ∀ x ∈ (m.books side).leaves tree, x.2.priceOrOffset.val < bound

section Bundles

variable {m : Market} {coreBytes coreAddress : Bytes} {bookBytes seatBytes eventBytes : List Bytes}

/-- The mark that the worker displays and the one that a funding update computes. -/
theorem Bundle.marks (hb : Bundle m.books coreBytes bookBytes seatBytes eventBytes coreAddress)
    (hv : ∀ side, Viewable (m.books side)) (hc : CoreShows coreBytes m.core)
    (hu : OracleUsable m.core) (hp : PricesBelow m (2 ^ 39)) (config : V3RiskConfig)
    (now : ℕ) (asOfSlot : Option ℕ) :
    ∃ aggregate quote, aggregateV3Market now coreBytes bookBytes seatBytes eventBytes coreAddress
        asOfSlot = some aggregate ∧
      executableV3Mark aggregate.core aggregate.orderBook.bids aggregate.orderBook.asks now =
        some quote ∧
      quote.price = Equinox.clampMark (m.liveMark now) m.core.oraclePrice.val 500 ∧
      m.fundingMark config m.core.oraclePrice now = .ok (Equinox.clampMark (m.headMark now)
        m.core.oraclePrice.val config.markDeviationBps) := by
  obtain ⟨aggregate, ha, -, hs, hd, -⟩ := hb.aggregate
    (fun side => (hv side).wf) (fun side => (hv side).blank)
    (fun side => (hv side).wf.headersValid_of_tailBlank (hv side).tail) now asOfSlot
  obtain ⟨hm, hva, ho⟩ := hc.decode hd
  have hq := hs.bestSide_eq now ho hp.oracle hp.leaves
  obtain ⟨quote, hqu, hpr⟩ := executableV3Mark_eq (hm ▸ hu.mode)
    (hva.trans hu.oracleValid) ho hu.positive
    (fun price h => h.elim liveQuote_pos liveQuote_pos) (hq .bid) (hq .ask)
  exact ⟨aggregate, quote, ha, hqu, hpr,
    Market.fundingMark_eq (fun side => (hv side).wf) config now⟩

/-- If the first orders lead both sides of the book, the displayed mark is the program's if and only
if the mark of the book lies inside of the default and of the configured band, or these have the
same end on its side. -/
theorem mark_agrees_iff {config : V3RiskConfig}
    (hbundle : Bundle m.books coreBytes bookBytes seatBytes eventBytes coreAddress)
    (hview : ∀ side, Viewable (m.books side)) (hcore : CoreShows coreBytes m.core)
    (husable : OracleUsable m.core) (hprices : PricesBelow m (2 ^ 39))
    (hconfig : readV3RiskConfig m.core = .ok config) (now : ℕ) (asOfSlot : Option ℕ) :
    ∃ aggregate quote mark,
      aggregateV3Market now coreBytes bookBytes seatBytes eventBytes coreAddress asOfSlot =
        some aggregate ∧
      executableV3Mark aggregate.core aggregate.orderBook.bids aggregate.orderBook.asks now =
        some quote ∧
      (readV3RiskConfig m.core).bind (fun config => m.fundingMark config m.core.oraclePrice now) =
        .ok mark ∧
      ((∀ side, m.HeadsLead now side) → (quote.price = mark ↔
        (markLower m.core.oraclePrice.val 500 ≤ m.headMark now ∧
            markLower m.core.oraclePrice.val config.markDeviationBps ≤ m.headMark now ∨
          markLower m.core.oraclePrice.val 500 =
            markLower m.core.oraclePrice.val config.markDeviationBps) ∧
        (m.headMark now ≤ markUpper m.core.oraclePrice.val 500 ∧
            m.headMark now ≤ markUpper m.core.oraclePrice.val config.markDeviationBps ∨
          markUpper m.core.oraclePrice.val 500 =
            markUpper m.core.oraclePrice.val config.markDeviationBps))) := by
  obtain ⟨aggregate, quote, ha, hq, hp, hm⟩ :=
    hbundle.marks hview hcore husable hprices config now asOfSlot
  have hb := oracle_mem_band husable.positive
  refine ⟨aggregate, quote, _, ha, hq, (congrArg (Except.bind · _) hconfig).trans hm, fun hl => ?_⟩
  rw [hp, Market.liveMark_eq hl, clampMark_eq, clampMark_eq]
  exact clamp_eq_clamp_iff (hb _) (hb _)

/-! ## Two bids, seen by both -/

theorem coreShows_encodeCore (core : MarketCore) (hm : core.mode < 256)
    (hd : core.config.markDeviationBps < 256 ^ 2) :
    CoreShows (encodeCore core.mode core.oracleValid core.oraclePrice.val
      core.config.markDeviationBps) core := by
  have hf : Bytes.Fields (encodeCore core.mode core.oracleValid core.oraclePrice.val
      core.config.markDeviationBps) 0 (coreFields core.mode core.oracleValid core.oraclePrice.val
      core.config.markDeviationBps) := Bytes.fields_zero_iff.2 rfl
  simp only [coreFields, Bytes.Fields, Bytes.length_ofNat, Bytes.length_ofInt,
    length_replicate] at hf
  obtain ⟨-, -, -, hby, -, hv, hp, -, hb, -⟩ := hf
  have hr := core.oraclePrice.property
  refine ⟨hby.toNat_slice hm, hv.toNat_slice ?_, hp.toInt_slice hr.1 hr.2, hb.toNat_slice hd⟩
  cases core.oracleValid <;> decide

/-- A listed market with bids at 100 and 95 and a verified price of the oracle. -/
def shownMarket (oracle : I64) : Market :=
  { genesis.live with
    books := shownBooks
    core := { genesis.live.core with oracleValid := true, oraclePrice := oracle } }

theorem shownBooks_viewable (side : Side) : Viewable (shownBooks side) :=
  viewable_of_run opened_fresh (shownBooks_run side)

theorem shownBooks_leaves : ∀ side tree, ∀ x ∈ (shownBooks side).leaves tree,
    x.2.priceOrOffset.val < 2 ^ 39 := by
  intro side tree
  cases side <;> cases tree <;> decide +kernel

/-- With the price of the oracle at 100 both marks are the best bid. -/
theorem mark_agrees_at_bid : ∃ aggregate quote mark,
    aggregateV3Market 10 (encodeCore 1 true 100 0) (encodePages (replicate 32 1) shownBooks)
        (shownShards v3SeatShardDiscriminator v3SeatShardSize)
        (shownShards v3EventShardDiscriminator v3EventShardSize) (replicate 32 1) none =
          some aggregate ∧
      executableV3Mark aggregate.core aggregate.orderBook.bids aggregate.orderBook.asks 10 =
        some quote ∧
      (shownMarket 100).fundingMark defaults 100 10 = .ok mark ∧ quote.price = mark := by
  have hco : CoreShows (encodeCore 1 true 100 0) (shownMarket 100).core :=
    coreShows_encodeCore (shownMarket 100).core (by decide) (by decide)
  have hc : readV3RiskConfig (shownMarket 100).core = .ok defaults := by decide +kernel
  obtain ⟨aggregate, quote, mark, ha, hq, hm, hi⟩ :=
    mark_agrees_iff (bundle_encode length_replicate shownBooks_fits 1 true 100 0)
      shownBooks_viewable hco ⟨rfl, by decide, by decide⟩ ⟨by decide, shownBooks_leaves⟩ hc 10 none
  have hl (side : Side) : (shownMarket 100).HeadsLead 10 side := by
    have hw := (shownBooks_viewable side).wf
    refine ⟨(hw.quote_eq_head_iff hw.bestFor_eq).1 ?_, ?_⟩
    all_goals cases side <;> decide +kernel
  exact ⟨aggregate, quote, mark, ha, hq, hm, (hi hl).2 (by decide +kernel)⟩

/-- The default configuration with a band of 2000 basis points. -/
def wideConfig : V3RiskConfig := { defaults with markDeviationBps := 2000 }

/-- With the price of the oracle at 90 and a configured band of 2000 basis points the program's mark
is the bid at 100, and the worker displays 94, the end of its own band. -/
theorem displayed_mark_differs : ∃ m aggregate quote,
    updateV3RiskConfig (call 3 90) wideConfig (shownMarket 90) = .ok () m ∧
      aggregateV3Market 10 (encodeCore 1 true 90 2000)
          (encodePages (replicate 32 1) shownBooks)
          (shownShards v3SeatShardDiscriminator v3SeatShardSize)
          (shownShards v3EventShardDiscriminator v3EventShardSize) (replicate 32 1) none =
            some aggregate ∧
      CoreShows (encodeCore 1 true 90 2000) m.core ∧ m.books = shownBooks ∧
      executableV3Mark aggregate.core aggregate.orderBook.bids aggregate.orderBook.asks 10 =
        some quote ∧
      quote.price = 94 ∧ m.fundingMark wideConfig m.core.oraclePrice 10 = .ok 100 := by
  let wide : Market := { shownMarket 90 with
    core := { (shownMarket 90).core with
      config := wideConfig, riskConfigVersion := v3RiskConfigVersion } }
  have hu : updateV3RiskConfig (call 3 90) wideConfig
      (shownMarket 90) = .ok () (finalState _) := eq_ok_of_isOk (by decide +kernel)
  rw [(updateV3RiskConfig_eq_ok hu).2.2] at hu
  have hc : CoreShows (encodeCore 1 true 90 2000) wide.core :=
    coreShows_encodeCore wide.core (by decide) (by decide)
  obtain ⟨aggregate, quote, ha, hq, hp, hm⟩ :=
    Bundle.marks (m := wide) (bundle_encode length_replicate shownBooks_fits 1 true 90 2000)
      shownBooks_viewable hc ⟨rfl, by decide, by decide⟩ ⟨by decide, shownBooks_leaves⟩
      wideConfig 10 none
  refine ⟨wide, aggregate, quote, hu, ha, hc, rfl, hq, hp.trans ?_, hm.trans ?_⟩
  · decide +kernel
  · decide +kernel

end Bundles

end MarketView

end Equinox
