import Equinox.Book.Applied
import Equinox.Book.Reach
import Equinox.Market.Upkeep

/-! # Quotes and makers

The mark is taken from the first order of each tree, the planner selects among
all orders that can execute. Both see the same price if and only if the first
order of one of the trees can execute, at a price that no order beats.
-/

namespace Equinox

open Foundation CritBit List Option

namespace PagedBookV3

variable {b : PagedBookV3} {side : Side} {oracle : I64} {now : ℕ} {tree : TreeKind} {x y : Maker}

/-- The price of the first order of a tree, if it can execute. -/
def headPrice (b : PagedBookV3) (side : Side) (oracle : I64) (now : ℕ) (tree : TreeKind) :
    Option I64 :=
  (b.leaves tree).head?.bind fun entry => executablePrice entry.2 tree side (some oracle) now

/-- Whenever an order can execute, the first order of one of the trees can, at a price at least as
good. -/
def HeadsLead (b : PagedBookV3) (side : Side) (oracle : I64) (now : ℕ) : Prop :=
  ∀ x ∈ b.queue side (some oracle) now, ∃ tree price,
    b.headPrice side oracle now tree = some price ∧
      crosses side.opposite x.price.val price.val = true

theorem WellFormed.bestExecutablePrice_eq (hb : b.WellFormed) :
    b.bestExecutablePrice tree side oracle now = .ok (b.headPrice side oracle now tree) := by
  rw [bestExecutablePrice, hb.best_eq, ok_bind, headPrice]
  cases hh : (b.leaves tree).head? with
  | none => rfl
  | some entry =>
    have hl : b.leaf entry.1 = .ok entry.2 := hb.leaf_eq (mem_of_head? hh)
    simp only [map_some, hl, ok_bind, bind_some]
    rfl

theorem exists_maker_of_headPrice {price : I64}
    (h : b.headPrice side oracle now tree = some price) :
    ∃ x ∈ b.queue side (some oracle) now, x.price = price := by
  obtain ⟨entry, hh, hp⟩ := bind_eq_some_iff.1 h
  exact ⟨⟨tree, entry.1, entry.2, price⟩, mem_queue.2 ⟨mem_of_head? hh, hp⟩, rfl⟩

theorem queue_eq_nil_iff {oracle : Option I64} : b.queue side oracle now = [] ↔
    ∀ tree, ∀ entry ∈ b.leaves tree, executablePrice entry.2 tree side oracle now = none := by
  rw [eq_nil_iff_forall_not_mem]
  constructor
  · rintro hn tree ⟨handle, leaf⟩ he
    rw [eq_none_iff_forall_ne_some]
    rintro price hp
    exact hn ⟨tree, handle, leaf, price⟩ (mem_queue.2 ⟨he, hp⟩)
  · rintro hn x hx
    obtain ⟨hmem, hp⟩ := mem_queue.1 hx
    simp [hn x.tree _ hmem] at hp

/-! ## Prices in order -/

theorem crosses_refl (side : Side) (price : ℤ) : crosses side price price = true := by
  cases side <;> simp [crosses]

theorem crosses_trans {side : Side} {p q r : ℤ} (h : crosses side p q = true)
    (h' : crosses side q r = true) : crosses side p r = true := by
  cases side <;> simp only [crosses, decide_eq_true_eq] at h h' ⊢ <;> omega

theorem crosses_antisymm {side : Side} {p q : ℤ} (h : crosses side p q = true)
    (h' : crosses side q p = true) : p = q := by
  cases side <;> simp only [crosses, decide_eq_true_eq] at h h' <;> omega

theorem WellFormed.head_leads (hb : b.WellFormed) {xs : List Maker}
    (hq : b.queue side (some oracle) now = y :: xs) (hx : x ∈ b.queue side (some oracle) now) :
    crosses side.opposite x.price.val y.price.val = true := by
  have hpos : ∀ z ∈ b.queue side (some oracle) now, 0 < z.price.val := fun z hz =>
    (executablePrice_eq_some (mem_queue.1 hz).2).1
  have hy : y ∈ b.queue side (some oracle) now := hq ▸ mem_cons_self
  have hs : (b.queue side (some oracle) now).Pairwise (·.priority side < ·.priority side) :=
    hb.queue_sorted
  rw [hq] at hx hs
  rcases mem_cons.1 hx with rfl | hmem
  · exact crosses_refl _ _
  · have hr := rank_le_of_priority_lt ((pairwise_cons.1 hs).1 x hmem)
    have ho : side.opposite.opposite = side := by cases side <;> rfl
    refine crosses_of_rank_le (hpos y hy) (hpos x (hq ▸ hx)) ?_ (crosses_refl _ _)
    rwa [ho]

/-! ## The quote -/

def bestOf (side : Side) (prices : List I64) : Option I64 :=
  prices.foldl (fun best price => some (betterPrice side best price)) none

/-- The best price among the first orders of the trees. -/
def headQuote (b : PagedBookV3) (side : Side) (oracle : I64) (now : ℕ) : Option I64 :=
  bestOf side ([TreeKind.fixed, .oraclePegged].filterMap (b.headPrice side oracle now))

section

variable {prices : List I64} {price : I64}

theorem bestOf_bid : bestOf .bid prices = prices.max? := by
  cases prices with
  | nil => rfl
  | cons p prices =>
    rw [max?_cons']
    induction prices generalizing p with
    | nil => rfl
    | cons q prices ih => exact ih (max p q)

theorem bestOf_ask : bestOf .ask prices = prices.min? := by
  cases prices with
  | nil => rfl
  | cons p prices =>
    rw [min?_cons']
    induction prices generalizing p with
    | nil => rfl
    | cons q prices ih => exact ih (min p q)

theorem bestOf_eq_some_iff : bestOf side prices = some price ↔
    price ∈ prices ∧ ∀ p ∈ prices, crosses side.opposite p.val price.val = true := by
  cases side with
  | bid => simp [bestOf_bid, max?_eq_some_iff, crosses, Side.opposite]
  | ask => simp [bestOf_ask, min?_eq_some_iff, crosses, Side.opposite]

theorem exists_bestOf (side : Side) (h : price ∈ prices) :
    ∃ best, bestOf side prices = some best := by
  cases side with
  | bid => simpa [bestOf_bid, ← isSome_iff_exists] using ne_nil_of_mem h
  | ask => simpa [bestOf_ask, ← isSome_iff_exists] using ne_nil_of_mem h

end

theorem WellFormed.bestFor_eq (hb : b.WellFormed) :
    bestFor b side oracle now = .ok (b.headQuote side oracle now) := by
  simp only [bestFor, foldlM_cons, foldlM_nil, hb.bestExecutablePrice_eq, ok_bind, headQuote,
    filterMap_cons, filterMap_nil]
  cases b.headPrice side oracle now .fixed <;> cases b.headPrice side oracle now .oraclePegged <;>
    rfl

theorem mem_headPrices {price : I64} :
    price ∈ [TreeKind.fixed, .oraclePegged].filterMap (b.headPrice side oracle now) ↔
      ∃ tree, b.headPrice side oracle now tree = some price := by
  rw [mem_filterMap]
  constructor
  · rintro ⟨tree, -, h⟩
    exact ⟨tree, h⟩
  · rintro ⟨tree, h⟩
    exact ⟨tree, by cases tree <;> simp, h⟩

/-- The quote is the price of a first order, and no first order that can execute has a better
one. -/
theorem WellFormed.bestFor_eq_ok (hb : b.WellFormed) (side : Side) (oracle : I64) (now : ℕ) :
    ∃ quote, bestFor b side oracle now = .ok quote ∧
      (∀ price, quote = some price → ∃ tree, b.headPrice side oracle now tree = some price) ∧
      ∀ tree price, b.headPrice side oracle now tree = some price →
        ∃ best, quote = some best ∧ crosses side.opposite price.val best.val = true := by
  refine ⟨_, hb.bestFor_eq, fun _ h => mem_headPrices.1 (bestOf_eq_some_iff.1 h).1,
    fun tree price h => ?_⟩
  have hp := mem_headPrices.2 ⟨tree, h⟩
  obtain ⟨best, hbe⟩ := exists_bestOf side hp
  exact ⟨best, hbe, (bestOf_eq_some_iff.1 hbe).2 price hp⟩

/-- The quote is the price of the first maker if and only if the heads lead. -/
theorem WellFormed.quote_eq_head_iff (hb : b.WellFormed) {quote : Option I64}
    (hquo : bestFor b side oracle now = .ok quote) :
    quote = (b.queue side (some oracle) now).head?.map (·.price) ↔ b.HeadsLead side oracle now := by
  obtain ⟨_, hq, hs, hl⟩ := hb.bestFor_eq_ok side oracle now
  obtain rfl := Except.ok.inj (hquo.symm.trans hq)
  constructor
  · intro heq x hx
    obtain ⟨y, xs, hqu⟩ := exists_cons_of_ne_nil (ne_nil_of_mem hx)
    rw [hqu, head?_cons, map_some] at heq
    obtain ⟨tree, ht⟩ := hs _ heq
    exact ⟨tree, y.price, ht, hb.head_leads hqu hx⟩
  · intro hh
    cases hqu : b.queue side (some oracle) now with
    | nil =>
      cases quote with
      | none => rfl
      | some price =>
        obtain ⟨tree, ht⟩ := hs price rfl
        obtain ⟨x, hx, -⟩ := exists_maker_of_headPrice ht
        simp [hqu] at hx
    | cons y ys =>
      obtain ⟨tree, price, ht, hp⟩ := hh y (hqu ▸ mem_cons_self)
      obtain ⟨best, rfl, hbe⟩ := hl tree price ht
      obtain ⟨tree', ht'⟩ := hs best rfl
      obtain ⟨x, hx, rfl⟩ := exists_maker_of_headPrice ht'
      -- the first maker is at least as good as the quote, and the quote as the first maker
      have hv := crosses_antisymm (crosses_trans hp hbe) (hb.head_leads hqu hx)
      rw [head?_cons, map_some, Subtype.ext hv]

/-! ## The first fill -/

def Taker.Unbounded (taker : Taker) : Prop :=
  0 < taker.price.val ∧
    ∀ price : I64, 0 < price.val → crosses taker.side taker.price.val price.val = true

theorem Taker.exists_uses {taker : Taker} {xs : List Maker}
    (hf : ∀ x ∈ xs, x.leaf.owner ≠ taker.owner) (room remaining : ℕ) :
    ∃ uses, taker.uses room remaining xs = .ok uses := by
  induction xs generalizing room remaining with
  | nil => cases room <;> exact ⟨[], rfl⟩
  | cons x xs ih =>
    cases room with
    | zero => exact ⟨[], rfl⟩
    | succ room =>
      rw [Taker.uses]
      split_ifs with hs ho
      · exact ⟨[], rfl⟩
      · exact absurd ho (hf x mem_cons_self)
      · obtain ⟨rest, hr⟩ := ih (fun y hy => hf y (mem_cons_of_mem _ hy)) room
          (remaining - x.leaf.quantity)
        exact ⟨_, by rw [hr]; rfl⟩

/-- The first fill of an unbounded taker without orders of its own is the first maker's. -/
theorem WellFormed.first_fill (hb : b.WellFormed) {taker : Taker} {quantity : ℕ}
    (hsi : taker.side.opposite = side) (hun : taker.Unbounded)
    (hf : ∀ x ∈ b.queue side (some oracle) now, x.leaf.owner ≠ taker.owner)
    (hq : 0 < quantity) :
    ∃ plan, b.planCrossingCrossTree taker quantity (some oracle) now = .ok plan ∧
      plan.fills.head?.map (·.price) =
        (b.queue side (some oracle) now).head?.map (·.price.val.toNat) := by
  subst hsi
  obtain ⟨uses, hu⟩ := Taker.exists_uses hf maxFillsPerInstruction quantity
  have hs : Selected [] [] := fun p => by simp
  refine ⟨V3MatchPlan.extend ⟨[], quantity, []⟩ uses, ?_, ?_⟩
  · rw [planCrossingCrossTree, planCrossingTrees, require, if_pos ⟨hun.1, hq⟩]
    refine (hb.planFrom_eq (nil_append _).symm hs (by simp)).trans ?_
    rw [hu]
    rfl
  · have hpos : ∀ z ∈ b.queue taker.side.opposite (some oracle) now, 0 < z.price.val :=
      fun z hz => (executablePrice_eq_some (mem_queue.1 hz).2).1
    generalize b.queue taker.side.opposite (some oracle) now = xs at hu hf hpos
    cases xs with
    | nil =>
      obtain rfl := pure_eq_ok.1 hu
      rfl
    | cons x xs =>
      have hr := hun.2 x.price (hpos x mem_cons_self)
      have hm : ¬(quantity = 0 ∨ crosses taker.side taker.price.val x.price.val = false) := by
        rintro (hze | hbe)
        · omega
        · simp [hr] at hbe
      rw [maxFillsPerInstruction, Taker.uses, if_neg hm, if_neg (hf x mem_cons_self)] at hu
      simp only [ok_rules] at hu
      obtain ⟨rest, -, rfl⟩ := hu
      simp [V3MatchPlan.extend, fillOf, Maker.toFill]

/-- The quote behind the mark is the price of the maker the planner selects first, and is missing
only when no order can execute, if and only if the heads of the trees lead. -/
theorem quote_eq_first_maker_iff (hb : b.WellFormed) (side : Side) (oracle : I64) (now : ℕ) :
    ∃ quote maker, bestFor b side oracle now = .ok quote ∧
      b.bestUnselectedAcross [.fixed, .oraclePegged] side (some oracle) now [] = .ok maker ∧
      (∀ taker quantity, taker.side.opposite = side → taker.Unbounded →
        (∀ x ∈ b.queue side (some oracle) now, x.leaf.owner ≠ taker.owner) → 0 < quantity →
        ∃ plan, b.planCrossingCrossTree taker quantity (some oracle) now = .ok plan ∧
          plan.fills.head?.map (·.price) = maker.map (·.price.val.toNat)) ∧
      (quote = maker.map (·.price) ∧ (quote = none ↔ ∀ tree, ∀ entry ∈ b.leaves tree,
          executablePrice entry.2 tree side (some oracle) now = none) ↔
        b.HeadsLead side oracle now) := by
  obtain ⟨quote, hq, -⟩ := hb.bestFor_eq_ok side oracle now
  have hs : Selected [] [] := fun p => by simp
  refine ⟨quote, _, hq, hb.bestUnselectedAcross_eq (nil_append _).symm hs, ?_, ?_⟩
  · rintro taker quantity hsi hu hfo hqu
    obtain ⟨plan, hp, hf⟩ := hb.first_fill hsi hu hfo hqu
    exact ⟨plan, hp, hf.trans (by simp [Maker.candidate, Function.comp_def])⟩
  · rw [Option.map_map, ← hb.quote_eq_head_iff hq]
    refine ⟨fun h => h.1, fun h => ⟨h, ?_⟩⟩
    rw [h, map_eq_none_iff, head?_eq_none_iff, queue_eq_nil_iff]

/-! ## A book whose first order has expired -/

def sampleAsk (price : I64) (sequence : U64) (expiresAt : ℕ) : LeafNode :=
  { sampleLeaf (packKey (priceWord .ask price) sequence) 2 with
    priceOrOffset := price, sequence, expiresAt }

/-- Two asks of a fresh book: one at ninety that expires at fifty, behind it one at a hundred. -/
def askPair : BookM Unit := do
  let _ ← insert .fixed (sampleAsk 90 1 50)
  let _ ← insert .fixed (sampleAsk 100 2 100)

theorem wellFormed_of_askPair (h : askPair fresh = .ok () b) : b.WellFormed := by
  simp only [askPair, run_bind_eq_ok, run_pure_eq_ok] at h
  obtain ⟨_, b₁, h₁, _, b₂, h₂, -, rfl⟩ := h
  have hf : fresh.WellFormed := ⟨_, _, fresh_prepared.layout⟩
  exact ((hf.insert h₁).1.insert h₂).1

/-- Before it expires the first ask leads, and is the quote and the first maker. -/
theorem quote_eq_first_maker_of_askPair : ∃ b maker, askPair fresh = .ok () b ∧
    b.HeadsLead .ask 95 20 ∧ bestFor b .ask 95 20 = .ok (some 90) ∧
    b.bestUnselectedAcross [.fixed, .oraclePegged] .ask (some 95) 20 [] = .ok maker ∧
    some 90 = maker.map (·.price) := by
  have hr : askPair fresh = .ok () (finalState (askPair fresh)) := eq_ok_of_isOk (by decide +kernel)
  have hb := wellFormed_of_askPair hr
  have hq : bestFor (finalState (askPair fresh)) .ask 95 20 = .ok (some 90) := by decide +kernel
  have hl := (hb.quote_eq_head_iff hq).1 (by decide +kernel)
  obtain ⟨quote, maker, hqu, hm, -, hi⟩ := quote_eq_first_maker_iff hb .ask 95 20
  obtain rfl := Except.ok.inj (hq.symm.trans hqu)
  exact ⟨_, maker, hr, hl, hq, hm, (hi.2 hl).1⟩

/-- After the first ask has expired the mark sees no ask, while the planner selects the one behind
it. -/
theorem quote_missing_behind_expired : ∃ b, askPair fresh = .ok () b ∧ b.WellFormed ∧
    bestFor b .ask 95 60 = .ok none ∧
      (b.planCrossingCrossTree ⟨.bid, 2, .abortTransaction, ⟨2 ^ 63 - 1, by decide⟩⟩ 1
        (some 95) 60).toOption.map (·.fills.map (·.price)) = some [100] := by
  have hr : askPair fresh = .ok () (finalState (askPair fresh)) := eq_ok_of_isOk (by decide +kernel)
  exact ⟨_, hr, wellFormed_of_askPair hr, by decide +kernel⟩

end PagedBookV3

end Equinox
