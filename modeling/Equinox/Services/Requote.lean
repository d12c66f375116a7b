import Equinox.Book.Matching

/-! # The market maker's requotes

In each tick the market maker pairs a ladder of quotes around the index with its
resting orders, rank by rank, and sends what has drifted as one batch. The actions
of a batch are sent at once, so that they may land in any order and some not at
all. Whatever lands, no quote meets the maker's own orders on the other side.
-/

namespace Equinox

open Foundation List Side

namespace Requote

/-! ## The ladder -/

structure Quote where
  side : Side
  price : I64
  quantity : ℕ
  rung : ℕ
  deriving DecidableEq, Repr

structure RestingOrder where
  key : ℕ
  side : Side
  price : I64
  quantity : ℕ
  expiresAt : ℕ
  deriving DecidableEq, Repr

inductive QuoteAction where
  | place (quote : Quote)
  | replace (key : ℕ) (quote : Quote)
  | cancel (key : ℕ)
  deriving DecidableEq, Repr

def ladderBps : List ℤ :=
  [1, 2, 3, 4, 6, 8, 11, 14, 18, 23, 28, 34, 40, 47, 55, 63, 72, 82, 93, 105]

/-- The percentage of the share counts that rests about the same value at any price. -/
def sizeScale (index : ℤ) : ℕ :=
  (max 10 (min 100 ((37600000 * 100 : ℤ).tdiv (max index 1)))).toNat

/-- The shift against the inventory. The product is an `i128` that wraps. -/
def skew (index inventory : ℤ) : ℤ := ((index * inventory).bmod (2 ^ 128)).tdiv 400000

def offset (index bps : ℤ) : ℤ := (index * bps).tdiv 10000

def rawPrice (index inventory bps : ℤ) (side : Side) : ℤ :=
  (match side with
    | .bid => index - offset index bps
    | .ask => index + offset index bps) - skew index inventory

def rungQuote (index : I64) (inventory : ℤ) (sizes : ℕ → Fin 4) (rung : ℤ × ℕ) (side : Side) :
    Quote where
  side
  rung := rung.2
  quantity := max (((2 + min rung.2 9 * 3 + sizes rung.2) * sizeScale index.val + 50) / 100) 1
  price := I64.wrap (rawPrice index.val inventory rung.1 side)

def ladder (index : I64) (inventory : ℤ) (sizes : ℕ → Fin 4) : List Quote :=
  ladderBps.zipIdx.flatMap fun rung =>
    [bid, .ask].map (rungQuote index inventory sizes rung)

/-! ## The plan -/

def ByPriority (side : Side) (a b : I64) : Prop :=
  match side with
  | .bid => b.val ≤ a.val
  | .ask => a.val ≤ b.val

instance (side : Side) : DecidableRel (ByPriority side) := fun a b => by
  unfold ByPriority
  cases side <;> infer_instance

def liveOrders (resting : List RestingOrder) (side : Side) (now : ℕ) : List RestingOrder :=
  (resting.filter fun o => o.side = side ∧ now < o.expiresAt).insertionSort
    fun a b => ByPriority side a.price b.price

def wantedQuotes (targets : List Quote) (side : Side) : List Quote :=
  (targets.filter fun q => q.side = side).insertionSort fun a b => ByPriority side a.price b.price

def refreshBefore : ℕ := 12

def tolerance (index : ℤ) (rung : ℕ) : ℤ := (index * (2 + rung * 2)).tdiv 100000

/-- The action for the quote of a rank, if it needs one. -/
def rankAction (index : ℤ) (now : ℕ) (live : List RestingOrder) (quote : Quote) (rank : ℕ) :
    Option QuoteAction :=
  match live[rank]? with
  | none => some (.place quote)
  | some order =>
    let drift := |order.price.val - quote.price.val|
    if tolerance index quote.rung < drift ∨ order.expiresAt - now < refreshBefore then
      some (.replace order.key quote)
    else none

def planSide (resting : List RestingOrder) (targets : List Quote) (index : ℤ) (now : ℕ)
    (side : Side) : List QuoteAction :=
  let live := liveOrders resting side now
  let wanted := wantedQuotes targets side
  wanted.zipIdx.filterMap (fun x => rankAction index now live x.1 x.2) ++
    (live.drop wanted.length).map fun order => .cancel order.key

def bestAsk (resting : List RestingOrder) (now : ℕ) : Option ℤ :=
  ((resting.filter fun o => o.side = .ask ∧ now < o.expiresAt).map (·.price.val)).min?

def bestBid (resting : List RestingOrder) (now : ℕ) : Option ℤ :=
  ((resting.filter fun o => o.side = .bid ∧ now < o.expiresAt).map (·.price.val)).max?

/-- A quote would cross the maker's own live orders. -/
def crossesOwn (resting : List RestingOrder) (now : ℕ) (quote : Quote) : Bool :=
  match quote.side with
  | .bid => (bestAsk resting now).any fun ask => ask ≤ quote.price.val
  | .ask => (bestBid resting now).any fun bid => quote.price.val ≤ bid

def planQuotes (resting : List RestingOrder) (targets : List Quote) (index : ℤ) (now : ℕ) :
    List QuoteAction :=
  let actions := [bid, .ask].flatMap (planSide resting targets index now) ++
    (resting.filter fun o => o.expiresAt ≤ now).map fun o => .cancel o.key
  -- The rungs that would cross the old orders are held back for a tick.
  actions.filter fun
    | .place quote | .replace _ quote => !crossesOwn resting now quote
    | .cancel _ => true

/-! ## The jitter -/

/-- What one round of the jitter draws: a side, a rung (any number, taken below the span) and an
addition to the size. -/
structure Draw where
  bid : Bool
  rung : ℕ
  extra : Fin 6

def Draw.side (draw : Draw) : Side := if draw.bid then .bid else .ask

def touched (actions : List QuoteAction) (side : Side) (rung : ℕ) : Bool :=
  actions.any fun
    | .place quote | .replace _ quote => quote.side = side && quote.rung = rung
    | .cancel _ => false

/-- One round: size a settled rung anew, at the price its order has. -/
def jitterOnce (resting : List RestingOrder) (targets : List Quote) (now : ℕ) (draw : Draw)
    (actions : List QuoteAction) : List QuoteAction :=
  let side := draw.side
  let live := liveOrders resting side now
  let span := min live.length (targets.length / 2)
  let rung := draw.rung % span
  if span = 0 then actions
  else
    match targets.find? fun q => q.side = side && q.rung = rung with
    | none => actions
    | some quote =>
      if touched actions side rung then actions
      else
        match live[rung]? with
        | none => actions
        | some order => actions ++ [.replace order.key
            { quote with price := order.price, quantity := quote.quantity + draw.extra }]

def jitter (resting : List RestingOrder) (targets : List Quote) (now maxActions : ℕ) :
    List Draw → List QuoteAction → List QuoteAction
  | [], actions => actions
  | draw :: draws, actions =>
    if maxActions ≤ actions.length then actions
    else jitter resting targets now maxActions draws (jitterOnce resting targets now draw actions)

def maxActionsPerTick : ℕ := 12
def jitterRungsPerTick : ℕ := 2

def batch (index : I64) (inventory : ℤ) (resting : List RestingOrder) (now : ℕ)
    (sizes : ℕ → Fin 4) (draws : Fin jitterRungsPerTick → Draw) : List QuoteAction :=
  let targets := ladder index inventory sizes
  jitter resting targets now maxActionsPerTick (ofFn draws)
    ((planQuotes resting targets index.val now).take maxActionsPerTick)

/-! ## The ladder around an index -/

variable {index : I64} {inventory : ℤ} {sizes : ℕ → Fin 4} {resting : List RestingOrder}
  {targets : List Quote} {now : ℕ} {side : Side} {quote quote' : Quote}
  {order order' : RestingOrder} {action : QuoteAction} {actions : List QuoteAction}

def Fits (index inventory : ℤ) : Prop :=
  ∀ bps ∈ ladderBps, ∀ side ∈ [bid, .ask],
    -2 ^ 63 ≤ rawPrice index inventory bps side ∧ rawPrice index inventory bps side < 2 ^ 63

instance (index inventory : ℤ) : Decidable (Fits index inventory) := by
  unfold Fits
  infer_instance

theorem offset_mono {index bps bps' : ℤ} (hi : 0 ≤ index) (h : bps ≤ bps') :
    offset index bps ≤ offset index bps' :=
  Int.tdiv_le_tdiv (by decide) (mul_le_mul_of_nonneg_left h hi)

theorem offset_pos {index bps : ℤ} (hi : 10000 ≤ index) (hb : 1 ≤ bps) : 1 ≤ offset index bps := by
  have ho : (10000 : ℤ) ≤ index * bps := by nlinarith
  exact Int.le_tdiv_of_mul_le (by decide) (by simpa using ho)

theorem one_le_of_mem_ladderBps {bps : ℤ} (h : bps ∈ ladderBps) : 1 ≤ bps := by
  revert bps
  decide

theorem filter_side_ladder :
    (ladder index inventory sizes).filter (fun q => q.side = side) =
      ladderBps.zipIdx.map fun rung => rungQuote index inventory sizes rung side := by
  rw [ladder]
  induction ladderBps.zipIdx with
  | nil => rfl
  | cons rung rungs ih =>
    rw [flatMap_cons, filter_append, ih]
    cases side <;> simp [rungQuote]

theorem length_ladder : (ladder index inventory sizes).length = 40 := by
  simp [ladder, ladderBps]

theorem mem_ladder (h : quote ∈ ladder index inventory sizes) :
    ∃ bps ∈ ladderBps, quote.price = I64.wrap (rawPrice index.val inventory bps quote.side) := by
  simp only [ladder, mem_flatMap, mem_map] at h
  obtain ⟨⟨bps, rung⟩, hmem, side, -, rfl⟩ := h
  exact ⟨bps, fst_mem_of_mem_zipIdx hmem, rfl⟩

theorem price_of_mem_ladder (hf : Fits index.val inventory)
    (h : quote ∈ ladder index inventory sizes) :
    ∃ bps ∈ ladderBps, quote.price.val = rawPrice index.val inventory bps quote.side := by
  obtain ⟨bps, hb, hp⟩ := mem_ladder h
  refine ⟨bps, hb, ?_⟩
  rw [hp, I64.wrap_val (hf bps hb _ (by cases quote.side <;> simp))]

theorem ladder_separated (hi : 10000 ≤ index.val) (hf : Fits index.val inventory)
    (h : quote ∈ ladder index inventory sizes) (h' : quote' ∈ ladder index inventory sizes)
    (hb : quote.side = .bid) (ha : quote'.side = .ask) : quote.price.val < quote'.price.val := by
  obtain ⟨bps, hbps, hp⟩ := price_of_mem_ladder hf h
  obtain ⟨bps', hb', hp'⟩ := price_of_mem_ladder hf h'
  have hpos := offset_pos hi (one_le_of_mem_ladderBps hbps)
  have hpos' := offset_pos hi (one_le_of_mem_ladderBps hb')
  rw [hp, hp', hb, ha]
  simp only [rawPrice]
  omega

theorem wantedQuotes_ladder (hi : 0 ≤ index.val) (hf : Fits index.val inventory)
    (side : Side) :
    wantedQuotes (ladder index inventory sizes) side =
      ladderBps.zipIdx.map fun rung => rungQuote index inventory sizes rung side := by
  have hs : ladderBps.zipIdx.Pairwise fun a b => a.1 ≤ b.1 := by decide
  rw [wantedQuotes, filter_side_ladder]
  refine Pairwise.insertionSort_eq (pairwise_map.2 ?_)
  refine hs.imp_of_mem fun {a b} ha hb hle => ?_
  have ho := offset_mono hi hle
  have hp (rung : ℤ × ℕ) (hr : rung ∈ ladderBps.zipIdx) :
      (rungQuote index inventory sizes rung side).price.val =
        rawPrice index.val inventory rung.1 side :=
    I64.wrap_val (hf rung.1 (fst_mem_of_mem_zipIdx hr) side (by cases side <;> simp))
  cases side with
  | bid =>
    simp only [ByPriority, hp a ha, hp b hb, rawPrice]
    omega
  | ask =>
    simp only [ByPriority, hp a ha, hp b hb, rawPrice]
    omega

theorem length_wantedQuotes_ladder (hi : 0 ≤ index.val) (hf : Fits index.val inventory) :
    (wantedQuotes (ladder index inventory sizes) side).length = 20 := by
  rw [wantedQuotes_ladder hi hf]
  rfl

theorem rung_of_wantedQuotes (hi : 0 ≤ index.val) (hf : Fits index.val inventory)
    {rank : ℕ} (h : (wantedQuotes (ladder index inventory sizes) side)[rank]? = some quote) :
    quote.side = side ∧ quote.rung = rank := by
  rw [wantedQuotes_ladder hi hf, getElem?_map, Option.map_eq_some_iff] at h
  obtain ⟨rung, hr, rfl⟩ := h
  rw [getElem?_zipIdx, Option.map_eq_some_iff] at hr
  obtain ⟨bps, -, rfl⟩ := hr
  exact ⟨rfl, Nat.zero_add rank⟩

/-! ## The orders of a side -/

/-- The order is on the maker's books and has not expired. -/
def Live (resting : List RestingOrder) (now : ℕ) (order : RestingOrder) : Prop :=
  order ∈ resting ∧ now < order.expiresAt

theorem perm_liveOrders : (liveOrders resting side now).Perm
    (resting.filter fun o => o.side = side ∧ now < o.expiresAt) := perm_insertionSort _ _

theorem mem_liveOrders :
    order ∈ liveOrders resting side now ↔ Live resting now order ∧ order.side = side := by
  rw [perm_liveOrders.mem_iff, mem_filter, decide_eq_true_eq, Live]
  tauto

theorem live_of_getElem? {rank : ℕ} (h : (liveOrders resting side now)[rank]? = some order) :
    Live resting now order ∧ order.side = side := mem_liveOrders.1 (mem_of_getElem? h)

section Keys

variable (hkeys : (resting.map (·.key)).Nodup)
include hkeys

theorem eq_of_key_eq (h : order ∈ resting) (h' : order' ∈ resting)
    (hk : order.key = order'.key) : order = order' := inj_on_of_nodup_map hkeys h h' hk

theorem rank_unique {rank rank' : ℕ} (h : (liveOrders resting side now)[rank]? = some order)
    (h' : (liveOrders resting side now)[rank']? = some order) : rank = rank' := by
  have hn : (liveOrders resting side now).Nodup :=
    perm_liveOrders.nodup_iff.2 (Nodup.filter _ (Nodup.of_map _ hkeys))
  exact (List.getElem?_inj (List.getElem?_eq_some_iff.1 h).1 hn).1 (h.trans h'.symm)

end Keys

/-! ## Quotes against orders -/

/-- A quote crosses or locks an order of the other side. -/
def Locks (quote : Quote) (side : Side) (price : I64) : Prop :=
  side = quote.side.opposite ∧ crosses quote.side quote.price.val price.val = true

theorem Locks.symm (h : Locks quote quote'.side quote'.price) :
    Locks quote' quote.side quote.price := by
  obtain ⟨hs, hc⟩ := h
  unfold Locks
  rw [hs]
  cases hq : quote.side with
  | bid => simpa [hq, crosses, opposite] using hc
  | ask => simpa [hq, crosses, opposite] using hc

theorem not_locks_of_crossesOwn_eq_false (h : crossesOwn resting now quote = false)
    (ho : Live resting now order) : ¬Locks quote order.side order.price := by
  rintro ⟨hs, hc⟩
  have hp : order.price.val ∈ (resting.filter fun o =>
      o.side = quote.side.opposite ∧ now < o.expiresAt).map (·.price.val) :=
    mem_map_of_mem (mem_filter.2 ⟨ho.1, decide_eq_true ⟨hs, ho.2⟩⟩)
  cases hq : quote.side with
  | bid =>
    simp only [hq, crosses, opposite, decide_eq_true_eq] at hc hp
    obtain ⟨best, hb⟩ := Option.isSome_iff_exists.1 (isSome_min?_of_mem hp)
    have hle := (min?_eq_some_iff.1 hb).2 _ hp
    simp only [crossesOwn, hq, bestAsk, hb, Option.any_some, decide_eq_false_iff_not] at h
    omega
  | ask =>
    simp only [hq, crosses, opposite, decide_eq_true_eq] at hc hp
    obtain ⟨best, hb⟩ := Option.isSome_iff_exists.1 (isSome_max?_of_mem hp)
    have hle := (max?_eq_some_iff.1 hb).2 _ hp
    simp only [crossesOwn, hq, bestBid, hb, Option.any_some, decide_eq_false_iff_not] at h
    omega

/-- Where the quotes of a batch come from: a rung of the ladder that crosses no live order, or the
price of a live order of the same side. -/
def Safe (resting : List RestingOrder) (targets : List Quote) (now : ℕ) (quote : Quote) : Prop :=
  (quote ∈ targets ∧ ∀ order, Live resting now order → ¬Locks quote order.side order.price) ∨
    ∃ order, Live resting now order ∧ order.side = quote.side ∧ order.price = quote.price

/-- The maker's live bids are all below its live asks. -/
def Uncrossed (resting : List RestingOrder) (now : ℕ) : Prop :=
  ∀ bid ask, Live resting now bid → Live resting now ask → bid.side = .bid → ask.side = .ask →
    bid.price.val < ask.price.val

theorem Uncrossed.not_locks (h : Uncrossed resting now) (hor : Live resting now order)
    (hs : order.side = quote.side) (hp : order.price = quote.price)
    (ho' : Live resting now order') : ¬Locks quote order'.side order'.price := by
  rintro ⟨ho, hc⟩
  rw [← hs] at ho hc
  rw [← hp] at hc
  cases hb : order.side with
  | bid =>
    have hlt := h order order' hor ho' hb (by rw [ho, hb]; rfl)
    simp only [hb, crosses, decide_eq_true_eq] at hc
    omega
  | ask =>
    have hlt := h order' order ho' hor (by rw [ho, hb]; rfl) hb
    simp only [hb, crosses, decide_eq_true_eq] at hc
    omega

theorem Safe.not_locks_order (hb : Uncrossed resting now)
    (h : Safe resting targets now quote) (ho : Live resting now order) :
    ¬Locks quote order.side order.price := by
  rcases h with ⟨-, hc⟩ | ⟨own, hown, hs, hp⟩
  · exact hc order ho
  · exact hb.not_locks hown hs hp ho

theorem Safe.not_locks (hb : Uncrossed resting now)
    (hse : ∀ bid ∈ targets, ∀ ask ∈ targets, bid.side = .bid → ask.side = .ask →
      bid.price.val < ask.price.val)
    (h : Safe resting targets now quote) (h' : Safe resting targets now quote') :
    ¬Locks quote quote'.side quote'.price := by
  rcases h' with ⟨ht', hc'⟩ | ⟨own, ho, hs, hp⟩
  · rcases h with ⟨ht, -⟩ | ⟨own, ho, hs, hp⟩
    · rintro ⟨hop, hc⟩
      cases hq : quote.side with
      | bid =>
        have hlt := hse _ ht _ ht' hq (by rw [hop, hq]; rfl)
        simp only [hq, crosses, decide_eq_true_eq] at hc
        omega
      | ask =>
        have hlt := hse _ ht' _ ht (by rw [hop, hq]; rfl) hq
        simp only [hq, crosses, decide_eq_true_eq] at hc
        omega
    · intro hl
      refine hc' own ho ?_
      rw [hs, hp]
      exact hl.symm
  · rw [← hs, ← hp]
    exact h.not_locks_order hb ho

/-! ## What is in a batch -/

def QuoteAction.quote? : QuoteAction → Option Quote
  | .place quote | .replace _ quote => some quote
  | .cancel _ => none

def QuoteAction.key? : QuoteAction → Option ℕ
  | .place _ => none
  | .replace key _ | .cancel key => some key

/-- A replaced order has the rank of the quote's rung. A cancelled one is expired or deeper than
the ladder. -/
def Planned (resting : List RestingOrder) (now : ℕ) : QuoteAction → Prop
  | .place _ => True
  | .replace key quote =>
    ∃ order, (liveOrders resting quote.side now)[quote.rung]? = some order ∧ order.key = key
  | .cancel key => ∃ order ∈ resting, order.key = key ∧ (order.expiresAt ≤ now ∨
      ∃ rank ≥ 20, (liveOrders resting order.side now)[rank]? = some order)

structure Sound (resting : List RestingOrder) (targets : List Quote) (now : ℕ)
    (action : QuoteAction) : Prop where
  safe : ∀ quote, action.quote? = some quote → Safe resting targets now quote
  planned : Planned resting now action

theorem rankAction_eq_some {live : List RestingOrder} {rank : ℕ}
    (h : rankAction index.val now live quote rank = some action) :
    action.quote? = some quote ∧
      (action = .place quote ∨
        ∃ order, live[rank]? = some order ∧ action = .replace order.key quote) := by
  unfold rankAction at h
  split at h
  · obtain rfl := Option.some.inj h
    exact ⟨rfl, .inl rfl⟩
  · rename_i order ho
    dsimp only at h
    split at h
    · obtain rfl := Option.some.inj h
      exact ⟨rfl, .inr ⟨order, ho, rfl⟩⟩
    · cases h

theorem mem_planSide (h : action ∈ planSide resting targets index.val now side) :
    (∃ rank quote, (wantedQuotes targets side)[rank]? = some quote ∧
      rankAction index.val now (liveOrders resting side now) quote rank = some action) ∨
    ∃ rank ≥ (wantedQuotes targets side).length, ∃ order,
      (liveOrders resting side now)[rank]? = some order ∧ action = .cancel order.key := by
  rcases mem_append.1 h with h | h
  · obtain ⟨⟨quote, rank⟩, hmem, ha⟩ := mem_filterMap.1 h
    exact .inl ⟨rank, quote, mem_zipIdx_iff_getElem?.1 hmem, ha⟩
  · obtain ⟨order, ho, rfl⟩ := mem_map.1 h
    obtain ⟨i, hi⟩ := mem_iff_getElem?.1 ho
    rw [getElem?_drop] at hi
    exact .inr ⟨_, Nat.le_add_right _ i, order, hi, rfl⟩

theorem mem_of_wantedQuotes {rank : ℕ} (h : (wantedQuotes targets side)[rank]? = some quote) :
    quote ∈ targets := (mem_filter.1 ((mem_insertionSort _).1 (mem_of_getElem? h))).1

theorem mem_planQuotes (h : action ∈ planQuotes resting targets index.val now) :
    ((∃ side, action ∈ planSide resting targets index.val now side) ∨
      ∃ order ∈ resting, order.expiresAt ≤ now ∧ action = .cancel order.key) ∧
    ∀ quote, action.quote? = some quote → crossesOwn resting now quote = false := by
  obtain ⟨hmem, hh⟩ := mem_filter.1 h
  constructor
  · rcases mem_append.1 hmem with hmem | hmem
    · obtain ⟨side, -, hs⟩ := mem_flatMap.1 hmem
      exact .inl ⟨side, hs⟩
    · obtain ⟨order, ho, rfl⟩ := mem_map.1 hmem
      obtain ⟨ho, he⟩ := mem_filter.1 ho
      exact .inr ⟨order, ho, of_decide_eq_true he, rfl⟩
  · intro quote hq
    cases action with
    | place q =>
      obtain rfl := Option.some.inj hq
      simpa using hh
    | replace key q =>
      obtain rfl := Option.some.inj hq
      simpa using hh
    | cancel key => cases hq

theorem sound_cancel {key : ℕ} (h : Planned resting now (.cancel key)) :
    Sound resting targets now (.cancel key) := by
  refine ⟨fun quote hq => ?_, h⟩
  simp [QuoteAction.quote?] at hq

theorem sound_of_mem_planQuotes (hi : 0 ≤ index.val) (hf : Fits index.val inventory)
    (h : action ∈ planQuotes resting (ladder index inventory sizes) index.val now) :
    Sound resting (ladder index inventory sizes) now action := by
  obtain ⟨⟨side, hs⟩ | ⟨order, ho, he, rfl⟩, hcl⟩ := mem_planQuotes h
  · rcases mem_planSide hs with
      ⟨rank, quote, hw, ha⟩ | ⟨rank, hr, order, ho, rfl⟩
    · obtain ⟨hqu, hc⟩ := rankAction_eq_some ha
      refine ⟨fun q hq => ?_, ?_⟩
      · obtain rfl : quote = q := Option.some.inj (hqu.symm.trans hq)
        exact .inl ⟨mem_of_wantedQuotes hw, fun order ho =>
          not_locks_of_crossesOwn_eq_false (hcl _ hq) ho⟩
      · obtain ⟨hqs, hru⟩ := rung_of_wantedQuotes hi hf hw
        rcases hc with rfl | ⟨order, ho, rfl⟩
        · trivial
        · exact ⟨order, by rw [hqs, hru, ho], rfl⟩
    · rw [length_wantedQuotes_ladder hi hf] at hr
      obtain ⟨hl, hos⟩ := live_of_getElem? ho
      refine sound_cancel ⟨order, hl.1, rfl, .inr ⟨rank, hr, ?_⟩⟩
      rw [hos, ho]
  · exact sound_cancel ⟨order, ho, rfl, .inl he⟩

theorem jitterOnce_cases (draw : Draw) :
    jitterOnce resting targets now draw actions = actions ∨
      ∃ quote order, (liveOrders resting quote.side now)[quote.rung]? = some order ∧
        quote.rung < targets.length / 2 ∧ quote.price = order.price ∧
        touched actions quote.side quote.rung = false ∧
        jitterOnce resting targets now draw actions = actions ++ [.replace order.key quote] := by
  unfold jitterOnce
  dsimp only
  split
  · exact .inl rfl
  · rename_i hs
    split
    · exact .inl rfl
    · rename_i quote hfi
      split
      · exact .inl rfl
      · rename_i ht
        split
        · exact .inl rfl
        · rename_i order ho
          have hf := find?_some hfi
          simp only [Bool.and_eq_true, decide_eq_true_eq] at hf
          refine .inr ⟨_, order, ?_, ?_, rfl, ?_, rfl⟩
          · rw [hf.1, hf.2]
            exact ho
          · refine hf.2 ▸ (Nat.mod_lt _ (Nat.pos_of_ne_zero hs)).trans_le ?_
            exact Nat.min_le_right _ _
          · rw [hf.1, hf.2]
            exact Bool.eq_false_iff.2 ht

theorem jitter_induction {P : List QuoteAction → Prop} {maxActions : ℕ}
    (hs : ∀ draw actions, actions.length < maxActions → P actions →
      P (jitterOnce resting targets now draw actions)) (draws : List Draw) (h : P actions) :
    P (jitter resting targets now maxActions draws actions) := by
  induction draws generalizing actions with
  | nil => exact h
  | cons draw draws ih =>
    unfold jitter
    split
    · exact h
    · rename_i hr
      exact ih (hs draw actions (not_le.1 hr) h)

/-! ## Keys -/

theorem keys_rankActions (index : I64) (now : ℕ) (live : List RestingOrder) (wanted : List Quote)
    (start : ℕ) :
    (((wanted.zipIdx start).filterMap fun x => rankAction index.val now live x.1 x.2).filterMap
      QuoteAction.key?).Sublist (((live.drop start).take wanted.length).map (·.key)) := by
  induction wanted generalizing start with
  | nil => simp
  | cons quote wanted ih =>
    -- A rank that touches no order skips the one it is paired with, if there is one.
    have hs : ((live.drop (start + 1)).take wanted.length).Sublist
        ((live.drop start).take (quote :: wanted).length) := by
      rw [length_cons, ← tail_drop]
      cases live.drop start with
      | nil => simp
      | cons order rest => exact sublist_cons_self _ _
    rw [zipIdx_cons, filterMap_cons]
    cases ha : rankAction index.val now live quote start with
    | none => exact (ih (start + 1)).trans (hs.map _)
    | some action =>
      rcases (rankAction_eq_some ha).2 with rfl | ⟨order, ho, rfl⟩
      · exact (ih (start + 1)).trans (hs.map _)
      · obtain ⟨hlt, hg⟩ := List.getElem?_eq_some_iff.1 ho
        rw [List.drop_eq_getElem_cons hlt, hg]
        exact (ih (start + 1)).cons_cons order.key

theorem keys_planSide : ((planSide resting targets index.val now side).filterMap
    QuoteAction.key?).Sublist ((liveOrders resting side now).map (·.key)) := by
  rw [planSide, filterMap_append]
  have hr := keys_rankActions index now (liveOrders resting side now) (wantedQuotes targets side) 0
  have hd : ((liveOrders resting side now).drop (wantedQuotes targets side).length).map
      (fun order => QuoteAction.cancel order.key) |>.filterMap QuoteAction.key? |>.Sublist
        (((liveOrders resting side now).drop (wantedQuotes targets side).length).map (·.key)) := by
    rw [filterMap_map, ← filterMap_eq_map]
    exact Sublist.refl _
  have ht := hr.append hd
  rwa [← map_append, drop_zero, take_append_drop] at ht

theorem perm_sides : (liveOrders resting .bid now ++ (liveOrders resting .ask now ++
    resting.filter fun o => o.expiresAt ≤ now)).Perm resting := by
  refine ((perm_liveOrders.append (perm_liveOrders.append_right _))).trans ?_
  induction resting with
  | nil => simp
  | cons order rest ih =>
    refine Perm.trans ?_ (ih.cons order)
    simp only [filter_cons]
    by_cases hl : now < order.expiresAt
    · have he : ¬order.expiresAt ≤ now := not_le.2 hl
      cases hs : order.side with
      | bid => simp [hl, he]
      | ask => simp [hl, he]
    · simp only [hl, not_lt.1 hl, and_false, decide_false, decide_true, if_true,
        Bool.false_eq_true, if_false]
      exact (perm_middle.append_left _).trans perm_middle

theorem keys_planQuotes (hkeys : (resting.map (·.key)).Nodup) :
    ((planQuotes resting targets index.val now).filterMap QuoteAction.key?).Nodup := by
  have ha : (([bid, .ask].flatMap (planSide resting targets index.val now) ++
      (resting.filter fun o => o.expiresAt ≤ now).map fun o => QuoteAction.cancel o.key).filterMap
        QuoteAction.key?).Sublist
      ((liveOrders resting .bid now ++ (liveOrders resting .ask now ++
        resting.filter fun o => o.expiresAt ≤ now)).map (·.key)) := by
    simp only [flatMap_cons, flatMap_nil, append_nil, filterMap_append,
      map_append, append_assoc, filterMap_map]
    refine keys_planSide.append (keys_planSide.append ?_)
    rw [← filterMap_eq_map]
    exact Sublist.refl _
  exact ((filter_sublist.filterMap _).trans ha).nodup ((perm_sides.map _).nodup_iff.2 hkeys)

/-- A jittered order was not touched before. -/
theorem key_not_mem (hkeys : (resting.map (·.key)).Nodup) {quote : Quote}
    (hso : ∀ action ∈ actions, Sound resting targets now action)
    (hor : (liveOrders resting quote.side now)[quote.rung]? = some order)
    (hru : quote.rung < 20) (ht : touched actions quote.side quote.rung = false) :
    order.key ∉ actions.filterMap QuoteAction.key? := by
  intro hmem
  obtain ⟨action, ha, hk⟩ := mem_filterMap.1 hmem
  obtain ⟨hl, hsi⟩ := live_of_getElem? hor
  have hp := (hso action ha).planned
  cases action with
  | place _ => cases hk
  | replace key other =>
    obtain rfl := Option.some.inj hk
    obtain ⟨own, ho, how⟩ := hp
    obtain ⟨hownl, howns⟩ := live_of_getElem? ho
    obtain rfl := eq_of_key_eq hkeys hownl.1 hl.1 how
    have hs : other.side = quote.side := howns.symm.trans hsi
    rw [hs] at ho
    have hr := rank_unique hkeys ho hor
    refine Bool.eq_false_iff.1 ht (any_eq_true.2 ⟨_, ha, ?_⟩)
    simp [hs, hr]
  | cancel key =>
    obtain rfl := Option.some.inj hk
    obtain ⟨own, ho, how, he | ⟨rank, hr, hg⟩⟩ := hp
    · obtain rfl := eq_of_key_eq hkeys ho hl.1 how
      exact absurd hl.2 (not_lt.2 he)
    · obtain rfl := eq_of_key_eq hkeys ho hl.1 how
      rw [hsi] at hg
      have hs := rank_unique hkeys hg hor
      omega

/-! ## The batch -/

/-- What the jitter keeps of a batch. -/
structure Fair (resting : List RestingOrder) (targets : List Quote) (now : ℕ)
    (actions : List QuoteAction) : Prop where
  length_le : actions.length ≤ maxActionsPerTick
  keys_nodup : (actions.filterMap QuoteAction.key?).Nodup
  sound : ∀ action ∈ actions, Sound resting targets now action

theorem Fair.jitterOnce (hkeys : (resting.map (·.key)).Nodup) (ht : targets.length = 40)
    (draw : Draw) (hro : actions.length < maxActionsPerTick)
    (h : Fair resting targets now actions) :
    Fair resting targets now (jitterOnce resting targets now draw actions) := by
  rcases jitterOnce_cases draw with heq | ⟨quote, order, ho, hr, hp, hto, heq⟩
  · rw [heq]
    exact h
  · rw [ht] at hr
    rw [heq]
    refine ⟨by simpa using hro, ?_, fun action ha => ?_⟩
    · rw [filterMap_append]
      refine h.keys_nodup.append (nodup_singleton order.key) ?_
      exact disjoint_singleton.2 (key_not_mem hkeys h.sound ho hr hto)
    · rcases mem_append.1 ha with ha | ha
      · exact h.sound action ha
      · obtain rfl := mem_singleton.1 ha
        obtain ⟨hl, hs⟩ := live_of_getElem? ho
        refine ⟨fun q hq => ?_, order, ho, rfl⟩
        obtain rfl : quote = q := Option.some.inj hq
        exact .inr ⟨order, hl, hs, hp.symm⟩

theorem fair_batch (hi : 0 ≤ index.val) (hf : Fits index.val inventory)
    (hkeys : (resting.map (·.key)).Nodup) (now : ℕ) (sizes : ℕ → Fin 4)
    (draws : Fin jitterRungsPerTick → Draw) :
    Fair resting (ladder index inventory sizes) now
      (batch index inventory resting now sizes draws) := by
  refine jitter_induction (fun draw actions hr h => h.jitterOnce hkeys length_ladder draw hr)
    _ ?_
  refine ⟨length_take_le _ _, ?_, fun action ha => ?_⟩
  · exact ((take_sublist _ _).filterMap _).nodup (keys_planQuotes hkeys)
  · exact sound_of_mem_planQuotes hi hf (mem_of_mem_take ha)

/-! ## Landing in any order -/

/-- The maker's orders while a batch lands: those of before it that still rest, and the quotes
that it has placed. -/
structure Standing where
  kept : List RestingOrder
  placed : List Quote

/-- An action lands. A replacement moves an order that still rests, and fails otherwise. -/
def Standing.land (s : Standing) : QuoteAction → Standing
  | .place quote => { s with placed := quote :: s.placed }
  | .replace key quote =>
    if s.kept.any fun o => o.key = key then
      { kept := s.kept.filter fun o => o.key ≠ key, placed := quote :: s.placed }
    else s
  | .cancel key => { s with kept := s.kept.filter fun o => o.key ≠ key }

/-- A quote neither crosses nor locks a live order or a quote that stands. -/
def Standing.Clear (s : Standing) (now : ℕ) (quote : Quote) : Prop :=
  (∀ order ∈ s.kept, now < order.expiresAt → ¬Locks quote order.side order.price) ∧
    ∀ other ∈ s.placed, ¬Locks quote other.side other.price

/-- What stands comes from before the batch or from its quotes. -/
structure Standing.From (resting : List RestingOrder) (actions : List QuoteAction) (s : Standing) :
    Prop where
  kept : ∀ order ∈ s.kept, order ∈ resting
  placed : ∀ quote ∈ s.placed, ∃ action ∈ actions, action.quote? = some quote

theorem Standing.From.land {s : Standing} (h : s.From resting actions)
    (ha : action ∈ actions) : (s.land action).From resting actions := by
  have hc (quote : Quote) (hqu : action.quote? = some quote) :
      ∀ q ∈ quote :: s.placed, ∃ a ∈ actions, a.quote? = some q := by
    rintro q (_ | ⟨_, hq⟩)
    · exact ⟨action, ha, hqu⟩
    · exact h.placed q hq
  have hf (key : ℕ) : ∀ order ∈ s.kept.filter (fun o => o.key ≠ key), order ∈ resting :=
    fun order ho => h.kept order (mem_filter.1 ho).1
  cases action with
  | place quote => exact ⟨h.kept, hc quote rfl⟩
  | replace key quote =>
    simp only [Standing.land]
    split
    · exact ⟨hf key, hc quote rfl⟩
    · exact h
  | cancel key => exact ⟨hf key, h.placed⟩

theorem Standing.From.run {s : Standing} {landed : List QuoteAction} (h : s.From resting actions)
    (hl : ∀ action ∈ landed, action ∈ actions) :
    (landed.foldl Standing.land s).From resting actions := by
  induction landed generalizing s with
  | nil => exact h
  | cons action landed ih =>
    exact ih (h.land (hl action mem_cons_self)) fun a ha =>
      hl a (mem_cons_of_mem action ha)

/-- A batch has at most twelve actions and touches every resting order at most once. Whatever part
of it lands, in whatever order, no quote crosses or locks one of the maker's live orders or quotes
that stand when it lands. -/
theorem batch_never_self_crosses (hindex : 10000 ≤ index.val) (hfits : Fits index.val inventory)
    (hkeys : (resting.map (·.key)).Nodup) (hbook : Uncrossed resting now) (sizes : ℕ → Fin 4)
    (draws : Fin jitterRungsPerTick → Draw) :
    (batch index inventory resting now sizes draws).length ≤ maxActionsPerTick ∧
      ((batch index inventory resting now sizes draws).filterMap QuoteAction.key?).Nodup ∧
      ∀ landed action rest, (landed ++ action :: rest).Subperm
          (batch index inventory resting now sizes draws) →
        ∀ quote, action.quote? = some quote →
          (landed.foldl Standing.land ⟨resting, []⟩).Clear now quote := by
  have hf := fair_batch (by omega) hfits hkeys now sizes draws
  refine ⟨hf.length_le, hf.keys_nodup, fun landed action rest hsub quote hq => ?_⟩
  have hs := (hf.sound action (hsub.subset (by simp))).safe quote hq
  have hst : Standing.From resting (batch index inventory resting now sizes draws)
      ⟨resting, []⟩ := ⟨fun _ h => h, by simp⟩
  have hfr : (landed.foldl Standing.land ⟨resting, []⟩).From resting _ :=
    hst.run fun a ha => hsub.subset (mem_append_left _ ha)
  refine ⟨fun order ho hl => hs.not_locks_order hbook ⟨hfr.kept order ho, hl⟩, fun other hot => ?_⟩
  obtain ⟨action', ha', hq'⟩ := hfr.placed other hot
  exact hs.not_locks hbook (fun bid hb ask hask => ladder_separated hindex hfits hb hask)
    ((hf.sound action' ha').safe other hq')

/-- The first orders of a ladder around 38000000, one bid about to expire, and an old ask. -/
def quoted : List RestingOrder :=
  [⟨1, .bid, 37996200, 2, 105⟩, ⟨2, .ask, 38003800, 2, 160⟩,
    ⟨3, .ask, 1, 1, 99⟩]

theorem batch_never_self_crosses_of_quoted :
    ((batch 38000000 0 quoted 100 (fun _ => 0)
        (fun _ => ⟨false, 0, 3⟩)).filterMap QuoteAction.key?).Nodup ∧
      ∀ landed action rest, (landed ++ action :: rest).Subperm
          (batch 38000000 0 quoted 100 (fun _ => 0) (fun _ => ⟨false, 0, 3⟩)) →
        ∀ quote, action.quote? = some quote →
          (landed.foldl Standing.land ⟨quoted, []⟩).Clear 100 quote := by
  have hp : ∀ bid ∈ quoted, ∀ ask ∈ quoted, 100 < ask.expiresAt → bid.side = .bid →
      ask.side = .ask → bid.price.val < ask.price.val := by decide
  exact (batch_never_self_crosses (by decide) (by decide) (by decide)
    (fun bid ask hb ha => hp bid hb.1 ask ha.1 ha.2) _ _).2

/-- Twenty asks: ten at prices from 1 to 10 and ten on the first rungs around an index close to the
largest price. -/
def highQuoted : List RestingOrder :=
  (range 20).map fun i => ⟨i + 1, .ask, I64.wrap (if i < 10 then i + 1
    else rawPrice 9200000000000000000 0 (ladderBps.getD (i - 10) 0) .ask), 1, 1000⟩

/-- Around that index the prices of the deep asks wrap and come first. The jitter then takes the
order of the first rung, which the batch already moves to another one. -/
theorem batch_touches_key_twice :
    (highQuoted.map (·.key)).Nodup ∧ Uncrossed highQuoted 100 ∧
      ¬((batch 9200000000000000000 0 highQuoted 100 (fun _ => 0)
        (fun _ => ⟨false, 0, 0⟩)).filterMap QuoteAction.key?).Nodup := by
  have ha : ∀ order ∈ highQuoted, order.side ≠ .bid := by decide +kernel
  exact ⟨by decide +kernel, fun bid _ hl _ hs _ => absurd hs (ha bid hl.1), by decide +kernel⟩

end Requote

end Equinox
