import Equinox.Book.Slots
import Equinox.Market.EventBytes

/-! # The worker's view of a market

A worker off the chain fetches the accounts of a market as bytes, decodes each
of them on its own, labels the book's leaves by a walk over the handles, and
aggregates the whole. The decoders are translated from the worker's own code;
what the program stores at their offsets is stated beside them.
-/

namespace Equinox

open Foundation CritBit CoreBytes

/-- The text `STKBK003`. -/
def v3BookPageDiscriminator : Bytes := [83, 84, 75, 66, 75, 48, 48, 51]

/-- The text `STKST003`. -/
def v3SeatShardDiscriminator : Bytes := [83, 84, 75, 83, 84, 48, 48, 51]

def v3NodeSize : ℕ := 88
def v3BookPageHeaderSize : ℕ := 64
def v3BookPageSize : ℕ := v3BookPageHeaderSize + bookNodesPerPage * v3NodeSize
def v3SeatSize : ℕ := 256
def v3SeatShardSize : ℕ := v3ShardHeaderSize + v3SeatsPerShard * v3SeatSize

namespace MarketView

/-! ## Reading bytes -/

def signed (bytes : Bytes) (offset width : ℕ) : ℤ := (bytes.slice offset width).toInt

/-- The worker writes addresses in base 58; here they are their bytes. -/
def address (bytes : Bytes) (offset : ℕ) : Bytes := bytes.slice offset 32

def validVersion (bytes discriminator : Bytes) (size : ℕ) : Bool :=
  bytes.length = size && bytes.slice 0 8 = discriminator && coreUnsigned bytes 8 2 = v3LayoutVersion

structure V3CoreState where
  instrument : Bytes
  marketAuthority : Bytes
  mode : ℕ
  oracleValid : Bool
  lastVerifiedOraclePrice : ℤ
  lastVerifiedOracleTimestamp : ℕ
  oracleFeedId : ℕ
  oracleChannel : ℕ
  oracleExponent : ℤ
  delegationStatus : ℕ
  expectedCommitSequence : ℕ
  lastCommittedSequence : ℕ
  validator : Bytes

def decodeV3Core (bytes : Bytes) : Option V3CoreState :=
  if validVersion bytes v3MarketCoreDiscriminator v3MarketCoreSize = true ∧
      coreUnsigned bytes 10 1 = 1 ∧ coreUnsigned bytes 371 1 = 2 then
    some
      { mode := coreUnsigned bytes 11 1
        instrument := address bytes 12
        marketAuthority := address bytes 44
        oracleValid := coreUnsigned bytes 180 1 = 1
        lastVerifiedOraclePrice := signed bytes 181 8
        lastVerifiedOracleTimestamp := coreUnsigned bytes 189 8
        oracleFeedId := coreUnsigned bytes 246 4
        oracleChannel := coreUnsigned bytes 250 1
        oracleExponent := signed bytes 251 4
        delegationStatus := coreUnsigned bytes 197 1
        expectedCommitSequence := coreUnsigned bytes 198 8
        lastCommittedSequence := coreUnsigned bytes 206 8
        validator := address bytes 214 }
  else none

/-! ## Book pages -/

/-- A node as decoded. An inner node has none of a leaf's fields, and the tree is filled in
later. -/
structure V3BookNodeState where
  handle : ℕ
  tag : ℕ
  key : ℕ
  side : Option ℕ := none
  owner : Option ℕ := none
  quantity : Option ℕ := none
  expiresAt : Option ℕ := none
  pegLimit : Option ℤ := none
  clientOrderId : Option ℕ := none
  priceOrOffset : Option ℤ := none
  sequence : Option ℕ := none
  timeInForce : Option ℕ := none
  postOnly : Option Bool := none
  reduceOnly : Option Bool := none
  tree : Option TreeKind := none
  deriving DecidableEq

structure V3BookPageState where
  side : ℕ
  page : ℕ
  core : Bytes
  fixedRoot : ℕ
  peggedRoot : ℕ
  freeHead : ℕ
  freeCount : ℕ
  nodeCount : ℕ
  nodeBytes : Bytes
  nodes : List V3BookNodeState

def nodeKey (bytes : Bytes) : ℕ := coreUnsigned bytes 16 8 <<< 64 ||| coreUnsigned bytes 8 8

def decodeBookNode (bytes : Bytes) (handle : ℕ) : Option V3BookNodeState :=
  if bytes.length ≠ v3NodeSize then none
  else
    let tag := coreUnsigned bytes 0 1
    if tag ≠ 1 ∧ tag ≠ 2 then none
    else
      let base : V3BookNodeState := { handle, tag, key := nodeKey bytes }
      if tag = 1 then some base
      else some
        { base with
          side := some (coreUnsigned bytes 1 1)
          owner := some (coreUnsigned bytes 4 4)
          quantity := some (coreUnsigned bytes 24 8)
          expiresAt := some (coreUnsigned bytes 32 8)
          pegLimit := some (signed bytes 40 8)
          clientOrderId := some (coreUnsigned bytes 48 8)
          priceOrOffset := some (signed bytes 56 8)
          sequence := some (coreUnsigned bytes 64 8)
          timeInForce := some (coreUnsigned bytes 2 1)
          postOnly := some (coreUnsigned bytes 72 1 &&& 1 ≠ 0)
          reduceOnly := some (coreUnsigned bytes 72 1 &&& 2 ≠ 0) }

def slotRecord (nodeBytes : Bytes) (slot : ℕ) : Bytes :=
  nodeBytes.slice (slot * v3NodeSize) v3NodeSize

/-- What a page decodes as, once it passes the checks. -/
def pageState (bytes : Bytes) : V3BookPageState :=
  let page := coreUnsigned bytes 11 1
  let nodeBytes : Bytes := bytes.drop v3BookPageHeaderSize
  { side := coreUnsigned bytes 10 1, page, core := address bytes 12
    fixedRoot := coreUnsigned bytes 44 4
    peggedRoot := coreUnsigned bytes 48 4
    freeHead := coreUnsigned bytes 52 4
    freeCount := coreUnsigned bytes 56 4
    nodeCount := coreUnsigned bytes 60 4
    nodeBytes
    nodes := (List.range bookNodesPerPage).filterMap fun slot =>
      decodeBookNode (slotRecord nodeBytes slot) (page * bookNodesPerPage + slot) }

def decodeV3BookPage (bytes : Bytes) : Option V3BookPageState :=
  if validVersion bytes v3BookPageDiscriminator v3BookPageSize = false ∨
      1 < coreUnsigned bytes 10 1 ∨ bookPagesPerSide ≤ coreUnsigned bytes 11 1 then none
  else
    let nodeCount := coreUnsigned bytes 60 4
    let freeCount := coreUnsigned bytes 56 4
    let limit := if coreUnsigned bytes 11 1 = 0 then bookSlotsPerSide else bookNodesPerPage
    if limit < nodeCount ∨ limit < freeCount then none
    else some (pageState bytes)

/-! ## Labels -/

/-- The node that a map from handles to the nodes of these pages has: of several, the last. -/
def byHandle (pages : List V3BookPageState) (handle : ℕ) : Option V3BookNodeState :=
  (pages.flatMap (·.nodes)).reverse.find? (·.handle = handle)

/-- How far a walk has come: the trees of the nodes labelled so far, and the handles met. -/
structure Walk where
  label : ℕ → Option TreeKind
  seen : List ℕ

/-- Label everything below a handle. The result is none if the walk finds the links invalid.
Every call but the last on the stack has met a handle of its own, which bounds the depth. -/
def walk (pages : List V3BookPageState) (tree : TreeKind) :
    (fuel handle : ℕ) → Walk → Option Walk
  | 0, _, _ => none
  | fuel + 1, handle, state =>
    if handle = NONE then some state
    else if handle ∈ state.seen then none
    else do
      let node ← byHandle pages handle
      if (state.label handle).any (· ≠ tree) then none
      else
        let state : Walk :=
          { label := Function.update state.label handle (some tree), seen := handle :: state.seen }
        if node.tag ≠ 1 then some state
        else do
          let source ← pages.find? (·.page = handle / bookNodesPerPage)
          let raw := slotRecord source.nodeBytes (handle % bookNodesPerPage)
          if raw.length ≠ v3NodeSize then none
          else do
            let state ← walk pages tree fuel (coreUnsigned raw 24 4) state
            walk pages tree fuel (coreUnsigned raw 28 4) state

/-- Label one tree of a side, beside the labels that there are. -/
def annotateTree (pages : List V3BookPageState) (tree : TreeKind) (root : ℕ)
    (label : ℕ → Option TreeKind) : Option (ℕ → Option TreeKind) :=
  if root ≠ NONE ∧ (byHandle pages root).isNone then none
  else (walk pages tree (bookRecordsPerSide + 2) root ⟨label, []⟩).map Walk.label

def annotateSide (pages : List V3BookPageState) : Option (ℕ → Option TreeKind) :=
  let first := pages.find? (·.page = 0)
  let fixedRoot := first.elim NONE (·.fixedRoot)
  let peggedRoot := first.elim NONE (·.peggedRoot)
  if fixedRoot ≠ NONE ∧ fixedRoot = peggedRoot then none
  else do
    let label ← annotateTree pages .fixed fixedRoot fun _ => none
    annotateTree pages .oraclePegged peggedRoot label

def V3BookPageState.labelled (page : V3BookPageState) (label : ℕ → Option TreeKind) :
    V3BookPageState :=
  { page with nodes := page.nodes.map fun node => { node with tree := label node.handle } }

/-- The pages with their nodes labelled, where the worker labels them in place. -/
def annotateBookTrees (pages : List V3BookPageState) : Option (List V3BookPageState) := do
  let bids ← annotateSide (pages.filter (·.side = 0))
  let asks ← annotateSide (pages.filter (·.side = 1))
  pure (pages.map fun page => page.labelled (if page.side = 0 then bids else asks))

/-! ## Seats and events -/

structure V3SeatPositionState where
  shard : ℕ
  slot : ℕ
  trader : Bytes
  availableCollateral : ℤ
  reservedMargin : ℤ
  basePosition : ℤ
  quoteEntryValue : ℤ
  realizedPnl : ℤ
  lastFundingAccumulator : ℤ
  openBidExposure : ℤ
  openAskExposure : ℤ
  openOrderCount : ℕ
  liquidationState : ℕ
  sequence : ℕ

def decodeSeat (bytes : Bytes) (shard slot : ℕ) : Option V3SeatPositionState :=
  if bytes.length ≠ v3SeatSize ∨ coreUnsigned bytes 0 1 = 0 then none
  else some
    { shard, slot, trader := address bytes 1
      availableCollateral := signed bytes 40 16
      reservedMargin := signed bytes 56 16
      basePosition := signed bytes 72 16
      quoteEntryValue := signed bytes 88 16
      realizedPnl := signed bytes 104 16
      lastFundingAccumulator := signed bytes 120 16
      openBidExposure := signed bytes 136 16
      openAskExposure := signed bytes 152 16
      openOrderCount := coreUnsigned bytes 168 4
      liquidationState := coreUnsigned bytes 172 1
      sequence := coreUnsigned bytes 176 8 }

structure V3SeatShardState where
  shard : ℕ
  core : Bytes
  seats : Bytes
  positions : List V3SeatPositionState

def seatShardState (bytes : Bytes) : V3SeatShardState :=
  let shard := coreUnsigned bytes 10 1
  let seats : Bytes := bytes.drop v3ShardHeaderSize
  { shard, core := address bytes 12, seats
    positions := (List.range v3SeatsPerShard).filterMap fun slot =>
      decodeSeat (seats.slice (slot * v3SeatSize) v3SeatSize) shard slot }

/-- The checks that a seat shard and an event shard have in common. -/
def validShard (bytes discriminator : Bytes) (size : ℕ) : Bool :=
  validVersion bytes discriminator size && coreUnsigned bytes 10 1 < 4 &&
    coreUnsigned bytes 11 1 = 0

def decodeV3SeatShard (bytes : Bytes) : Option V3SeatShardState :=
  if validShard bytes v3SeatShardDiscriminator v3SeatShardSize = true then
    some (seatShardState bytes)
  else none

structure V3EventRecord where
  kind : ℕ
  sequence : ℕ
  timestamp : ℕ
  payload : Bytes

def decodeV3EventRecord (bytes : Bytes) : Option V3EventRecord :=
  if bytes.length ≠ v3EventRecordSize ∨ coreUnsigned bytes 0 2 = 0 then none
  else some
    { kind := coreUnsigned bytes 0 2
      sequence := coreUnsigned bytes 4 8
      timestamp := coreUnsigned bytes 44 8
      payload := bytes.drop 52 }

structure V3EventShardState where
  shard : ℕ
  core : Bytes
  events : Bytes
  records : List (Option V3EventRecord)

def eventShardState (bytes : Bytes) : V3EventShardState :=
  let events : Bytes := bytes.drop v3ShardHeaderSize
  { shard := coreUnsigned bytes 10 1, core := address bytes 12, events
    records := (List.range v3EventsPerShard).map fun slot =>
      decodeV3EventRecord (events.slice (slot * v3EventRecordSize) v3EventRecordSize) }

def decodeV3EventShard (bytes : Bytes) : Option V3EventShardState :=
  if validShard bytes v3EventShardDiscriminator v3EventShardSize = true then
    some (eventShardState bytes)
  else none

/-! ## The mark -/

inductive V3MarkSource where
  | index | bookMid | bookOneSided
  deriving DecidableEq, Repr

structure V3MarkQuote where
  price : ℤ
  source : V3MarkSource
  deriving DecidableEq, Repr

def defaultMaxMarkDeviationBps : ℤ := 500

def maxSafeInteger : ℤ := 2 ^ 53 - 1

/-- The price at which a node can be executed on the asked side, if it can be. -/
def executablePrice (core : V3CoreState) (now : ℕ) (bid : Bool) (node : V3BookNodeState) :
    Option ℤ := do
  guard (node.tag = 2)
  let side ← node.side
  let quantity ← node.quantity
  let expiresAt ← node.expiresAt
  let priceOrOffset ← node.priceOrOffset
  let tree ← node.tree
  guard (decide (side = 0) = bid ∧ quantity ≠ 0 ∧ now < expiresAt)
  let price ← (match tree with
    | .fixed => some priceOrOffset
    | .oraclePegged => do
      let pegLimit ← node.pegLimit
      guard (0 < pegLimit)
      let evaluated := core.lastVerifiedOraclePrice + priceOrOffset
      guard (if bid then evaluated ≤ pegLimit else pegLimit ≤ evaluated)
      pure evaluated)
  guard (0 < price ∧ price ≤ maxSafeInteger)
  pure price

def better (bid : Bool) (best : Option ℤ) (price : ℤ) : Option ℤ :=
  match best with
  | none => some price
  | some best => some (if bid then max best price else min best price)

def bestSide (core : V3CoreState) (now : ℕ) (nodes : List V3BookNodeState) (bid : Bool) :
    Option ℤ :=
  (nodes.filterMap (executablePrice core now bid)).foldl (better bid) none

/-- A price drawn into the default band around the oracle's. -/
def clampMark (oracle value : ℤ) : ℤ :=
  let deviation := oracle * defaultMaxMarkDeviationBps / 10000
  min (max value (max 1 (oracle - deviation))) (oracle + deviation)

def executableV3Mark (core : V3CoreState) (bids asks : List V3BookNodeState) (now : ℕ) :
    Option V3MarkQuote :=
  if core.mode ≠ 1 ∧ core.mode ≠ 2 ∧ core.mode ≠ 3 then none
  else if core.oracleValid = false ∨ core.lastVerifiedOraclePrice ≤ 0 then none
  else
    let oracle := core.lastVerifiedOraclePrice
    match bestSide core now (bids ++ asks) true, bestSide core now (bids ++ asks) false with
    | none, none => some ⟨oracle, .index⟩
    | some bid, some ask =>
      if bid < ask then some ⟨clampMark oracle ((bid + ask) / 2), .bookMid⟩
      else some ⟨oracle, .index⟩
    | some bid, none => some ⟨clampMark oracle bid, .bookOneSided⟩
    | none, some ask => some ⟨clampMark oracle ask, .bookOneSided⟩

/-! ## The aggregate -/

structure OrderBook where
  bids : List V3BookNodeState
  asks : List V3BookNodeState

structure V3MarketAggregate where
  asOfSlot : Option ℕ
  core : V3CoreState
  bookPages : List V3BookPageState
  seatShards : List V3SeatShardState
  eventShards : List V3EventShardState
  completeBook : Bool
  completeExecutionState : Bool
  withdrawalReady : Bool
  orderBook : OrderBook
  positions : List V3SeatPositionState
  mark : Option V3MarkQuote

def sortByKey (nodes : List V3BookNodeState) : List V3BookNodeState :=
  nodes.mergeSort fun left right => left.key ≤ right.key

/-- The leaves of all pages, by the side they carry. -/
def orderBookOf (pages : List V3BookPageState) : OrderBook :=
  let leaves := (pages.flatMap (·.nodes)).filter (·.tag = 2)
  { bids := sortByKey (leaves.filter (·.side = some 0))
    asks := sortByKey (leaves.filter (·.side = some 1)) }

def V3BookPageState.index (page : V3BookPageState) : ℕ := page.side * bookPagesPerSide + page.page

def aggregateV3Market (now : ℕ) (coreBytes : Bytes) (bookBytes seatBytes eventBytes : List Bytes)
    (coreAddress : Bytes) (asOfSlot : Option ℕ) : Option V3MarketAggregate := do
  let core ← decodeV3Core coreBytes
  let bookPages ← bookBytes.mapM decodeV3BookPage
  let seatShards ← seatBytes.mapM decodeV3SeatShard
  let eventShards ← eventBytes.mapM decodeV3EventShard
  guard ((∀ page ∈ bookPages, page.core = coreAddress) ∧
    (∀ shard ∈ seatShards, shard.core = coreAddress) ∧
    (∀ shard ∈ eventShards, shard.core = coreAddress))
  let uniqueBook : Bool := (bookPages.map (·.index)).Nodup
  let uniqueSeats : Bool := (seatShards.map (·.shard)).Nodup
  let uniqueEvents : Bool := (eventShards.map (·.shard)).Nodup
  let completeBook : Bool := bookPages.length = 2 * bookPagesPerSide && uniqueBook
  let completeExecutionState : Bool := completeBook && seatShards.length = 4 &&
    eventShards.length = 4 && uniqueSeats && uniqueEvents
  guard (uniqueBook = true ∧ uniqueSeats = true ∧ uniqueEvents = true)
  let bookPages ← annotateBookTrees bookPages
  let orderBook := orderBookOf bookPages
  pure
    { asOfSlot, core, bookPages, seatShards, eventShards, completeBook, completeExecutionState
      withdrawalReady := completeExecutionState && core.delegationStatus = 3
      orderBook
      positions := seatShards.flatMap (·.positions)
      mark := executableV3Mark core orderBook.bids orderBook.asks now }

end MarketView

end Equinox
