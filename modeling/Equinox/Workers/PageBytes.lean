import Equinox.Foundation.Blocks
import Equinox.Foundation.Fields
import Equinox.Workers.MarketView

/-! # Book pages in bytes

Where the program keeps the fields of its book records, and what the worker's
decoder makes of them. Every book whose numbers fit their fields has such bytes.
-/

namespace Equinox

open Foundation CritBit CoreBytes List

/-! ## Pages in bytes -/

def Side.byte : Side → ℕ
  | .bid => 0
  | .ask => 1

namespace MarketView

/-- The fields of a leaf at the places where the program has them. -/
structure LeafBytes (record : Bytes) (leaf : LeafNode) : Prop where
  tag : coreUnsigned record 0 1 = 2
  side : coreUnsigned record 1 1 = leaf.side.byte
  owner : coreUnsigned record 4 4 = leaf.owner
  key : coreUnsigned record 8 16 = leaf.key.val
  quantity : coreUnsigned record 24 8 = leaf.quantity
  expiresAt : coreUnsigned record 32 8 = leaf.expiresAt
  pegLimit : signed record 40 8 = leaf.pegLimit
  clientOrderId : coreUnsigned record 48 8 = leaf.clientOrderId
  priceOrOffset : signed record 56 8 = leaf.priceOrOffset.val
  sequence : coreUnsigned record 64 8 = leaf.sequence.val
  flags : coreUnsigned record 72 1 = leaf.postOnly.toNat

structure InnerBytes (record : Bytes) (inner : InnerNode) : Prop where
  tag : coreUnsigned record 0 1 = 1
  prefixLen : coreUnsigned record 4 4 = inner.prefixLen
  key : coreUnsigned record 8 16 = inner.key.val
  left : coreUnsigned record 24 4 = inner.children false
  right : coreUnsigned record 28 4 = inner.children true
  leftExpiry : coreUnsigned record 32 8 = inner.childEarliestExpiry false
  rightExpiry : coreUnsigned record 40 8 = inner.childEarliestExpiry true

def NodeBytes (record : Bytes) : Node → Prop
  | .uninitialized => coreUnsigned record 0 1 = 0
  | .inner inner => InnerBytes record inner
  | .leaf leaf => LeafBytes record leaf
  | .free next => coreUnsigned record 0 1 = 3 ∧ coreUnsigned record 4 4 = next
  | .lastFree => coreUnsigned record 0 1 = 4

/-- The header that the accounts of a market other than its core begin with. -/
structure HeaderBytes (bytes discriminator : Bytes) (size first second : ℕ) (core : Bytes) :
    Prop where
  length : bytes.length = size
  discriminator : bytes.slice 0 8 = discriminator
  version : coreUnsigned bytes 8 2 = v3LayoutVersion
  first : coreUnsigned bytes 10 1 = first
  second : coreUnsigned bytes 11 1 = second
  core : bytes.slice 12 32 = core

structure PageBytes (bytes core : Bytes) (side : Side) (index : ℕ) (page : BookPage) : Prop where
  header : HeaderBytes bytes v3BookPageDiscriminator v3BookPageSize side.byte index core
  fixedRoot : coreUnsigned bytes 44 4 = page.fixedRoot
  peggedRoot : coreUnsigned bytes 48 4 = page.peggedRoot
  freeHead : coreUnsigned bytes 52 4 = page.freeHead
  freeCount : coreUnsigned bytes 56 4 = page.freeCount
  bumpIndex : coreUnsigned bytes 60 4 = page.bumpIndex
  nodes : ∀ slot < bookNodesPerPage,
    NodeBytes (slotRecord (bytes.drop v3BookPageHeaderSize) slot) (page.nodes slot)

structure MarketCoreBytes (bytes : Bytes) : Prop where
  length : bytes.length = v3MarketCoreSize
  discriminator : bytes.slice 0 8 = v3MarketCoreDiscriminator
  version : coreUnsigned bytes 8 2 = v3LayoutVersion
  initialized : coreUnsigned bytes 10 1 = 1
  riskConfigVersion : coreUnsigned bytes v3CoreRiskConfigVersionOffset 1 = v3RiskConfigVersion

def pageKeys : List (Side × ℕ) :=
  [Side.bid, Side.ask].flatMap fun side => (range bookPagesPerSide).map (side, ·)

theorem mem_pageKeys {k : Side × ℕ} : k ∈ pageKeys ↔ k.2 < bookPagesPerSide := by
  obtain ⟨side, index⟩ := k
  cases side <;> simp [pageKeys]

/-- The pages of the two books were fetched, in any order. -/
structure Pages (books : Side → PagedBookV3) (core : Bytes) (order : List (Side × ℕ))
    (bytes : Side × ℕ → Bytes) : Prop where
  perm : order.Perm pageKeys
  stored : ∀ k ∈ order, PageBytes (bytes k) core k.1 k.2 ((books k.1).pages k.2)

/-- All shards of a kind were fetched, in any order. -/
def Shards (discriminator : Bytes) (size : ℕ) (core : Bytes) (accounts : List Bytes) : Prop :=
  ∃ (order : List ℕ) (bytes : ℕ → Bytes), order.Perm (range 4) ∧
    accounts = order.map bytes ∧ ∀ i ∈ order, HeaderBytes (bytes i) discriminator size i 0 core

/-- The accounts of a market whose books are these. -/
structure Bundle (books : Side → PagedBookV3) (coreBytes : Bytes)
    (bookBytes seatBytes eventBytes : List Bytes) (coreAddress : Bytes) : Prop where
  core : MarketCoreBytes coreBytes
  pages : ∃ order bytes, bookBytes = order.map bytes ∧ Pages books coreAddress order bytes
  seats : Shards v3SeatShardDiscriminator v3SeatShardSize coreAddress seatBytes
  events : Shards v3EventShardDiscriminator v3EventShardSize coreAddress eventBytes

/-! ## Decoding -/

variable {record bytes core : Bytes} {leaf : LeafNode} {inner : InnerNode} {node : Node}
  {handle : ℕ}

/-- An entry but for the time in force, which the record of a leaf does not have. -/
def V3BookNodeState.untimed (node : V3BookNodeState) : V3BookNodeState :=
  { node with timeInForce := none }

def entry (tree : Option TreeKind) (handle : ℕ) (leaf : LeafNode) : V3BookNodeState where
  handle := handle
  tag := 2
  key := leaf.key.val
  side := some leaf.side.byte
  owner := some leaf.owner
  quantity := some leaf.quantity
  expiresAt := some leaf.expiresAt
  pegLimit := some leaf.pegLimit
  clientOrderId := some leaf.clientOrderId
  priceOrOffset := some leaf.priceOrOffset.val
  sequence := some leaf.sequence.val
  postOnly := some leaf.postOnly
  reduceOnly := some false
  tree := tree

theorem nodeKey_eq (hl : record.length = v3NodeSize) :
    nodeKey record = coreUnsigned record 8 16 := by
  have hlow : coreUnsigned record 8 8 < 2 ^ 64 := Bytes.toNat_slice_lt record 8 8
  have hw : (record.slice 8 8).length = 8 := Bytes.length_slice (by rw [hl]; decide)
  have hwo : coreUnsigned record 8 16 =
      coreUnsigned record 8 8 + 256 ^ 8 * coreUnsigned record 16 8 := by
    rw [coreUnsigned, show (16 : ℕ) = 8 + 8 from rfl, Bytes.slice_add, Bytes.toNat_append, hw]
    rfl
  rw [nodeKey, ← Nat.shiftLeft_add_eq_or_of_lt hlow, Nat.shiftLeft_eq, hwo]
  omega

theorem handle_of_decode {state : V3BookNodeState} (h : decodeBookNode record handle = some state) :
    state.handle = handle := by
  unfold decodeBookNode at h
  simp only at h
  split_ifs at h <;> cases h <;> rfl

theorem decodeBookNode_leaf (hl : record.length = v3NodeSize) (h : LeafBytes record leaf)
    (handle : ℕ) :
    ∃ state, decodeBookNode record handle = some state ∧
      state.untimed = entry none handle leaf := by
  have hp : decide (leaf.postOnly.toNat &&& 1 ≠ 0) = leaf.postOnly := by
    cases leaf.postOnly <;> rfl
  have hr : decide (leaf.postOnly.toNat &&& 2 ≠ 0) = false := by
    cases leaf.postOnly <;> rfl
  refine ⟨_, by rw [decodeBookNode, if_neg (by simp [hl]), h.tag]; rfl, ?_⟩
  simp only [V3BookNodeState.untimed, entry, nodeKey_eq hl, h.side, h.owner, h.key,
    h.quantity, h.expiresAt, h.pegLimit, h.clientOrderId, h.priceOrOffset, h.sequence, h.flags,
    hp, hr]

theorem decodeBookNode_inner (hl : record.length = v3NodeSize) (h : InnerBytes record inner)
    (handle : ℕ) : ∃ state, decodeBookNode record handle = some state ∧ state.tag = 1 := by
  simp [decodeBookNode, hl, h.tag]

def leafEntry (label : ℕ → Option TreeKind) (handle : ℕ) : Node → Option V3BookNodeState
  | .leaf leaf => some (entry (label handle) handle leaf)
  | _ => none

theorem decodeBookNode_entry (hl : record.length = v3NodeSize) (h : NodeBytes record node)
    (label : ℕ → Option TreeKind) : (((decodeBookNode record handle).map fun state =>
      { state with tree := label state.handle }).filter (·.tag = 2)).map V3BookNodeState.untimed =
        leafEntry label handle node := by
  cases node with
  | leaf leaf =>
    obtain ⟨state, hd, he⟩ := decodeBookNode_leaf hl h handle
    have ht : state.tag = 2 := congrArg V3BookNodeState.tag he
    have hla : label state.handle = label handle := by rw [handle_of_decode hd]
    rw [hd, leafEntry, Option.map_some, Option.filter_some_pos (by simpa using ht),
      Option.map_some, hla]
    refine congrArg some ?_
    exact congrArg (fun state : V3BookNodeState => { state with tree := label handle }) he
  | inner inner =>
    obtain ⟨state, hd, ht⟩ := decodeBookNode_inner hl h handle
    simp [hd, leafEntry, ht, Option.filter]
  | uninitialized =>
    have ht : coreUnsigned record 0 1 = 0 := h
    simp [decodeBookNode, ht, leafEntry]
  | free next =>
    have ht : coreUnsigned record 0 1 = 3 := h.1
    simp [decodeBookNode, ht, leafEntry]
  | lastFree =>
    have ht : coreUnsigned record 0 1 = 4 := h
    simp [decodeBookNode, ht, leafEntry]

theorem length_slotRecord (hl : bytes.length = v3BookPageSize) {slot : ℕ}
    (hs : slot < bookNodesPerPage) :
    (slotRecord (bytes.drop v3BookPageHeaderSize) slot).length = v3NodeSize := by
  refine Bytes.length_slice ?_
  rw [length_drop, hl, v3BookPageSize, Nat.add_sub_cancel_left, ← Nat.succ_mul]
  exact Nat.mul_le_mul_right _ hs

variable {side : Side} {index : ℕ} {page : BookPage}

theorem PageBytes.leaves
    (h : PageBytes bytes core side index page) (label : ℕ → Option TreeKind) :
    ((((pageState bytes).labelled label).nodes.filter (·.tag = 2)).map V3BookNodeState.untimed) =
      (range bookNodesPerPage).filterMap fun slot =>
        leafEntry label (index * bookNodesPerPage + slot) (page.nodes slot) := by
  simp only [V3BookPageState.labelled, pageState, h.header.second, map_filterMap, filter_filterMap]
  refine filterMap_congr fun slot hs => ?_
  have hs := mem_range.1 hs
  exact decodeBookNode_entry (length_slotRecord h.header.length hs) (h.nodes slot hs) label

theorem decodeV3BookPage_eq
    (h : PageBytes bytes core side index page) (hi : index < bookPagesPerSide)
    (hb : page.bumpIndex ≤ if index = 0 then bookSlotsPerSide else bookNodesPerPage)
    (hf : page.freeCount ≤ if index = 0 then bookSlotsPerSide else bookNodesPerPage) :
    decodeV3BookPage bytes = some (pageState bytes) := by
  have hv : validVersion bytes v3BookPageDiscriminator v3BookPageSize = true := by
    simp [validVersion, h.header.length, h.header.discriminator, h.header.version]
  have hs : ¬1 < side.byte := by cases side <;> decide
  rw [decodeV3BookPage, if_neg, if_neg]
  · rw [h.header.second, h.bumpIndex, h.freeCount]
    exact not_or.2 ⟨not_lt.2 hb, not_lt.2 hf⟩
  · rw [hv, h.header.first, h.header.second]
    simp [hs, hi]

/-! ## Encoding -/

/-- The numbers of a leaf fit the fields that they are stored in. -/
@[mk_iff]
structure LeafFits (leaf : LeafNode) : Prop where
  owner : leaf.owner < 2 ^ 32
  quantity : leaf.quantity < 2 ^ 64
  expiresAt : leaf.expiresAt < 2 ^ 64
  pegLimit : -2 ^ 63 ≤ leaf.pegLimit ∧ leaf.pegLimit < 2 ^ 63
  clientOrderId : leaf.clientOrderId < 2 ^ 64

@[mk_iff]
structure InnerFits (inner : InnerNode) : Prop where
  prefixLen : inner.prefixLen < 2 ^ 32
  children : ∀ c, inner.children c < 2 ^ 32
  expiry : ∀ c, inner.childEarliestExpiry c < 2 ^ 64

def NodeFits : Node → Prop
  | .inner inner => InnerFits inner
  | .leaf leaf => LeafFits leaf
  | .free next => next < 2 ^ 32
  | _ => True

instance (node : Node) : Decidable (NodeFits node) :=
  match node with
  | .inner inner => decidable_of_iff' _ (innerFits_iff inner)
  | .leaf leaf => decidable_of_iff' _ (leafFits_iff leaf)
  | .free next => Nat.decLt next (2 ^ 32)
  | .uninitialized | .lastFree => .isTrue trivial

@[mk_iff]
structure PageFits (page : BookPage) : Prop where
  fixedRoot : page.fixedRoot < 2 ^ 32
  peggedRoot : page.peggedRoot < 2 ^ 32
  freeHead : page.freeHead < 2 ^ 32
  freeCount : page.freeCount < 2 ^ 32
  bumpIndex : page.bumpIndex < 2 ^ 32
  nodes : ∀ slot < bookNodesPerPage, NodeFits (page.nodes slot)

instance (page : BookPage) : Decidable (PageFits page) := decidable_of_iff' _ (pageFits_iff page)

/-- The fields of a record, with its padding and its reserved bytes. -/
def nodeFields : Node → List Bytes
  | .uninitialized => [.ofNat 1 0, replicate 87 0]
  | .inner inner =>
    [.ofNat 1 1, replicate 3 0, .ofNat 4 inner.prefixLen, .ofNat 16 inner.key.val,
      .ofNat 4 (inner.children false), .ofNat 4 (inner.children true),
      .ofNat 8 (inner.childEarliestExpiry false), .ofNat 8 (inner.childEarliestExpiry true),
      replicate 40 0]
  | .leaf leaf =>
    [.ofNat 1 2, .ofNat 1 leaf.side.byte, replicate 2 0, .ofNat 4 leaf.owner,
      .ofNat 16 leaf.key.val, .ofNat 8 leaf.quantity, .ofNat 8 leaf.expiresAt,
      .ofInt 8 leaf.pegLimit, .ofNat 8 leaf.clientOrderId, .ofInt 8 leaf.priceOrOffset.val,
      .ofNat 8 leaf.sequence.val, .ofNat 1 leaf.postOnly.toNat, .ofInt 8 leaf.reservePrice,
      replicate 7 0]
  | .free next => [.ofNat 1 3, replicate 3 0, .ofNat 4 next, replicate 80 0]
  | .lastFree => [.ofNat 1 4, replicate 87 0]

def encodeNode (node : Node) : Bytes := (nodeFields node).flatten

theorem length_encodeNode (node : Node) : (encodeNode node).length = v3NodeSize := by
  cases node <;> simp [encodeNode, nodeFields, v3NodeSize]

theorem nodeBytes_encodeNode {node : Node} (hf : NodeFits node) :
    NodeBytes (encodeNode node) node := by
  have hfi : Bytes.Fields (encodeNode node) 0 (nodeFields node) := Bytes.fields_zero_iff.2 rfl
  cases node with
  | uninitialized => exact hfi.1.toNat_slice (by decide)
  | lastFree => exact hfi.1.toNat_slice (by decide)
  | free next =>
    simp only [nodeFields, Bytes.Fields, Bytes.length_ofNat, length_replicate] at hfi
    obtain ⟨ht, -, hn, -⟩ := hfi
    exact ⟨ht.toNat_slice (by decide), hn.toNat_slice hf⟩
  | inner inner =>
    simp only [nodeFields, Bytes.Fields, Bytes.length_ofNat, length_replicate] at hfi
    obtain ⟨ht, -, hpr, hk, hl, hr, hle, hri, -⟩ := hfi
    exact
      { tag := ht.toNat_slice (by decide)
        prefixLen := hpr.toNat_slice hf.prefixLen
        key := hk.toNat_slice inner.key.isLt
        left := hl.toNat_slice (hf.children _)
        right := hr.toNat_slice (hf.children _)
        leftExpiry := hle.toNat_slice (hf.expiry _)
        rightExpiry := hri.toNat_slice (hf.expiry _) }
  | leaf leaf =>
    simp only [nodeFields, Bytes.Fields, Bytes.length_ofNat, Bytes.length_ofInt,
      length_replicate] at hfi
    obtain ⟨ht, hsi, -, ho, hk, hq, he, hpe, hc, hpri, hs, hfl, -⟩ := hfi
    have hp := leaf.priceOrOffset.property
    exact
      { tag := ht.toNat_slice (by decide)
        side := hsi.toNat_slice (by cases leaf.side <;> decide)
        owner := ho.toNat_slice hf.owner
        key := hk.toNat_slice leaf.key.isLt
        quantity := hq.toNat_slice hf.quantity
        expiresAt := he.toNat_slice hf.expiresAt
        pegLimit := hpe.toInt_slice hf.pegLimit.1 hf.pegLimit.2
        clientOrderId := hc.toNat_slice hf.clientOrderId
        priceOrOffset := hpri.toInt_slice hp.1 hp.2
        sequence := hs.toNat_slice leaf.sequence.isLt
        flags := hfl.toNat_slice (by cases leaf.postOnly <;> decide) }

def headerFields (discriminator : Bytes) (first second : ℕ) (core : Bytes) : List Bytes :=
  [discriminator, .ofNat 2 v3LayoutVersion, .ofNat 1 first, .ofNat 1 second, core]

theorem headerBytes_of_fields {account discriminator core : Bytes} {first second : ℕ}
    {rest : List Bytes} (hd : discriminator.length = 8) (hc : core.length = 32)
    (hfi : first < 256) (hs : second < 256)
    (h : account = (headerFields discriminator first second core ++ rest).flatten) :
    HeaderBytes account discriminator account.length first second core ∧
      Bytes.Fields account v3ShardHeaderSize rest := by
  have hf := Bytes.fields_zero_iff.2 h
  simp only [headerFields, cons_append, nil_append, Bytes.Fields, Bytes.length_ofNat, hd, hc] at hf
  obtain ⟨hdi, hv, hfir, hse, hco, hr⟩ := hf
  exact ⟨{ length := rfl
           discriminator := hdi.slice_eq hd
           version := hv.toNat_slice (by decide)
           first := hfir.toNat_slice hfi
           second := hse.toNat_slice hs
           core := hco.slice_eq hc }, hr⟩

def pageFields (page : BookPage) : List Bytes :=
  [.ofNat 4 page.fixedRoot, .ofNat 4 page.peggedRoot, .ofNat 4 page.freeHead,
    .ofNat 4 page.freeCount, .ofNat 4 page.bumpIndex,
    (range bookNodesPerPage).flatMap fun slot => encodeNode (page.nodes slot)]

def encodePage (core : Bytes) (side : Side) (index : ℕ) (page : BookPage) : Bytes :=
  (headerFields v3BookPageDiscriminator side.byte index core ++ pageFields page).flatten

theorem pageBytes_encodePage (hc : core.length = 32)
    (hi : index < bookPagesPerSide) (hf : PageFits page) :
    PageBytes (encodePage core side index page) core side index page := by
  have hl : (encodePage core side index page).length = v3BookPageSize := by
    have hd : v3BookPageDiscriminator.length = 8 := rfl
    simp [encodePage, headerFields, pageFields, hc, hd, length_encodeNode,
      v3BookPageSize, v3BookPageHeaderSize]
    omega
  obtain ⟨hh, hr⟩ := headerBytes_of_fields rfl hc
    (by cases side <;> decide) (hi.trans (by decide)) (rfl : encodePage core side index page = _)
  rw [hl] at hh
  simp only [pageFields, Bytes.Fields, Bytes.length_ofNat] at hr
  obtain ⟨hfi, hp, hhe, hco, hb, hn⟩ := hr
  have hdr : (encodePage core side index page).drop v3BookPageHeaderSize =
      (range bookNodesPerPage).flatMap fun slot => encodeNode (page.nodes slot) := by
    have hre := (Bytes.fields_iff.1 (show Bytes.Fields _ v3BookPageHeaderSize [_] from hn)).2
    simpa using hre
  exact
    { header := hh
      fixedRoot := hfi.toNat_slice hf.fixedRoot
      peggedRoot := hp.toNat_slice hf.peggedRoot
      freeHead := hhe.toNat_slice hf.freeHead
      freeCount := hco.toNat_slice hf.freeCount
      bumpIndex := hb.toNat_slice hf.bumpIndex
      nodes := fun slot hs => by
        rw [hdr, slotRecord, Bytes.slice,
          take_drop_flatMap_range (fun _ => length_encodeNode _) hs]
        exact nodeBytes_encodeNode (hf.nodes slot hs) }

def encodeShard (discriminator : Bytes) (size : ℕ) (core : Bytes) (index : ℕ) : Bytes :=
  (headerFields discriminator index 0 core ++ [replicate (size - v3ShardHeaderSize) 0]).flatten

theorem shards_encodeShard {discriminator : Bytes} {size : ℕ}
    (hd : discriminator.length = 8)
    (hs : v3ShardHeaderSize ≤ size) (hc : core.length = 32) :
    Shards discriminator size core ((range 4).map (encodeShard discriminator size core)) := by
  refine ⟨range 4, _, .refl _, rfl, fun i hi => ?_⟩
  have hi := mem_range.1 hi
  have hl : (encodeShard discriminator size core i).length = size := by
    unfold v3ShardHeaderSize at hs
    simp [encodeShard, headerFields, hd, hc, v3ShardHeaderSize]
    omega
  obtain ⟨hh, -⟩ := headerBytes_of_fields hd hc (hi.trans (by decide))
    (by decide) (rfl : encodeShard discriminator size core i = _)
  rwa [hl] at hh

/-- The fields of a core up to its oracle price, and the version of its risk configuration. -/
def coreFields (mode : ℕ) (oracleValid : Bool) (price : ℤ) (markDeviationBps : ℕ) : List Bytes :=
  [v3MarketCoreDiscriminator, .ofNat 2 v3LayoutVersion, .ofNat 1 1, .ofNat 1 mode,
    replicate 168 0, .ofNat 1 oracleValid.toNat, .ofInt 8 price, replicate 115 0,
    .ofNat 2 markDeviationBps, replicate 65 0, .ofNat 1 v3RiskConfigVersion,
    replicate 3724 0]

def encodeCore (mode : ℕ) (oracleValid : Bool) (price : ℤ) (markDeviationBps : ℕ) : Bytes :=
  (coreFields mode oracleValid price markDeviationBps).flatten

theorem marketCoreBytes_encodeCore (mode : ℕ) (oracleValid : Bool) (price : ℤ)
    (markDeviationBps : ℕ) :
    MarketCoreBytes (encodeCore mode oracleValid price markDeviationBps) := by
  have hf : Bytes.Fields (encodeCore mode oracleValid price markDeviationBps) 0
      (coreFields mode oracleValid price markDeviationBps) := Bytes.fields_zero_iff.2 rfl
  have hl : (encodeCore mode oracleValid price markDeviationBps).length = v3MarketCoreSize := by
    simp only [encodeCore, coreFields, length_flatten, map_cons, map_nil,
      sum_cons, sum_nil, Bytes.length_ofNat, Bytes.length_ofInt, length_replicate]
    rfl
  simp only [coreFields, Bytes.Fields, Bytes.length_ofNat, Bytes.length_ofInt,
    length_replicate] at hf
  obtain ⟨hd, hv, hi, -, -, -, -, -, -, -, hr, -⟩ := hf
  exact
    { length := hl
      discriminator := hd.slice_eq rfl
      version := hv.toNat_slice (by decide)
      initialized := hi.toNat_slice (by decide)
      riskConfigVersion := hr.toNat_slice (by decide) }

def encodePages (core : Bytes) (books : Side → PagedBookV3) : List Bytes :=
  pageKeys.map fun k => encodePage core k.1 k.2 ((books k.1).pages k.2)

theorem bundle_encode {books : Side → PagedBookV3} (hc : core.length = 32)
    (hf : ∀ side, ∀ page < bookPagesPerSide, PageFits ((books side).pages page))
    (mode : ℕ) (oracleValid : Bool) (price : ℤ) (markDeviationBps : ℕ) :
    Bundle books (encodeCore mode oracleValid price markDeviationBps) (encodePages core books)
      ((range 4).map (encodeShard v3SeatShardDiscriminator v3SeatShardSize core))
      ((range 4).map (encodeShard v3EventShardDiscriminator v3EventShardSize core)) core where
  core := marketCoreBytes_encodeCore mode oracleValid price markDeviationBps
  pages := by
    refine ⟨pageKeys, _, rfl, .refl _, fun k hk => ?_⟩
    have hi := mem_pageKeys.1 hk
    exact pageBytes_encodePage hc hi (hf k.1 k.2 hi)
  seats := shards_encodeShard rfl (by decide) hc
  events := shards_encodeShard rfl (by decide) hc

end MarketView

end Equinox
