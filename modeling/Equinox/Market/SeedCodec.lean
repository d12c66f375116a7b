import Equinox.Foundation.Fields
import Equinox.Market.Core

/-! # The seeds of delegated accounts

A delegated account is known to the delegation program by the list of its seeds,
each with its length before it. Seven encoders write such lists, and the callback
that returns an account reads them back: the parser accepts exactly what the
encoders write for accounts that exist.
-/

namespace Equinox

open Foundation List Bytes

abbrev AddressBytes := {bytes : Bytes // bytes.length = 32}

/-- The kinds of delegated accounts, with what an encoder is given for each. -/
inductive DelegatedSeeds where
  | market (instrument : AddressBytes)
  | scratch (market : AddressBytes) (seat : UInt16)
  | session (owner market : AddressBytes) (seat : UInt16) (sessionSigner : AddressBytes)
  | v3Core (instrument : AddressBytes)
  | v3BookPage (core : AddressBytes) (side page : UInt8)
  | v3SeatShard (core : AddressBytes) (shard : UInt8)
  | v3EventShard (core : AddressBytes) (shard : UInt8)
  deriving DecidableEq

/-- What the parser returns. It knows a market by its kind alone. -/
inductive DelegatedAccountKind where
  | market
  | scratch (market : AddressBytes) (seat : UInt16)
  | session (owner market : AddressBytes) (seat : UInt16) (sessionSigner : AddressBytes)
  | v3Core (instrument : AddressBytes)
  | v3BookPage (core : AddressBytes) (side page : UInt8)
  | v3SeatShard (core : AddressBytes) (shard : UInt8)
  | v3EventShard (core : AddressBytes) (shard : UInt8)
  deriving DecidableEq

def DelegatedSeeds.kind : DelegatedSeeds → DelegatedAccountKind
  | market _ => .market
  | scratch parent seat => .scratch parent seat
  | session owner parent seat sessionSigner => .session owner parent seat sessionSigner
  | v3Core instrument => .v3Core instrument
  | v3BookPage core side page => .v3BookPage core side page
  | v3SeatShard core shard => .v3SeatShard core shard
  | v3EventShard core shard => .v3EventShard core shard

/-- The account exists: books have two sides of nine pages, and there are four shards of a kind. -/
def DelegatedSeeds.InRange : DelegatedSeeds → Prop
  | v3BookPage _ side page => side.toNat ≤ 1 ∧ page.toNat < bookPagesPerSide
  | v3SeatShard _ shard => shard.toNat < v3SeatShards
  | v3EventShard _ shard => shard.toNat < v3EventShards
  | _ => True

namespace SeedCodec

/-! ## The encoders -/

abbrev u16 (n : ℕ) : Bytes := .ofNat 2 n

abbrev u32 (n : ℕ) : Bytes := .ofNat 4 n

/-- The text `perp-market`. -/
def perpMarketSeed : Bytes := [112, 101, 114, 112, 45, 109, 97, 114, 107, 101, 116]

/-- The text `settlement`. -/
def settlementSeed : Bytes := [115, 101, 116, 116, 108, 101, 109, 101, 110, 116]

/-- The text `trading_session`. -/
def tradingSessionSeed : Bytes :=
  [116, 114, 97, 100, 105, 110, 103, 95, 115, 101, 115, 115, 105, 111, 110]

/-- The text `market-v3`. -/
def v3MarketCoreSeed : Bytes := [109, 97, 114, 107, 101, 116, 45, 118, 51]

/-- The text `book-page-v3`. -/
def v3BookPageSeed : Bytes := [98, 111, 111, 107, 45, 112, 97, 103, 101, 45, 118, 51]

/-- The text `seat-shard-v3`. -/
def v3SeatShardSeed : Bytes := [115, 101, 97, 116, 45, 115, 104, 97, 114, 100, 45, 118, 51]

/-- The text `event-shard-v3`. -/
def v3EventShardSeed : Bytes :=
  [101, 118, 101, 110, 116, 45, 115, 104, 97, 114, 100, 45, 118, 51]

def marketSeedsPayloadLen : ℕ := 4 + (4 + perpMarketSeed.length) + (4 + 32)
def scratchSeedsPayloadLen : ℕ := 4 + (4 + 10) + (4 + 32) + (4 + 2)
def sessionSeedsPayloadLen : ℕ := 4 + (4 + 15) + (4 + 32) + (4 + 32) + (4 + 2) + (4 + 32)
def v3CoreSeedsPayloadLen : ℕ := 4 + (4 + 9) + (4 + 32)
def v3BookPageSeedsPayloadLen : ℕ := 4 + (4 + 12) + (4 + 32) + (4 + 1) + (4 + 1)
def v3SeatShardSeedsPayloadLen : ℕ := 4 + (4 + 13) + (4 + 32) + (4 + 1)
def v3EventShardSeedsPayloadLen : ℕ := 4 + (4 + 14) + (4 + 32) + (4 + 1)

def encodeMarketDelegateSeeds (instrument : AddressBytes) : Bytes :=
  flatten [u32 2, u32 perpMarketSeed.length, perpMarketSeed, u32 32, instrument.val]

def encodeScratchDelegateSeeds (market : AddressBytes) (seat : UInt16) : Bytes :=
  flatten [u32 3, u32 settlementSeed.length, settlementSeed, u32 32, market.val, u32 2,
    u16 seat.toNat]

def encodeSessionDelegateSeeds (owner market : AddressBytes) (seat : UInt16)
    (sessionSigner : AddressBytes) : Bytes :=
  flatten [u32 5, u32 tradingSessionSeed.length, tradingSessionSeed, u32 32, owner.val, u32 32,
    market.val, u32 2, u16 seat.toNat, u32 32, sessionSigner.val]

def trailingFields (values : List UInt8) : List Bytes :=
  values.flatMap fun value => [u32 1, [value]]

/-- The copies for a tag, an account and single bytes. -/
def v3SeedFields (count : ℕ) (tag : Bytes) (market : AddressBytes) (trailing : List UInt8) :
    List Bytes :=
  [u32 count, u32 tag.length, tag, u32 32, market.val] ++ trailingFields trailing

def encodeV3SeedPrefix (tag : Bytes) (market : AddressBytes) (trailing : List UInt8) : Bytes :=
  (v3SeedFields (if trailing.length = 2 then 4 else 3) tag market trailing).flatten

def encodeV3CoreDelegateSeeds (instrument : AddressBytes) : Bytes :=
  flatten [u32 2, u32 v3MarketCoreSeed.length, v3MarketCoreSeed, u32 32, instrument.val]

def encodeV3BookPageDelegateSeeds (core : AddressBytes) (side page : UInt8) : Bytes :=
  encodeV3SeedPrefix v3BookPageSeed core [side, page]

def encodeV3SeatShardDelegateSeeds (core : AddressBytes) (shard : UInt8) : Bytes :=
  encodeV3SeedPrefix v3SeatShardSeed core [shard]

def encodeV3EventShardDelegateSeeds (core : AddressBytes) (shard : UInt8) : Bytes :=
  encodeV3SeedPrefix v3EventShardSeed core [shard]

def encode : DelegatedSeeds → Bytes
  | .market instrument => encodeMarketDelegateSeeds instrument
  | .scratch market seat => encodeScratchDelegateSeeds market seat
  | .session owner market seat sessionSigner =>
    encodeSessionDelegateSeeds owner market seat sessionSigner
  | .v3Core instrument => encodeV3CoreDelegateSeeds instrument
  | .v3BookPage core side page => encodeV3BookPageDelegateSeeds core side page
  | .v3SeatShard core shard => encodeV3SeatShardDelegateSeeds core shard
  | .v3EventShard core shard => encodeV3EventShardDelegateSeeds core shard

/-! ## The parser -/

def readU32 (payload : Bytes) (offset : ℕ) : Option ℕ := payload.getNat offset 4

def readAddress (payload : Bytes) (offset : ℕ) : Option AddressBytes :=
  if h : offset + 32 ≤ payload.length then
    some ⟨payload.slice offset 32, length_slice h⟩
  else none

/-- Where the expected seed ends that starts at an offset. -/
def expectVec (payload : Bytes) (offset : ℕ) (expected : Bytes) : Option ℕ := do
  let len ← readU32 payload offset
  let found ← payload.get (offset + 4) len
  guard (found = expected)
  pure (offset + 4 + len)

def parseMarketSeeds (payload : Bytes) : Option DelegatedAccountKind := do
  let tagLen ← readU32 payload 4
  guard (tagLen = perpMarketSeed.length ∧ payload.slice 8 tagLen = perpMarketSeed)
  let marketLen ← readU32 payload (8 + tagLen)
  guard (marketLen = 32 ∧ payload.length = 8 + tagLen + 4 + 32)
  let instrument ← readAddress payload (8 + tagLen + 4)
  guard (encodeMarketDelegateSeeds instrument = payload)
  pure .market

def parseScratchSeeds (payload : Bytes) : Option DelegatedAccountKind := do
  let offset ← expectVec payload 4 settlementSeed
  let marketLen ← readU32 payload offset
  guard (marketLen = 32)
  let market ← readAddress payload (offset + 4)
  let seatLen ← readU32 payload (offset + 4 + 32)
  let seat ← payload.getNat (offset + 4 + 32 + 4) 2
  guard (seatLen = 2)
  pure (.scratch market (.ofNat seat))

def parseSessionSeeds (payload : Bytes) : Option DelegatedAccountKind := do
  let offset ← expectVec payload 4 tradingSessionSeed
  let ownerLen ← readU32 payload offset
  guard (ownerLen = 32)
  let owner ← readAddress payload (offset + 4)
  let marketLen ← readU32 payload (offset + 4 + 32)
  guard (marketLen = 32)
  let market ← readAddress payload (offset + 4 + 32 + 4)
  let seatLen ← readU32 payload (offset + 4 + 32 + 4 + 32)
  guard (seatLen = 2)
  let seat ← payload.getNat (offset + 4 + 32 + 4 + 32 + 4) 2
  let signerLen ← readU32 payload (offset + 4 + 32 + 4 + 32 + 6)
  guard (signerLen = 32)
  let sessionSigner ← readAddress payload (offset + 4 + 32 + 4 + 32 + 6 + 4)
  guard (payload.length = offset + 4 + 32 + 4 + 32 + 6 + 4 + 32)
  pure (.session owner market (.ofNat seat) sessionSigner)

/-- Seeds of a single byte, as many as expected, and where they end. -/
def readTrailing (payload : Bytes) (offset : ℕ) : ℕ → Option (List UInt8 × ℕ)
  | 0 => some ([], offset)
  | trailing + 1 => do
    let len ← readU32 payload offset
    guard (len = 1)
    let value ← payload[offset + 4]?
    let (values, stop) ← readTrailing payload (offset + 5) trailing
    pure (value :: values, stop)

def parseV3 (payload tag : Bytes) (count trailing : ℕ) :
    Option (AddressBytes × List UInt8) := do
  let found ← readU32 payload 0
  guard (found = count)
  let offset ← expectVec payload 4 tag
  let parentLen ← readU32 payload offset
  guard (parentLen = 32)
  let parent ← readAddress payload (offset + 4)
  let (values, stop) ← readTrailing payload (offset + 4 + 32) trailing
  guard (stop = payload.length)
  pure (parent, values)

def parseV3CoreSeeds (payload : Bytes) : Option DelegatedAccountKind := do
  let (instrument, _) ← parseV3 payload v3MarketCoreSeed 2 0
  guard (encodeV3CoreDelegateSeeds instrument = payload)
  pure (.v3Core instrument)

def parseV3BookPageSeeds (payload : Bytes) : Option DelegatedAccountKind := do
  let (core, bytes) ← parseV3 payload v3BookPageSeed 4 2
  guard ((bytes.getD 0 0).toNat ≤ 1 ∧ (bytes.getD 1 0).toNat < bookPagesPerSide ∧
    encodeV3BookPageDelegateSeeds core (bytes.getD 0 0) (bytes.getD 1 0) = payload)
  pure (.v3BookPage core (bytes.getD 0 0) (bytes.getD 1 0))

def parseV3SeatShardSeeds (payload : Bytes) : Option DelegatedAccountKind := do
  let (core, bytes) ← parseV3 payload v3SeatShardSeed 3 1
  guard ((bytes.getD 0 0).toNat < v3SeatShards ∧
    encodeV3SeatShardDelegateSeeds core (bytes.getD 0 0) = payload)
  pure (.v3SeatShard core (bytes.getD 0 0))

def parseV3EventShardSeeds (payload : Bytes) : Option DelegatedAccountKind := do
  let (core, bytes) ← parseV3 payload v3EventShardSeed 3 1
  guard ((bytes.getD 0 0).toNat < v3EventShards ∧
    encodeV3EventShardDelegateSeeds core (bytes.getD 0 0) = payload)
  pure (.v3EventShard core (bytes.getD 0 0))

/-- The V3 forms. Their lengths differ, so a payload that fails one of them is none of the
others. -/
def parseV3Seeds (payload : Bytes) : Option DelegatedAccountKind :=
  if payload.length = v3CoreSeedsPayloadLen then parseV3CoreSeeds payload
  else if payload.length = v3BookPageSeedsPayloadLen then parseV3BookPageSeeds payload
  else if payload.length = v3SeatShardSeedsPayloadLen then parseV3SeatShardSeeds payload
  else if payload.length = v3EventShardSeedsPayloadLen then parseV3EventShardSeeds payload
  else none

def parseDelegatedSeeds (payload : Bytes) : Option DelegatedAccountKind := do
  let count ← readU32 payload 0
  if count = 2 ∧ payload.length = marketSeedsPayloadLen then parseMarketSeeds payload
  else if count = 3 ∧ payload.length = scratchSeedsPayloadLen then parseScratchSeeds payload
  else if count = 5 ∧ payload.length = sessionSeedsPayloadLen then parseSessionSeeds payload
  else parseV3Seeds payload

/-! ## What the readers find -/

variable {payload tag : Bytes} {offset count n stop : ℕ} {address : AddressBytes}
  {values : List UInt8} {kind : DelegatedAccountKind}

theorem readU32_eq_some : readU32 payload offset = some n ↔
    payload.At offset (u32 n) ∧ n < 2 ^ 32 := getNat_eq_some

theorem readAddress_eq_some : readAddress payload offset = some address ↔
    payload.At offset address.val := by
  unfold readAddress At
  rw [address.property]
  split
  · rename_i h
    rw [Option.some.injEq, ← Subtype.val_inj]
    exact ⟨fun h' => ⟨h, h'⟩, And.right⟩
  · rename_i h
    exact iff_of_false nofun fun h' => h h'.1

theorem expectVec_eq_some : expectVec payload offset tag = some stop ↔
    (payload.At offset (u32 tag.length) ∧ tag.length < 2 ^ 32) ∧ payload.At (offset + 4) tag ∧
      offset + 4 + tag.length = stop := by
  simp only [expectVec, some_rules, readU32_eq_some, get_eq_some]
  constructor
  · rintro ⟨len, hlen, found, ⟨hat, rfl⟩, rfl, rfl⟩
    exact ⟨hlen, hat, rfl⟩
  · rintro ⟨hlen, hat, rfl⟩
    exact ⟨_, hlen, tag, ⟨hat, rfl⟩, rfl, rfl⟩

theorem readTrailing_eq_some {trailing : ℕ} :
    (readTrailing payload offset trailing = some (values, stop) ∧ stop = payload.length) ↔
      values.length = trailing ∧ payload.Fields offset (trailingFields values) ∧
        stop = payload.length := by
  induction trailing generalizing offset values with
  | zero =>
    simp only [readTrailing, Option.some.injEq, Prod.mk.injEq, length_eq_zero_iff]
    constructor
    · rintro ⟨⟨rfl, rfl⟩, hs⟩
      exact ⟨rfl, hs.symm, hs⟩
    · rintro ⟨rfl, hf, rfl⟩
      exact ⟨⟨rfl, hf.symm⟩, rfl⟩
  | succ trailing ih =>
    simp only [readTrailing, some_rules, readU32_eq_some, Prod.mk.injEq, Prod.exists,
      ← at_singleton]
    constructor
    · rintro ⟨⟨_, ⟨hlen, -⟩, rfl, value, hv, rest, stop, hr, rfl, rfl⟩, hs⟩
      obtain ⟨hl, hf, -⟩ := ih.1 ⟨hr, hs⟩
      exact ⟨by rw [length_cons, hl], ⟨hlen, hv, hf⟩, hs⟩
    · rintro ⟨hl, hf, hs⟩
      obtain ⟨value, rest, rfl⟩ := exists_of_length_succ _ hl
      obtain ⟨hlen, hv, hf⟩ := hf
      have hr := (ih.2 ⟨Nat.succ.inj hl, hf, hs⟩).1
      exact ⟨⟨1, ⟨hlen, by decide⟩, rfl, value, hv, rest, stop, hr, rfl, rfl⟩, hs⟩

theorem fields_v3SeedFields : payload.Fields 0 (v3SeedFields count tag address values) ↔
    payload.At 0 (u32 count) ∧ payload.At 4 (u32 tag.length) ∧ payload.At 8 tag ∧
      payload.At (8 + tag.length) (u32 32) ∧ payload.At (8 + tag.length + 4) address.val ∧
      payload.Fields (8 + tag.length + 4 + 32) (trailingFields values) := by
  simp only [v3SeedFields, cons_append, nil_append, Fields, length_ofNat,
    address.property, Nat.zero_add, Nat.reduceAdd]

theorem parseV3_eq_some (hc : count < 2 ^ 32) (ht : tag.length < 2 ^ 32) :
    parseV3 payload tag count n = some (address, values) ↔
      values.length = n ∧ payload = (v3SeedFields count tag address values).flatten := by
  rw [← fields_zero_iff, fields_v3SeedFields]
  simp only [parseV3, some_rules, readU32_eq_some, expectVec_eq_some, readAddress_eq_some,
    Prod.mk.injEq, Prod.exists]
  constructor
  · rintro ⟨_, ⟨hfo, -⟩, rfl, _, ⟨⟨hlen, -⟩, hat, rfl⟩, _, ⟨h32, -⟩, rfl, parent, hp, found,
      stop, hr, hs, rfl, rfl⟩
    obtain ⟨hl, hf, -⟩ := readTrailing_eq_some.1 ⟨hr, hs⟩
    exact ⟨hl, hfo, hlen, hat, h32, hp, hf⟩
  · rintro ⟨hl, hfo, hlen, hat, h32, hp, hf⟩
    exact ⟨count, ⟨hfo, hc⟩, rfl, _, ⟨⟨hlen, ht⟩, hat, rfl⟩, 32, ⟨h32, by decide⟩, rfl, address,
      hp, values, payload.length, (readTrailing_eq_some.2 ⟨hl, hf, rfl⟩).1, rfl, rfl, rfl⟩

/-! ## The forms one by one -/

theorem parseMarketSeeds_eq_some : parseMarketSeeds payload = some kind ↔
    ∃ instrument, DelegatedAccountKind.market = kind ∧
      encodeMarketDelegateSeeds instrument = payload := by
  simp only [parseMarketSeeds, some_rules, readU32_eq_some, readAddress_eq_some]
  constructor
  · rintro ⟨_, -, -, _, -, -, instrument, -, he, rfl⟩
    exact ⟨instrument, rfl, he⟩
  · rintro ⟨instrument, rfl, he⟩
    have hf : payload.Fields 0 (v3SeedFields 2 perpMarketSeed instrument []) :=
      fields_zero_iff.2 he.symm
    obtain ⟨-, hlen, hat, h32, hi, hend⟩ := fields_v3SeedFields.1 hf
    exact ⟨_, ⟨hlen, by decide⟩, ⟨rfl, hat.2⟩, 32, ⟨h32, by decide⟩, ⟨rfl, hend⟩, instrument,
      hi, he, rfl⟩

theorem seat_at : payload.At offset (u16 n) ∧ n < 256 ^ 2 ↔
    payload.At offset (u16 (UInt16.ofNat n).toNat) ∧ (UInt16.ofNat n).toNat = n := by
  constructor
  · rintro ⟨hat, hlt⟩
    have hn : (UInt16.ofNat n).toNat = n := UInt16.toNat_ofNat_of_lt' hlt
    exact ⟨by rwa [hn], hn⟩
  · rintro ⟨hat, hn⟩
    rw [hn] at hat
    exact ⟨hat, hn ▸ (UInt16.ofNat n).toNat_lt⟩

theorem parseScratchSeeds_eq_some (hc : payload.At 0 (u32 3))
    (hsi : payload.length = scratchSeedsPayloadLen) : parseScratchSeeds payload = some kind ↔
      ∃ market seat, DelegatedAccountKind.scratch market seat = kind ∧
        encodeScratchDelegateSeeds market seat = payload := by
  have hf : ∀ market : AddressBytes, ∀ seat : UInt16,
      encodeScratchDelegateSeeds market seat = payload ↔
        payload.At 0 (u32 3) ∧ payload.At 4 (u32 settlementSeed.length) ∧
        payload.At 8 settlementSeed ∧ payload.At 18 (u32 32) ∧ payload.At 22 market.val ∧
        payload.At 54 (u32 2) ∧ payload.At 58 (u16 seat.toNat) ∧ payload.length = 60 := by
    intro market seat
    rw [eq_comm, encodeScratchDelegateSeeds, ← fields_zero_iff]
    simp only [Fields, length_ofNat, market.property]
    rfl
  simp only [parseScratchSeeds, some_rules, readU32_eq_some, expectVec_eq_some,
    readAddress_eq_some, getNat_eq_some, hf]
  constructor
  · rintro ⟨_, ⟨⟨hlen, -⟩, hat, rfl⟩, _, ⟨h32, -⟩, rfl, market, hm, _, ⟨h2, -⟩, n, hs, rfl, rfl⟩
    exact ⟨market, .ofNat n, rfl, hc, hlen, hat, h32, hm, h2, (seat_at.1 hs).1, hsi⟩
  · rintro ⟨market, seat, rfl, -, hlen, hat, h32, hm, h2, hs, -⟩
    exact ⟨_, ⟨⟨hlen, by decide⟩, hat, rfl⟩, 32, ⟨h32, by decide⟩, rfl, market, hm, 2,
      ⟨h2, by decide⟩, seat.toNat, ⟨hs, seat.toNat_lt⟩, rfl, by rw [UInt16.ofNat_toNat]⟩

theorem parseSessionSeeds_eq_some (hc : payload.At 0 (u32 5)) :
    parseSessionSeeds payload = some kind ↔
      ∃ owner market seat sessionSigner,
        DelegatedAccountKind.session owner market seat sessionSigner = kind ∧
        encodeSessionDelegateSeeds owner market seat sessionSigner = payload := by
  have hf : ∀ owner market sessionSigner : AddressBytes, ∀ seat : UInt16,
      encodeSessionDelegateSeeds owner market seat sessionSigner = payload ↔
        payload.At 0 (u32 5) ∧ payload.At 4 (u32 tradingSessionSeed.length) ∧
        payload.At 8 tradingSessionSeed ∧ payload.At 23 (u32 32) ∧ payload.At 27 owner.val ∧
        payload.At 59 (u32 32) ∧ payload.At 63 market.val ∧ payload.At 95 (u32 2) ∧
        payload.At 99 (u16 seat.toNat) ∧ payload.At 101 (u32 32) ∧
        payload.At 105 sessionSigner.val ∧ payload.length = 137 := by
    intro owner market sessionSigner seat
    rw [eq_comm, encodeSessionDelegateSeeds, ← fields_zero_iff]
    simp only [Fields, length_ofNat, owner.property, market.property, sessionSigner.property]
    rfl
  simp only [parseSessionSeeds, some_rules, readU32_eq_some, expectVec_eq_some,
    readAddress_eq_some, getNat_eq_some, hf]
  constructor
  · rintro ⟨_, ⟨⟨hlen, -⟩, hat, rfl⟩, _, ⟨h32, -⟩, rfl, owner, ho, _, ⟨h32', -⟩, rfl, market, hm,
      _, ⟨h2, -⟩, rfl, n, hs, _, ⟨h32'', -⟩, rfl, sessionSigner, hsi, hsize, rfl⟩
    exact ⟨owner, market, .ofNat n, sessionSigner, rfl, hc, hlen, hat, h32, ho, h32',
      hm, h2, (seat_at.1 hs).1, h32'', hsi, hsize⟩
  · rintro ⟨owner, market, seat, sessionSigner, rfl, -, hlen, hat, h32, ho, h32', hm, h2,
      hs, h32'', hsi, hsize⟩
    exact ⟨_, ⟨⟨hlen, by decide⟩, hat, rfl⟩, 32, ⟨h32, by decide⟩, rfl, owner, ho, 32,
      ⟨h32', by decide⟩, rfl, market, hm, 2, ⟨h2, by decide⟩, rfl, seat.toNat,
      ⟨hs, seat.toNat_lt⟩, 32, ⟨h32'', by decide⟩, rfl, sessionSigner, hsi, hsize,
      by rw [UInt16.ofNat_toNat]⟩

theorem parseV3CoreSeeds_eq_some : parseV3CoreSeeds payload = some kind ↔
    ∃ instrument, DelegatedAccountKind.v3Core instrument = kind ∧
      encodeV3CoreDelegateSeeds instrument = payload := by
  have hf : ∀ instrument, encodeV3CoreDelegateSeeds instrument =
      (v3SeedFields 2 v3MarketCoreSeed instrument []).flatten := fun _ => rfl
  simp only [parseV3CoreSeeds, some_rules, Prod.exists,
    parseV3_eq_some (show 2 < 2 ^ 32 by decide) (show v3MarketCoreSeed.length < 2 ^ 32 by decide)]
  constructor
  · rintro ⟨instrument, bytes, -, he, rfl⟩
    exact ⟨instrument, rfl, he⟩
  · rintro ⟨instrument, rfl, he⟩
    exact ⟨instrument, [], ⟨rfl, he.symm.trans (hf _)⟩, he, rfl⟩

theorem parseV3BookPageSeeds_eq_some : parseV3BookPageSeeds payload = some kind ↔
    ∃ core side page, (side.toNat ≤ 1 ∧ page.toNat < bookPagesPerSide) ∧
      DelegatedAccountKind.v3BookPage core side page = kind ∧
      encodeV3BookPageDelegateSeeds core side page = payload := by
  simp only [parseV3BookPageSeeds, some_rules, Prod.exists,
    parseV3_eq_some (show 4 < 2 ^ 32 by decide) (show v3BookPageSeed.length < 2 ^ 32 by decide)]
  constructor
  · rintro ⟨core, bytes, -, ⟨hs, hp, he⟩, rfl⟩
    exact ⟨core, _, _, ⟨hs, hp⟩, rfl, he⟩
  · rintro ⟨core, side, page, ⟨hs, hp⟩, rfl, he⟩
    exact ⟨core, [side, page], ⟨rfl, he.symm⟩, ⟨hs, hp, he⟩, rfl⟩

theorem parseV3SeatShardSeeds_eq_some : parseV3SeatShardSeeds payload = some kind ↔
    ∃ core shard, shard.toNat < v3SeatShards ∧
      DelegatedAccountKind.v3SeatShard core shard = kind ∧
      encodeV3SeatShardDelegateSeeds core shard = payload := by
  simp only [parseV3SeatShardSeeds, some_rules, Prod.exists,
    parseV3_eq_some (show 3 < 2 ^ 32 by decide) (show v3SeatShardSeed.length < 2 ^ 32 by decide)]
  constructor
  · rintro ⟨core, bytes, -, ⟨hs, he⟩, rfl⟩
    exact ⟨core, _, hs, rfl, he⟩
  · rintro ⟨core, shard, hs, rfl, he⟩
    exact ⟨core, [shard], ⟨rfl, he.symm⟩, ⟨hs, he⟩, rfl⟩

theorem parseV3EventShardSeeds_eq_some : parseV3EventShardSeeds payload = some kind ↔
    ∃ core shard, shard.toNat < v3EventShards ∧
      DelegatedAccountKind.v3EventShard core shard = kind ∧
      encodeV3EventShardDelegateSeeds core shard = payload := by
  simp only [parseV3EventShardSeeds, some_rules, Prod.exists,
    parseV3_eq_some (show 3 < 2 ^ 32 by decide) (show v3EventShardSeed.length < 2 ^ 32 by decide)]
  constructor
  · rintro ⟨core, bytes, -, ⟨hs, he⟩, rfl⟩
    exact ⟨core, _, hs, rfl, he⟩
  · rintro ⟨core, shard, hs, rfl, he⟩
    exact ⟨core, [shard], ⟨rfl, he.symm⟩, ⟨hs, he⟩, rfl⟩

/-! ## The codec -/

def payloadLen : DelegatedSeeds → ℕ
  | .market .. => marketSeedsPayloadLen
  | .scratch .. => scratchSeedsPayloadLen
  | .session .. => sessionSeedsPayloadLen
  | .v3Core .. => v3CoreSeedsPayloadLen
  | .v3BookPage .. => v3BookPageSeedsPayloadLen
  | .v3SeatShard .. => v3SeatShardSeedsPayloadLen
  | .v3EventShard .. => v3EventShardSeedsPayloadLen

theorem length_address (address : AddressBytes) : address.val.length = 32 := address.property

theorem length_encode (x : DelegatedSeeds) : (encode x).length = payloadLen x := by
  cases x <;>
    simp only [encode, encodeMarketDelegateSeeds, encodeScratchDelegateSeeds,
      encodeSessionDelegateSeeds, encodeV3CoreDelegateSeeds, encodeV3BookPageDelegateSeeds,
      encodeV3SeatShardDelegateSeeds, encodeV3EventShardDelegateSeeds, encodeV3SeedPrefix,
      v3SeedFields, trailingFields, flatMap_cons, flatMap_nil, cons_append,
      nil_append, append_nil, flatten_cons, flatten_nil, length_append,
      length_cons, length_nil, length_ofNat, length_address, payloadLen] <;> rfl

def seedCount : DelegatedSeeds → ℕ
  | .market .. => 2
  | .scratch .. => 3
  | .session .. => 5
  | .v3Core .. => 2
  | .v3BookPage .. => 4
  | .v3SeatShard .. => 3
  | .v3EventShard .. => 3

theorem at_seedCount (x : DelegatedSeeds) : (encode x).At 0 (u32 (seedCount x)) := by
  have hf : ∃ rest, encode x = flatten (u32 (seedCount x) :: rest) := by
    cases x <;> exact ⟨_, rfl⟩
  obtain ⟨rest, hr⟩ := hf
  exact (fields_zero_iff.2 hr).1

theorem readU32_encode (x : DelegatedSeeds) : readU32 (encode x) 0 = some (seedCount x) :=
  readU32_eq_some.2 ⟨at_seedCount x, by cases x <;> simp only [seedCount] <;> decide⟩

theorem parseDelegatedSeeds_encode_eq (x : DelegatedSeeds) :
    parseDelegatedSeeds (encode x) = match x with
      | .market .. => parseMarketSeeds (encode x)
      | .scratch .. => parseScratchSeeds (encode x)
      | .session .. => parseSessionSeeds (encode x)
      | .v3Core .. => parseV3CoreSeeds (encode x)
      | .v3BookPage .. => parseV3BookPageSeeds (encode x)
      | .v3SeatShard .. => parseV3SeatShardSeeds (encode x)
      | .v3EventShard .. => parseV3EventShardSeeds (encode x) := by
  rw [parseDelegatedSeeds, readU32_encode, Option.bind_eq_bind, Option.bind_some, parseV3Seeds,
    length_encode]
  cases x <;> rfl

theorem parseDelegatedSeeds_encode {x : DelegatedSeeds} (h : x.InRange) :
    parseDelegatedSeeds (encode x) = some x.kind := by
  have hat := at_seedCount x
  have hs := length_encode x
  rw [parseDelegatedSeeds_encode_eq]
  cases x with
  | market instrument => exact parseMarketSeeds_eq_some.2 ⟨instrument, rfl, rfl⟩
  | scratch market seat => exact (parseScratchSeeds_eq_some hat hs).2 ⟨market, seat, rfl, rfl⟩
  | session owner market seat sessionSigner =>
    exact (parseSessionSeeds_eq_some hat).2 ⟨owner, market, seat, sessionSigner, rfl, rfl⟩
  | v3Core instrument => exact parseV3CoreSeeds_eq_some.2 ⟨instrument, rfl, rfl⟩
  | v3BookPage core side page =>
    exact parseV3BookPageSeeds_eq_some.2 ⟨core, side, page, h, rfl, rfl⟩
  | v3SeatShard core shard => exact parseV3SeatShardSeeds_eq_some.2 ⟨core, shard, h, rfl, rfl⟩
  | v3EventShard core shard => exact parseV3EventShardSeeds_eq_some.2 ⟨core, shard, h, rfl, rfl⟩

theorem parseV3Seeds_sound (h : parseV3Seeds payload = some kind) :
    ∃ x : DelegatedSeeds, x.InRange ∧ x.kind = kind ∧ encode x = payload := by
  unfold parseV3Seeds at h
  split at h
  · obtain ⟨instrument, rfl, he⟩ := parseV3CoreSeeds_eq_some.1 h
    exact ⟨.v3Core instrument, trivial, rfl, he⟩
  split at h
  · obtain ⟨core, side, page, hr, rfl, he⟩ := parseV3BookPageSeeds_eq_some.1 h
    exact ⟨.v3BookPage core side page, hr, rfl, he⟩
  split at h
  · obtain ⟨core, shard, hr, rfl, he⟩ := parseV3SeatShardSeeds_eq_some.1 h
    exact ⟨.v3SeatShard core shard, hr, rfl, he⟩
  split at h
  · obtain ⟨core, shard, hr, rfl, he⟩ := parseV3EventShardSeeds_eq_some.1 h
    exact ⟨.v3EventShard core shard, hr, rfl, he⟩
  · cases h

theorem parseDelegatedSeeds_sound (h : parseDelegatedSeeds payload = some kind) :
    ∃ x : DelegatedSeeds, x.InRange ∧ x.kind = kind ∧ encode x = payload := by
  simp only [parseDelegatedSeeds, some_rules] at h
  obtain ⟨count, hc, h⟩ := h
  have hat := (readU32_eq_some.1 hc).1
  split at h
  · obtain ⟨instrument, rfl, he⟩ := parseMarketSeeds_eq_some.1 h
    exact ⟨.market instrument, trivial, rfl, he⟩
  split at h
  · rename_i hf
    obtain ⟨rfl, hs⟩ := hf
    obtain ⟨market, seat, rfl, he⟩ := (parseScratchSeeds_eq_some hat hs).1 h
    exact ⟨.scratch market seat, trivial, rfl, he⟩
  split at h
  · rename_i hf
    obtain ⟨rfl, -⟩ := hf
    obtain ⟨owner, market, seat, sessionSigner, rfl, he⟩ := (parseSessionSeeds_eq_some hat).1 h
    exact ⟨.session owner market seat sessionSigner, trivial, rfl, he⟩
  · exact parseV3Seeds_sound h

/-! ## No two accounts have the same seeds -/

def fields : DelegatedSeeds → List Bytes
  | .market instrument => v3SeedFields 2 perpMarketSeed instrument []
  | .scratch market seat =>
    v3SeedFields 3 settlementSeed market [] ++ [u32 2, u16 seat.toNat]
  | .session owner market seat sessionSigner =>
    v3SeedFields 5 tradingSessionSeed owner [] ++
      [u32 32, market.val, u32 2, u16 seat.toNat, u32 32, sessionSigner.val]
  | .v3Core instrument => v3SeedFields 2 v3MarketCoreSeed instrument []
  | .v3BookPage core side page => v3SeedFields 4 v3BookPageSeed core [side, page]
  | .v3SeatShard core shard => v3SeedFields 3 v3SeatShardSeed core [shard]
  | .v3EventShard core shard => v3SeedFields 3 v3EventShardSeed core [shard]

theorem encode_eq_flatten (x : DelegatedSeeds) : encode x = (fields x).flatten := by
  cases x <;> rfl

theorem u16_injective {a b : UInt16} (h : u16 a.toNat = u16 b.toNat) : a = b := by
  have hn := congrArg toNat h
  rw [toNat_ofNat_of_lt a.toNat_lt, toNat_ofNat_of_lt b.toNat_lt] at hn
  exact UInt16.toNat_inj.1 hn

theorem fields_eq_of_encode_eq {x y : DelegatedSeeds} (h : encode x = encode y)
    (hl : (fields x).map length = (fields y).map length) : fields x = fields y := by
  rw [encode_eq_flatten, encode_eq_flatten] at h
  exact eq_iff_flatten_eq.2 ⟨h, hl⟩

theorem encode_injective : Function.Injective encode := by
  intro x y h
  have hlen : payloadLen x = payloadLen y := by rw [← length_encode, ← length_encode, h]
  -- the lengths tell the kinds apart, and the copies the accounts of a kind
  cases x <;> cases y <;> simp only [payloadLen] at hlen <;> try exact absurd hlen (by decide)
  all_goals
    have hf := fields_eq_of_encode_eq h (by
      simp only [fields, v3SeedFields, trailingFields, flatMap_cons, flatMap_nil,
        cons_append, nil_append, append_nil, map_cons, map_nil,
        length_ofNat, length_address, length_singleton])
    simp only [fields, v3SeedFields, trailingFields, flatMap_cons, flatMap_nil,
      cons_append, nil_append, append_nil, cons.injEq, Subtype.val_inj, true_and, and_true] at hf
  case market.market => rw [hf]
  case scratch.scratch => rw [hf.1, u16_injective hf.2]
  case session.session =>
    obtain ⟨rfl, rfl, hs, rfl⟩ := hf
    rw [u16_injective hs]
  case v3Core.v3Core => rw [hf]
  case v3BookPage.v3BookPage => rw [hf.1, hf.2.1, hf.2.2]
  case v3SeatShard.v3SeatShard => rw [hf.1, hf.2]
  case v3EventShard.v3EventShard => rw [hf.1, hf.2]

/-- The codec: accounts that exist are parsed as what was encoded, payloads for others are not
accepted, no two accounts have the same seeds, and every accepted payload was written by one
encoder. -/
theorem delegated_seeds_codec :
    (∀ x : DelegatedSeeds, x.InRange → parseDelegatedSeeds (encode x) = some x.kind) ∧
    (∀ x : DelegatedSeeds, ¬x.InRange → parseDelegatedSeeds (encode x) = none) ∧
    Function.Injective encode ∧
    ∀ payload kind, parseDelegatedSeeds payload = some kind →
      ∃! x : DelegatedSeeds, encode x = payload ∧ x.InRange ∧ x.kind = kind := by
  refine ⟨fun x => parseDelegatedSeeds_encode, fun x hx => ?_, encode_injective, fun p k h => ?_⟩
  · cases h : parseDelegatedSeeds (encode x) with
    | none => rfl
    | some kind =>
      obtain ⟨y, hy, -, he⟩ := parseDelegatedSeeds_sound h
      exact absurd (encode_injective he ▸ hy) hx
  · obtain ⟨x, hr, hk, he⟩ := parseDelegatedSeeds_sound h
    exact ⟨x, ⟨he, hr, hk⟩, fun y hy => encode_injective (hy.1.trans he.symm)⟩

/-- A page of a third side is encoded and not parsed back, and of a market's seeds the parser
returns no instrument. -/
theorem seeds_not_returned :
    parseDelegatedSeeds (encode (.v3BookPage ⟨replicate 32 1, rfl⟩ 2 0)) = none ∧
    parseDelegatedSeeds (encode (.market ⟨replicate 32 1, rfl⟩)) =
      parseDelegatedSeeds (encode (.market ⟨replicate 32 2, rfl⟩)) := by
  decide +kernel

end SeedCodec

end Equinox
