import Equinox.Foundation.Bytes
import Equinox.Foundation.Frame
import Equinox.Market.Gate

/-! # The oracle snapshot's bytes

The snapshot of a market is an account of 128 bytes with hand-assigned offsets.
A verified price is written over it if it is newer than the one before; the whole
account is filled anew each time. Two readers check it: one asks for a fresh price
of an open session, the other for any price that was ever verified.
-/

namespace Equinox

open Foundation List

abbrev I32 := {x : ℤ // -2 ^ 31 ≤ x ∧ x < 2 ^ 31}

instance instNeZeroByte : NeZero 256 := ⟨by decide⟩

/-- The market and the feed a snapshot is for. -/
structure SnapshotIdentity where
  core : Address
  feedId : Fin (2 ^ 32)
  channel : Fin 256
  exponent : I32
  deriving DecidableEq

def SnapshotIdentity.Valid (identity : SnapshotIdentity) : Prop :=
  identity.feedId.val ≠ 0 ∧ (1 ≤ identity.channel.val ∧ identity.channel.val ≤ 4) ∧
    -12 ≤ identity.exponent.val ∧ identity.exponent.val ≤ 0

instance (identity : SnapshotIdentity) : Decidable identity.Valid :=
  inferInstanceAs (Decidable (_ ∧ _))

/-- The arguments of a write. -/
structure VerifiedPrice where
  identity : SnapshotIdentity
  price : I64
  confidence : U64
  publishTimestamp : U64
  session : Fin 256
  now : U64
  deriving DecidableEq

abbrev SnapshotM := EStateM ProgramError Bytes

namespace SnapshotBytes

def oracleSnapshotSize : ℕ := 128

/-- The text `STKORS03`. -/
def oracleSnapshotDiscriminator : Bytes := [83, 84, 75, 79, 82, 83, 48, 51]

def oracleSnapshotVersion : ℕ := 3

def offsetVersion : ℕ := 8
def offsetInitialized : ℕ := 10
def offsetCore : ℕ := 12
def offsetFeedId : ℕ := 44
def offsetChannel : ℕ := 48
def offsetExponent : ℕ := 49
def offsetPrice : ℕ := 53
def offsetConfidence : ℕ := 61
def offsetPublishTimestamp : ℕ := 69
def offsetSequence : ℕ := 77
def offsetSession : ℕ := 85
def offsetTradingStatus : ℕ := 86
def offsetAuthenticated : ℕ := 87
def offsetRevision : ℕ := 88

def statusOpen : ℕ := 0
def statusClosed : ℕ := 3

def saturatingAdd (a b : ℕ) : ℕ := min (a + b) (2 ^ 64 - 1)

def unsigned (bytes : Bytes) (offset width : ℕ) : ℕ := (bytes.slice offset width).toNat

def price (bytes : Bytes) : ℤ := (bytes.slice offsetPrice 8).toInt

def publishTimestamp (bytes : Bytes) : ℕ := unsigned bytes offsetPublishTimestamp 8

def sequence (bytes : Bytes) : ℕ := unsigned bytes offsetSequence 8

/-! ## The readers -/

def validate (bytes : Bytes) (core : Address) (now : ℕ) : Except ProgramError Unit := do
  require (bytes.length = oracleSnapshotSize ∧ bytes.slice 0 8 = oracleSnapshotDiscriminator ∧
    unsigned bytes offsetVersion 2 = oracleSnapshotVersion ∧
    unsigned bytes offsetInitialized 1 = 1 ∧ bytes.slice offsetCore 32 = .ofNat 32 core ∧
    unsigned bytes offsetAuthenticated 1 = 1 ∧ unsigned bytes offsetRevision 1 = 1 ∧
    unsigned bytes offsetTradingStatus 1 = statusOpen) .invalidAccountData
  require (sequence bytes ≠ 0 ∧ 0 < price bytes ∧
    unsigned bytes offsetConfidence 8 ≤ (price bytes).natAbs / 5 ∧
    publishTimestamp bytes ≤ saturatingAdd now 2 ∧
    now ≤ saturatingAdd (publishTimestamp bytes) 10) .invalidInstructionData

def validateForCore (bytes : Bytes) (identity : SnapshotIdentity) (now : ℕ) :
    Except ProgramError Unit := do
  validate bytes identity.core now
  require (unsigned bytes offsetFeedId 4 = identity.feedId ∧
    unsigned bytes offsetChannel 1 = identity.channel ∧
    (bytes.slice offsetExponent 4).toInt = identity.exponent.val) .invalidInstructionData

def lastVerifiedPrice (bytes : Bytes) (identity : SnapshotIdentity) : Except ProgramError ℤ := do
  require (bytes.length = oracleSnapshotSize ∧ bytes.slice 0 8 = oracleSnapshotDiscriminator ∧
    unsigned bytes offsetVersion 2 = oracleSnapshotVersion ∧
    unsigned bytes offsetInitialized 1 = 1 ∧
    bytes.slice offsetCore 32 = .ofNat 32 identity.core ∧
    unsigned bytes offsetAuthenticated 1 = 1 ∧ unsigned bytes offsetRevision 1 = 1 ∧
    unsigned bytes offsetFeedId 4 = identity.feedId ∧
    unsigned bytes offsetChannel 1 = identity.channel ∧
    (bytes.slice offsetExponent 4).toInt = identity.exponent.val ∧ sequence bytes ≠ 0)
    .invalidAccountData
  require (0 < price bytes) .invalidAccountData
  pure (price bytes)

/-! ## The writers -/

/-- What `initialize` writes into the zeroed account. -/
def identityPatches (identity : SnapshotIdentity) : List Bytes.Patch :=
  [⟨0, oracleSnapshotDiscriminator⟩, ⟨offsetVersion, .ofNat 2 oracleSnapshotVersion⟩,
    ⟨offsetInitialized, .ofNat 1 1⟩, ⟨offsetRevision, .ofNat 1 1⟩,
    ⟨offsetCore, .ofNat 32 identity.core⟩, ⟨offsetFeedId, .ofNat 4 identity.feedId⟩,
    ⟨offsetChannel, .ofNat 1 identity.channel⟩,
    ⟨offsetExponent, .ofInt 4 identity.exponent.val⟩]

def initializeSnapshot (identity : SnapshotIdentity) : SnapshotM Unit := do
  let size ← asking length
  require (size = oracleSnapshotSize ∧ identity.Valid) ProgramError.invalidAccountData
  modify fun _ => Bytes.apply (replicate size 0) (identityPatches identity)

def tradingStatus (session : ℕ) : ℕ := if session ≤ 3 then statusOpen else statusClosed

/-- What a write adds to a snapshot that was just created. -/
def pricePatches (w : VerifiedPrice) (sequence : ℕ) : List Bytes.Patch :=
  [⟨offsetPrice, .ofInt 8 w.price.val⟩, ⟨offsetConfidence, .ofNat 8 w.confidence⟩,
    ⟨offsetPublishTimestamp, .ofNat 8 w.publishTimestamp⟩, ⟨offsetSequence, .ofNat 8 sequence⟩,
    ⟨offsetSession, .ofNat 1 w.session⟩,
    ⟨offsetTradingStatus, .ofNat 1 (tradingStatus w.session)⟩, ⟨offsetAuthenticated, .ofNat 1 1⟩]

/-- The number of the next write: one more than the last, which it has to be newer than. -/
def nextSequence (timestamp : ℕ) (bytes : Bytes) : Except ProgramError ℕ :=
  if bytes.length = oracleSnapshotSize ∧ bytes.slice 0 8 = oracleSnapshotDiscriminator ∧
      unsigned bytes offsetInitialized 1 = 1 then do
    require (publishTimestamp bytes < timestamp) .invalidInstructionData
    checkedU64 .arithmeticOverflow (sequence bytes + 1)
  else pure 1

def writeVerified (w : VerifiedPrice) : SnapshotM Unit := do
  require (0 < w.price.val ∧ w.confidence.val ≤ w.price.val.natAbs / 5 ∧
    w.publishTimestamp.val ≤ saturatingAdd w.now 2 ∧
    w.now.val ≤ saturatingAdd w.publishTimestamp 10 ∧ w.session.val ≤ 4)
    ProgramError.invalidInstructionData
  let next ← reading (nextSequence w.publishTimestamp)
  initializeSnapshot w.identity
  modify (·.apply (pricePatches w next))

/-! ## What a write does -/

variable {identity : SnapshotIdentity} {w : VerifiedPrice} {bytes bytes' : Bytes}

def Plausible (w : VerifiedPrice) : Prop :=
  0 < w.price.val ∧ w.confidence.val ≤ w.price.val.natAbs / 5 ∧
    w.publishTimestamp.val ≤ w.now + 2 ∧ w.now.val ≤ w.publishTimestamp + 10 ∧ w.session.val ≤ 4

/-- An initialized snapshot, which a write has to follow. -/
def Initialized (bytes : Bytes) : Prop :=
  bytes.length = oracleSnapshotSize ∧ bytes.slice 0 8 = oracleSnapshotDiscriminator ∧
    unsigned bytes offsetInitialized 1 = 1

def written (w : VerifiedPrice) (sequence : ℕ) : Bytes :=
  Bytes.apply (replicate oracleSnapshotSize 0)
    (identityPatches w.identity ++ pricePatches w sequence)

theorem le_saturatingAdd {a b n : ℕ} (ha : a < 2 ^ 64) : a ≤ saturatingAdd n b ↔ a ≤ n + b := by
  simp only [saturatingAdd]
  omega

theorem initializeSnapshot_eq_ok {u : Unit} : initializeSnapshot identity bytes = .ok u bytes' ↔
    bytes.length = oracleSnapshotSize ∧ identity.Valid ∧
      Bytes.apply (replicate oracleSnapshotSize 0) (identityPatches identity) = bytes' := by
  simp only [initializeSnapshot, run_asking_bind, run_lift_bind, exists_require,
    run_modify_eq_ok, and_assoc]
  constructor <;> rintro ⟨hs, hv, rfl⟩ <;> simp only [hs, hv, and_self]

theorem writeVerified_eq_ok {u : Unit} : writeVerified w bytes = .ok u bytes' ↔
    Plausible w ∧ w.identity.Valid ∧ bytes.length = oracleSnapshotSize ∧
      ∃ next, nextSequence w.publishTimestamp bytes = .ok next ∧ written w next = bytes' := by
  have hw : ∀ next, written w next = Bytes.apply (Bytes.apply
      (replicate oracleSnapshotSize 0) (identityPatches w.identity)) (pricePatches w next) :=
    fun next => by rw [written, Bytes.apply, foldl_append]; rfl
  simp only [writeVerified, run_lift_bind, exists_require, run_reading_bind, hw,
    le_saturatingAdd (Fin.is_lt _)]
  simp only [run_bind_eq_ok, initializeSnapshot_eq_ok, run_modify_eq_ok]
  constructor
  · rintro ⟨hp, next, hn, ⟨⟩, _, ⟨hs, hv, rfl⟩, rfl⟩
    exact ⟨hp, hv, hs, next, hn, rfl⟩
  · rintro ⟨hp, hv, hs, next, hn, rfl⟩
    exact ⟨hp, next, hn, (), _, ⟨hs, hv, rfl⟩, rfl⟩

instance initializeSnapshot_failsClean : FailsClean id (initializeSnapshot identity) := by
  unfold initializeSnapshot
  infer_instance

instance writeVerified_failsClean : FailsClean id (writeVerified w) := by
  unfold writeVerified
  infer_instance

/-! ## What was written reads back -/

@[simp] theorem length_written (w : VerifiedPrice) (next : ℕ) :
    (written w next).length = oracleSnapshotSize := by
  rw [written, Bytes.length_apply, length_replicate]

def writtenRegions : List Bytes.Region :=
  [⟨0, 8⟩, ⟨offsetVersion, 2⟩, ⟨offsetInitialized, 1⟩, ⟨offsetRevision, 1⟩, ⟨offsetCore, 32⟩,
    ⟨offsetFeedId, 4⟩, ⟨offsetChannel, 1⟩, ⟨offsetExponent, 4⟩, ⟨offsetPrice, 8⟩,
    ⟨offsetConfidence, 8⟩, ⟨offsetPublishTimestamp, 8⟩, ⟨offsetSequence, 8⟩, ⟨offsetSession, 1⟩,
    ⟨offsetTradingStatus, 1⟩, ⟨offsetAuthenticated, 1⟩]

theorem region_patches {next : ℕ} :
    (identityPatches w.identity ++ pricePatches w next).map Bytes.Patch.region =
      writtenRegions := by
  simp only [identityPatches, pricePatches, writtenRegions, Bytes.Patch.region, cons_append,
    nil_append, map_cons, map_nil, Bytes.length_ofNat, Bytes.length_ofInt]
  rfl

theorem slice_written (w : VerifiedPrice) (next : ℕ) :
    ∀ p ∈ identityPatches w.identity ++ pricePatches w next,
    (written w next).slice p.offset p.data.length = p.data := by
  intro p hp
  refine Bytes.slice_apply_of_mem ?_ ?_ hp <;> rw [region_patches]
  · rw [length_replicate]
    decide
  · decide

/-- What the readers find after a write. -/
structure Reads (bytes : Bytes) (w : VerifiedPrice) (next : ℕ) : Prop where
  size : bytes.length = oracleSnapshotSize
  discriminator : bytes.slice 0 8 = oracleSnapshotDiscriminator
  version : unsigned bytes offsetVersion 2 = oracleSnapshotVersion
  initialized : unsigned bytes offsetInitialized 1 = 1
  revision : unsigned bytes offsetRevision 1 = 1
  core : bytes.slice offsetCore 32 = .ofNat 32 w.identity.core
  feedId : unsigned bytes offsetFeedId 4 = w.identity.feedId
  channel : unsigned bytes offsetChannel 1 = w.identity.channel
  exponent : (bytes.slice offsetExponent 4).toInt = w.identity.exponent.val
  price : price bytes = w.price.val
  confidence : unsigned bytes offsetConfidence 8 = w.confidence
  publishTimestamp : publishTimestamp bytes = w.publishTimestamp
  sequence : sequence bytes = next
  session : unsigned bytes offsetSession 1 = w.session
  tradingStatus : unsigned bytes offsetTradingStatus 1 = tradingStatus w.session
  authenticated : unsigned bytes offsetAuthenticated 1 = 1

theorem reads_written {next : ℕ} (hn : next < 2 ^ 64) : Reads (written w next) w next := by
  have h := slice_written w next
  simp only [identityPatches, pricePatches, cons_append, nil_append,
    forall_mem_cons, Bytes.length_ofNat, Bytes.length_ofInt] at h
  obtain ⟨hd, hv, hi, hr, hcore, hf, hc, he, hp, hco, ht, hs, hse, hst, ha, -⟩ := h
  have hl := w.price.property
  have hexp := w.identity.exponent.property
  refine ⟨length_written _ _, hd, ?_, ?_, ?_, hcore, ?_, ?_, ?_, ?_, ?_, ?_, ?_, ?_, ?_, ?_⟩
  · rw [unsigned, hv]; decide
  · rw [unsigned, hi]; decide
  · rw [unsigned, hr]; decide
  · rw [unsigned, hf, Bytes.toNat_ofNat_of_lt w.identity.feedId.isLt]
  · rw [unsigned, hc, Bytes.toNat_ofNat_of_lt w.identity.channel.isLt]
  · rw [he, Bytes.toInt_ofInt (by norm_num; omega) (by norm_num; omega)]
  · rw [price, hp, Bytes.toInt_ofInt (by norm_num; omega) (by norm_num; omega)]
  · rw [unsigned, hco, Bytes.toNat_ofNat_of_lt w.confidence.isLt]
  · rw [publishTimestamp, unsigned, ht, Bytes.toNat_ofNat_of_lt w.publishTimestamp.isLt]
  · rw [sequence, unsigned, hs, Bytes.toNat_ofNat_of_lt hn]
  · rw [unsigned, hse, Bytes.toNat_ofNat_of_lt w.session.isLt]
  · rw [unsigned, hst, Bytes.toNat_ofNat_of_lt]
    unfold tradingStatus
    split <;> decide
  · rw [unsigned, ha]; decide

end SnapshotBytes

end Equinox
