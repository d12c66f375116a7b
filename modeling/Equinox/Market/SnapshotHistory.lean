import Equinox.Market.SnapshotBytes

/-! # The history of a snapshot

Over any calls of the writer on a snapshot that was created for a market, the
accepted prices are numbered 1, 2, 3, … in the order of their publish times, and
nothing else of the snapshot moves. The price that was accepted last is fresh for
ten seconds, unless its session was closed, and is never forgotten. The record
model of the snapshot decides as the bytes do.
-/

namespace Equinox

open Foundation List

namespace SnapshotBytes

variable {identity : SnapshotIdentity} {w : VerifiedPrice} {bytes bytes' : Bytes} {next : ℕ}

/-! ## Accepted writes -/

theorem nextSequence_of_initialized (h : Initialized bytes) {timestamp : ℕ} :
    nextSequence timestamp bytes = .ok next ↔
      publishTimestamp bytes < timestamp ∧ sequence bytes + 1 < 2 ^ 64 ∧
        sequence bytes + 1 = next := by
  rw [nextSequence, if_pos (by exact h)]
  simp only [ok_rules, checkedU64_eq_ok]

theorem Reads.toInitialized (h : Reads bytes w next) : Initialized bytes :=
  ⟨h.size, h.discriminator, h.initialized⟩

theorem reads_of_writeVerified (hb : Initialized bytes)
    (h : writeVerified w bytes = .ok () bytes') :
    Plausible w ∧ publishTimestamp bytes < w.publishTimestamp ∧
      Reads bytes' w (sequence bytes + 1) ∧ bytes' = written w (sequence bytes + 1) := by
  obtain ⟨hplaus, -, -, next, hnext, rfl⟩ := writeVerified_eq_ok.1 h
  obtain ⟨hn, hr, rfl⟩ := (nextSequence_of_initialized hb).1 hnext
  exact ⟨hplaus, hn, reads_written hr, rfl⟩

theorem tradingStatus_eq_open {session : ℕ} (h : session ≤ 4) :
    tradingStatus session = statusOpen ↔ session ≠ 4 := by
  rw [tradingStatus]
  split
  · exact iff_of_true rfl (by omega)
  · exact iff_of_false (by decide) (by omega)

section Readers

variable (h : Reads bytes w next) (hplaus : Plausible w) (hnext : next ≠ 0)

include h hplaus hnext

/-- A price that was written is fresh as long as its session is open and ten seconds have not
passed. -/
theorem Reads.validateForCore_iff {now : U64} (hn : w.publishTimestamp.val ≤ now + 2) :
    validateForCore bytes w.identity now = .ok () ↔
      w.session.val ≠ 4 ∧ now.val ≤ w.publishTimestamp + 10 := by
  obtain ⟨hp, hc, -, -, hs⟩ := hplaus
  simp only [validateForCore, validate, bind_eq_ok, require_eq_ok, h.size,
    h.discriminator, h.version, h.initialized, h.core, h.authenticated, h.revision,
    h.tradingStatus, h.sequence, h.price, h.confidence, h.publishTimestamp, h.feedId, h.channel,
    h.exponent, true_and, and_true, exists_const, and_self, tradingStatus_eq_open hs,
    hnext, hp, hc, le_saturatingAdd (Fin.is_lt _), hn, ne_eq, not_false_eq_true]

theorem Reads.lastVerifiedPrice_eq : lastVerifiedPrice bytes w.identity = .ok w.price.val := by
  have hp := hplaus.1
  simp only [lastVerifiedPrice, ok_rules, h.size, h.discriminator, h.version, h.initialized, h.core,
    h.authenticated, h.revision, h.sequence, h.price, h.feedId, h.channel, h.exponent, hnext, hp,
    ne_eq, not_false_eq_true, and_self]

end Readers

/-! ## Histories -/

/-- One call of the writer: the bytes it leaves, and the log with an accepted price and its number
added. -/
def record (state : Bytes × List (VerifiedPrice × ℕ)) (w : VerifiedPrice) :
    Bytes × List (VerifiedPrice × ℕ) :=
  match writeVerified w state.1 with
  | .ok _ bytes => (bytes, state.2 ++ [(w, sequence bytes)])
  | .error _ bytes => (bytes, state.2)

/-- The calls of a list, in order, whether accepted or refused. -/
def history (bytes : Bytes) (writes : List VerifiedPrice) : Bytes × List (VerifiedPrice × ℕ) :=
  writes.foldl record (bytes, [])

/-- The bytes that say what the snapshot is and whose. -/
def identityBytes (bytes : Bytes) : Bytes :=
  bytes.slice 0 offsetPrice ++ bytes.slice offsetRevision 1

theorem history_nil (bytes : Bytes) : history bytes [] = (bytes, []) := rfl

theorem history_snoc (bytes : Bytes) (writes : List VerifiedPrice) (w : VerifiedPrice) :
    history bytes (writes ++ [w]) = record (history bytes writes) w := by
  rw [history, foldl_append]
  rfl

theorem record_cases (state : Bytes × List (VerifiedPrice × ℕ)) (w : VerifiedPrice) :
    (∃ bytes, writeVerified w state.1 = .ok () bytes ∧
      record state w = (bytes, state.2 ++ [(w, sequence bytes)])) ∨ record state w = state := by
  unfold record
  cases h : writeVerified w state.1 with
  | ok u bytes => exact .inl ⟨bytes, rfl, rfl⟩
  | error e bytes =>
    obtain rfl : bytes = state.1 := writeVerified_failsClean.eq_of_error h
    exact .inr rfl

/-- The snapshot as the log of its accepted prices has it. -/
structure Tracks (state : Bytes × List (VerifiedPrice × ℕ)) : Prop where
  initialized : Initialized state.1
  sequence : sequence state.1 = state.2.length
  numbered : state.2.map Prod.snd = range' 1 state.2.length
  ascending : (state.2.map (·.1.publishTimestamp.val)).Pairwise (· < ·)
  latest : ∀ x ∈ state.2, x.1.publishTimestamp.val ≤ publishTimestamp state.1

theorem Tracks.record {state : Bytes × List (VerifiedPrice × ℕ)} (h : Tracks state)
    (w : VerifiedPrice) : Tracks (record state w) := by
  rcases record_cases state w with ⟨bytes, hw, hre⟩ | hre
  swap
  · rwa [hre]
  rw [hre]
  obtain ⟨-, hn, hr, -⟩ := reads_of_writeVerified h.initialized hw
  have holder : ∀ x ∈ state.2, x.1.publishTimestamp.val < w.publishTimestamp := fun x hx =>
    (h.latest x hx).trans_lt hn
  refine ⟨hr.toInitialized, ?_, ?_, ?_, ?_⟩
  · rw [hr.sequence, h.sequence, length_append, length_singleton]
  · simp only [map_append, map_singleton, length_append, length_singleton,
      h.numbered, hr.sequence, h.sequence, range'_concat, one_mul]
    rw [add_comm]
  · simp only [map_append, map_singleton, pairwise_append, h.ascending,
      pairwise_singleton, true_and, mem_singleton, mem_map]
    rintro _ ⟨x, hx, rfl⟩ _ rfl
    exact holder x hx
  · intro x hx
    rw [hr.publishTimestamp]
    rcases mem_append.1 hx with hx | hx
    · exact (holder x hx).le
    · obtain rfl := mem_singleton.1 hx
      exact le_rfl

/-! ## From its creation on -/

@[irreducible] def created (identity : SnapshotIdentity) : Bytes :=
  Bytes.apply (replicate oracleSnapshotSize 0) (identityPatches identity)

theorem region_identityPatches :
    (identityPatches identity).map Bytes.Patch.region = writtenRegions.take 8 := by
  simp only [identityPatches, writtenRegions, Bytes.Patch.region, map_cons, map_nil,
    Bytes.length_ofNat, Bytes.length_ofInt, take_succ_cons, take_zero]
  rfl

theorem slice_created (identity : SnapshotIdentity) : ∀ p ∈ identityPatches identity,
    (created identity).slice p.offset p.data.length = p.data := by
  intro p hp
  rw [created]
  refine Bytes.slice_apply_of_mem ?_ ?_ hp <;> rw [region_identityPatches]
  · rw [length_replicate]
    decide
  · decide

@[simp] theorem length_created : (created identity).length = oracleSnapshotSize := by
  rw [created, Bytes.length_apply, length_replicate]

theorem unsigned_created {offset width : ℕ}
    (h : ∀ r ∈ writtenRegions.take 8, r.Apart ⟨offset, width⟩) :
    unsigned (created identity) offset width = 0 := by
  rw [unsigned, created, Bytes.slice_apply_of_apart
    (by rw [region_identityPatches, length_replicate]; decide)
    (by rwa [region_identityPatches]), Bytes.slice, drop_replicate, take_replicate]
  exact Bytes.toNat_replicate_zero _

theorem initialized_created : Initialized (created identity) := by
  have h := slice_created identity
  simp only [identityPatches, forall_mem_cons, Bytes.length_ofNat] at h
  obtain ⟨hd, -, hi, -⟩ := h
  refine ⟨length_created, hd, ?_⟩
  rw [unsigned, hi]
  decide

theorem sequence_created : sequence (created identity) = 0 := by
  rw [sequence]
  exact unsigned_created (by decide)

theorem tracks_created : Tracks (created identity, []) := by
  refine ⟨initialized_created, sequence_created, rfl, .nil, ?_⟩
  intro x hx
  cases hx

theorem tracks_history (identity : SnapshotIdentity) (writes : List VerifiedPrice) :
    Tracks (history (created identity) writes) := by
  induction writes using reverseRecOn with
  | nil => simpa only [history, foldl_nil] using tracks_created
  | append_singleton writes w ih =>
    rw [history_snoc]
    exact ih.record w

theorem identityBytes_written : identityBytes (written w next) =
    identityBytes (created w.identity) := by
  have hw : written w next = (created w.identity).apply (pricePatches w next) := by
    rw [written, created, Bytes.apply, foldl_append]
    rfl
  have hr : (pricePatches w next).map Bytes.Patch.region = writtenRegions.drop 8 := by
    simp only [pricePatches, writtenRegions, Bytes.Patch.region, map_cons, map_nil,
      Bytes.length_ofNat, Bytes.length_ofInt, drop_succ_cons, drop_zero]
  have hin : ∀ r ∈ (pricePatches w next).map Bytes.Patch.region,
      r.Within (created w.identity).length := by
    rw [hr, length_created]
    decide
  rw [identityBytes, identityBytes, hw,
    Bytes.slice_apply_of_apart hin (by rw [hr]; decide),
    Bytes.slice_apply_of_apart hin (by rw [hr]; decide)]

theorem identityBytes_history {writes : List VerifiedPrice}
    (h : ∀ w ∈ writes, w.identity = identity) :
    identityBytes (history (created identity) writes).1 = identityBytes (created identity) := by
  induction writes using reverseRecOn with
  | nil => exact congrArg (fun state => identityBytes state.1) (history_nil _)
  | append_singleton writes w ih =>
    rw [history_snoc]
    have ht := tracks_history identity writes
    rcases record_cases (history (created identity) writes) w with
      ⟨bytes, hw, hr⟩ | hr
    · have hb := (reads_of_writeVerified ht.initialized hw).2.2.2
      rw [hr, hb, identityBytes_written, h w (by simp)]
    · rw [hr]
      exact ih fun w' hw' => h w' (by simp [hw'])

/-- Over any calls of the writer on a snapshot created for a market: accepted prices have ascending
publish times and the numbers 1, 2, 3, …, a refused call changes no byte, writes for the market
leave the identity's bytes, and whatever is accepted next is what the readers find. -/
theorem snapshot_history (hcreated : initializeSnapshot identity bytes = .ok () bytes')
    (writes : List VerifiedPrice) :
    ((history bytes' writes).2.map (·.1.publishTimestamp.val)).Pairwise (· < ·) ∧
    (history bytes' writes).2.map Prod.snd = range' 1 (history bytes' writes).2.length ∧
    (∀ w e after, writeVerified w (history bytes' writes).1 = .error e after →
      after = (history bytes' writes).1) ∧
    ((∀ w ∈ writes, w.identity = identity) →
      identityBytes (history bytes' writes).1 = identityBytes bytes') ∧
    ∀ w after, writeVerified w (history bytes' writes).1 = .ok () after →
      (∀ now : U64, w.publishTimestamp.val ≤ now + 2 →
        (validateForCore after w.identity now = .ok () ↔
          w.session.val ≠ 4 ∧ now.val ≤ w.publishTimestamp + 10)) ∧
      lastVerifiedPrice after w.identity = .ok w.price.val := by
  obtain ⟨-, -, h⟩ := initializeSnapshot_eq_ok.1 hcreated
  obtain rfl : bytes' = created identity := by rw [← h, created]
  have ht := tracks_history identity writes
  refine ⟨ht.ascending, ht.numbered,
    fun w e after => writeVerified_failsClean.eq_of_error, identityBytes_history,
    fun w after hw => ?_⟩
  obtain ⟨hplaus, -, hr, -⟩ := reads_of_writeVerified ht.initialized hw
  exact ⟨fun now hn => hr.validateForCore_iff hplaus (Nat.succ_ne_zero _) hn,
    hr.lastVerifiedPrice_eq hplaus (Nat.succ_ne_zero _)⟩

/-- A market's identity and its first two prices, the second of a closed session. -/
def sampleIdentity : SnapshotIdentity where
  core := 7
  feedId := 1435
  channel := 2
  exponent := ⟨-5, by decide⟩

def samplePrice (price : I64) (publishTimestamp : U64) (session : Fin 256) : VerifiedPrice where
  identity := sampleIdentity
  price := price
  confidence := 10
  publishTimestamp := publishTimestamp
  session := session
  now := publishTimestamp

theorem snapshot_history_sample : ∃ after,
    writeVerified (samplePrice 1010 1001 4)
      (history (created sampleIdentity) [samplePrice 1000 1000 0]).1 = .ok () after ∧
    lastVerifiedPrice after sampleIdentity = .ok 1010 ∧
    validateForCore after sampleIdentity 1001 ≠ .ok () := by
  have hc : initializeSnapshot sampleIdentity (replicate 128 0) = .ok () (created sampleIdentity) :=
    initializeSnapshot_eq_ok.2 ⟨rfl, by decide, by rw [created]⟩
  obtain ⟨-, -, -, -, hnext⟩ := snapshot_history hc [samplePrice 1000 1000 0]
  have hr : isOk (writeVerified (samplePrice 1010 1001 4)
      (history (created sampleIdentity) [samplePrice 1000 1000 0]).1) = true := by
    decide +kernel
  have hw := eq_ok_of_isOk hr
  obtain ⟨hf, hp⟩ := hnext _ _ hw
  exact ⟨_, hw, hp, fun h => ((hf 1001 (by decide)).1 h).1 rfl⟩

/-! ## The record model -/

/-- The bytes hold the fields of a record. -/
structure Represents (bytes : Bytes) (s : OracleSnapshot) : Prop where
  size : bytes.length = oracleSnapshotSize
  discriminator : bytes.slice 0 8 = oracleSnapshotDiscriminator
  version : unsigned bytes offsetVersion 2 = s.version
  initialized : unsigned bytes offsetInitialized 1 = 1 ↔ s.initialized = true
  core : ∀ core < 2 ^ 256, bytes.slice offsetCore 32 = .ofNat 32 core ↔ s.core = core
  feedId : unsigned bytes offsetFeedId 4 = s.feedId
  channel : unsigned bytes offsetChannel 1 = s.channel
  exponent : (bytes.slice offsetExponent 4).toInt = s.exponent
  price : price bytes = s.price.val
  confidence : unsigned bytes offsetConfidence 8 = s.confidence
  publishTimestamp : publishTimestamp bytes = s.publishTimestamp
  sequence : sequence bytes = s.sequence
  tradingStatus : unsigned bytes offsetTradingStatus 1 = s.tradingStatus
  authenticated : unsigned bytes offsetAuthenticated 1 = 1 ↔ s.authenticated = true
  revision : unsigned bytes offsetRevision 1 = s.revision

/-- The core that a snapshot's identity is for. -/
structure Identifies (identity : SnapshotIdentity) (core : MarketCore) : Prop where
  address : core.address = identity.core
  bounded : identity.core < 2 ^ 256
  feedId : core.oracleFeedId = identity.feedId
  channel : core.oracleChannel = identity.channel
  exponent : core.oracleExponent = identity.exponent.val

theorem publishTimestamp_lt : publishTimestamp bytes < 2 ^ 64 :=
  Bytes.toNat_slice_lt bytes offsetPublishTimestamp 8

section Records

variable {s : OracleSnapshot} {core : MarketCore} (h : Represents bytes s)
  (hcore : Identifies identity core)

include h hcore

theorem Represents.validateForCore_eq {now : ℕ} (hn : now < 2 ^ 64) :
    validateForCore bytes identity now = s.validateForCore core now := by
  have ht : s.publishTimestamp < 2 ^ 64 := h.publishTimestamp ▸ publishTimestamp_lt
  simp only [validateForCore, validate, OracleSnapshot.validateForCore, OracleSnapshot.validate,
    h.size, h.discriminator, h.version, h.initialized, h.core _ hcore.bounded, h.feedId, h.channel,
    h.exponent, h.price, h.confidence, h.publishTimestamp, h.sequence, h.tradingStatus,
    h.authenticated, h.revision, hcore.address, hcore.feedId, hcore.channel, hcore.exponent,
    le_saturatingAdd ht, le_saturatingAdd hn, true_and]
  rfl

theorem Represents.lastVerifiedPrice_eq :
    lastVerifiedPrice bytes identity = (s.lastVerifiedPrice core).map Subtype.val := by
  simp only [lastVerifiedPrice, OracleSnapshot.lastVerifiedPrice, oracleSnapshotVersion,
    OracleSnapshot.snapshotVersion, h.size, h.discriminator, h.version, h.initialized,
    h.core _ hcore.bounded, h.feedId, h.channel, h.exponent, h.price, h.sequence,
    h.authenticated, h.revision, hcore.address, hcore.feedId, hcore.channel, hcore.exponent,
    true_and]
  unfold require
  split <;> split <;> rfl

end Records

def recordOf (w : VerifiedPrice) (next : ℕ) : OracleSnapshot where
  version := oracleSnapshotVersion
  initialized := true
  core := w.identity.core
  feedId := w.identity.feedId
  channel := w.identity.channel
  exponent := w.identity.exponent.val
  price := w.price
  confidence := w.confidence
  publishTimestamp := w.publishTimestamp
  sequence := next
  session := w.session
  tradingStatus := tradingStatus w.session
  authenticated := true
  revision := 1

theorem Reads.represents (h : Reads bytes w next) (hcore : w.identity.core < 2 ^ 256) :
    Represents bytes (recordOf w next) := by
  refine ⟨h.size, h.discriminator, h.version, iff_of_true h.initialized rfl, ?_, h.feedId,
    h.channel, h.exponent, h.price, h.confidence, h.publishTimestamp, h.sequence, h.tradingStatus,
    iff_of_true h.authenticated rfl, h.revision⟩
  intro core hb
  rw [h.core]
  constructor
  · intro heq
    have hn := congrArg Bytes.toNat heq
    rwa [Bytes.toNat_ofNat_of_lt hcore, Bytes.toNat_ofNat_of_lt hb] at hn
  · rintro rfl
    rfl

/-- An accepted price leaves the record with that price and the next number, and both readers find
in the bytes what the handlers find in the record. -/
theorem history_represents {core : MarketCore} {writes : List VerifiedPrice}
    (hc : initializeSnapshot identity bytes = .ok () bytes') (hcore : Identifies w.identity core)
    {after : Bytes} (hw : writeVerified w (history bytes' writes).1 = .ok () after) :
    let s := recordOf w ((history bytes' writes).2.length + 1)
    Represents after s ∧
    (∀ now < 2 ^ 64, validateForCore after w.identity now = s.validateForCore core now) ∧
    lastVerifiedPrice after w.identity = (s.lastVerifiedPrice core).map Subtype.val := by
  obtain ⟨-, -, h⟩ := initializeSnapshot_eq_ok.1 hc
  obtain rfl : bytes' = created identity := by rw [← h, created]
  have ht := tracks_history identity writes
  obtain ⟨-, -, hr, -⟩ := reads_of_writeVerified ht.initialized hw
  rw [ht.sequence] at hr
  have hs := hr.represents hcore.bounded
  exact ⟨hs, fun now => hs.validateForCore_eq hcore, hs.lastVerifiedPrice_eq hcore⟩

def sampleCore : MarketCore :=
  { MarketCore.blank 7 0 with oracleFeedId := 1435, oracleChannel := 2, oracleExponent := -5 }

theorem history_represents_sample : ∃ after,
    writeVerified (samplePrice 1010 1001 4)
      (history (created sampleIdentity) [samplePrice 1000 1000 0]).1 = .ok () after ∧
    Represents after (recordOf (samplePrice 1010 1001 4) 2) ∧
    validateForCore after sampleIdentity 1002 =
      (recordOf (samplePrice 1010 1001 4) 2).validateForCore sampleCore 1002 ∧
    lastVerifiedPrice after sampleIdentity = .ok 1010 := by
  have hw : isOk (writeVerified (samplePrice 1010 1001 4)
    (history (created sampleIdentity) [samplePrice 1000 1000 0]).1) = true := by decide +kernel
  have hc : initializeSnapshot sampleIdentity (replicate 128 0) = .ok () (created sampleIdentity) :=
    initializeSnapshot_eq_ok.2 ⟨rfl, by decide, by rw [created]⟩
  have hi : Identifies sampleIdentity sampleCore := ⟨rfl, by decide, rfl, rfl, rfl⟩
  have hl : (history (created sampleIdentity) [samplePrice 1000 1000 0]).2.length = 1 := by
    decide +kernel
  obtain ⟨hr, hv, hp⟩ := history_represents hc hi (eq_ok_of_isOk hw)
  rw [hl] at hr hv hp
  exact ⟨_, eq_ok_of_isOk hw, hr, hv 1002 (by decide), hp.trans (by decide +kernel)⟩

end SnapshotBytes

end Equinox
