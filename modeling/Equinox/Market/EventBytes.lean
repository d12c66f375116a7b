import Equinox.Foundation.Ring
import Equinox.Market.CoreBytes

/-! # The event ring in the shards' bytes

Events are records of 100 bytes in four shard accounts of 32 slots. The core's
event sequence numbers them and decides where each one goes: the shards together
are one ring of 128 cells. The record model of the market's events is the same
ring.
-/

namespace Equinox

open Foundation Bytes List

/-! ## The layout -/

def v3CoreModeOffset : ℕ := 11
def v3CoreGlobalEventSequenceOffset : ℕ := 148
def v3CoreDelegationStatusOffset : ℕ := 197
def v3CoreCommitPhaseOffset : ℕ := 372
def v3CommitPhaseUndelegating : ℕ := 2
def delegationStatusUndelegating : ℕ := 2

/-- The text `STKEV003`. -/
def v3EventShardDiscriminator : Bytes := [83, 84, 75, 69, 86, 48, 48, 51]

def v3ShardHeaderSize : ℕ := 44
def eventAbiVersion : ℕ := 1
def eventHeaderSize : ℕ := 52
def eventPayloadSize : ℕ := 48
def v3EventRecordSize : ℕ := eventHeaderSize + eventPayloadSize
def v3EventShardSize : ℕ := v3ShardHeaderSize + v3EventsPerShard * v3EventRecordSize

/-- What an instruction sees of an account. -/
structure AccountView where
  address : Address
  owned : Bool
  writable : Bool
  data : Bytes
  deriving DecidableEq

/-- The core and the event shards, in the order they are passed. -/
structure EventAccounts where
  core : AccountView
  shards : List AccountView
  deriving DecidableEq

/-- The arguments of one append. -/
structure EventCall where
  kind : UInt16
  payload : Bytes
  timestamp : UInt64
  payload_length : payload.length = eventPayloadSize

/-- An event as its record has it. -/
structure StoredEvent where
  kind : ℕ
  sequence : ℕ
  market : Bytes
  timestamp : ℕ
  payload : Bytes
  deriving DecidableEq

def EventCall.event (call : EventCall) (sequence : ℕ) (core : Address) : StoredEvent where
  kind := call.kind.toNat
  sequence := sequence
  market := .ofNat 32 core
  timestamp := call.timestamp.toNat
  payload := call.payload

namespace EventBytes

open CoreBytes

def validateEventCore (core : AccountView) : Except ProgramError Address := do
  require (core.owned = true ∧ core.writable = true) bundleError
  require (core.data.length = v3MarketCoreSize ∧
    core.data.slice 0 8 = v3MarketCoreDiscriminator ∧
    core.data.slice 8 2 = .ofNat 2 v3LayoutVersion ∧ coreUnsigned core.data 10 1 = 1 ∧
    coreUnsigned core.data v3CoreModeOffset 1 = 1 ∧
    coreUnsigned core.data v3CoreDelegationStatusOffset 1 ≠ delegationStatusUndelegating ∧
    coreUnsigned core.data v3CoreCommitPhaseOffset 1 ≠ v3CommitPhaseUndelegating) bundleError
  pure core.address

def validateEventShard (account : AccountView) (core : Address) (index : ℕ) :
    Except ProgramError Unit := do
  require (account.owned = true ∧ account.writable = true) bundleError
  require (account.data.length = v3EventShardSize ∧
    account.data.slice 0 8 = v3EventShardDiscriminator ∧
    account.data.slice 8 2 = .ofNat 2 v3LayoutVersion ∧
    account.data.slice 10 1 = .ofNat 1 index ∧ account.data.slice 11 1 = .ofNat 1 0 ∧
    account.data.slice 12 32 = .ofNat 32 core) bundleError

/-- The number of the event to be appended, and the core that counts it. -/
def nextCoreEventSequence (core : Bytes) : Except ProgramError (ℕ × Bytes) := do
  let current := coreUnsigned core v3CoreGlobalEventSequenceOffset 8
  let next ← checkedU64 (.custom .arithmeticOverflow) (current + 1)
  pure (current, core.write v3CoreGlobalEventSequenceOffset (.ofNat 8 next))

def eventRecord (kind : ℕ) (payload : Bytes) (sequence : ℕ) (core : Address) (timestamp : ℕ) :
    Bytes :=
  apply (replicate v3EventRecordSize 0)
    [⟨0, .ofNat 2 kind⟩, ⟨2, .ofNat 1 eventAbiVersion⟩, ⟨4, .ofNat 8 sequence⟩,
      ⟨12, .ofNat 32 core⟩, ⟨44, .ofNat 8 timestamp⟩, ⟨52, payload⟩]

def recordOffset (slot : ℕ) : ℕ := v3ShardHeaderSize + slot * v3EventRecordSize

def appendEventRecord (accounts : EventAccounts) (call : EventCall) :
    Except ProgramError EventAccounts := do
  require (accounts.shards.length = v3EventShards ∧ accounts.core.writable = true)
    .notEnoughAccountKeys
  let coreKey ← validateEventCore accounts.core
  accounts.shards.zipIdx.forM fun (shard, index) => validateEventShard shard coreKey index
  let (sequence, core) ← nextCoreEventSequence accounts.core.data
  let shardIndex := sequence / v3EventsPerShard % v3EventShards
  let slot := sequence % v3EventsPerShard
  let record :=
    eventRecord call.kind.toNat call.payload sequence coreKey call.timestamp.toNat
  pure
    { core := { accounts.core with data := core }
      shards := accounts.shards.modify shardIndex fun shard =>
        { shard with data := shard.data.write (recordOffset slot) record } }

def appendAll (accounts : EventAccounts) (calls : List EventCall) :
    Except ProgramError EventAccounts :=
  calls.foldlM appendEventRecord accounts

/-! ## What is stored -/

/-- The event in a slot's bytes. A slot that was never written has no version in it. -/
def readEvent (record : Bytes) : Option StoredEvent :=
  if record.slice 2 1 = .ofNat 1 eventAbiVersion then
    some
      { kind := (record.slice 0 2).toNat
        sequence := (record.slice 4 8).toNat
        market := record.slice 12 32
        timestamp := (record.slice 44 8).toNat
        payload := record.slice 52 eventPayloadSize }
  else none

def slotBytes (shard : AccountView) (slot : ℕ) : Bytes :=
  shard.data.slice (recordOffset slot) v3EventRecordSize

def eventAt (accounts : EventAccounts) (shard slot : ℕ) : Option StoredEvent := do
  readEvent (slotBytes (← accounts.shards[shard]?) slot)

def header (accounts : EventAccounts) (index : ℕ) : Option Bytes :=
  accounts.shards[index]?.map fun shard => shard.data.slice 0 v3ShardHeaderSize

def eventSequence (accounts : EventAccounts) : ℕ :=
  coreUnsigned accounts.core.data v3CoreGlobalEventSequenceOffset 8

def ringSize : ℕ := v3EventsPerShard * v3EventShards

def ring (accounts : EventAccounts) : LogRing StoredEvent :=
  .ofRows v3EventShards v3EventsPerShard (eventSequence accounts) (eventAt accounts)

def Blank (accounts : EventAccounts) : Prop :=
  ∀ shard ∈ accounts.shards, shard.data.drop v3ShardHeaderSize =
    replicate (v3EventsPerShard * v3EventRecordSize) 0

instance (accounts : EventAccounts) : Decidable (Blank accounts) :=
  inferInstanceAs (Decidable (∀ shard ∈ accounts.shards, _))

/-! ## Records -/

variable {call : EventCall} {sequence : ℕ} {core : Address}

@[simp] theorem length_eventRecord {kind timestamp : ℕ} {payload : Bytes} :
    (eventRecord kind payload sequence core timestamp).length = v3EventRecordSize := by
  rw [eventRecord, length_apply, length_replicate]

theorem readEvent_eventRecord (hs : sequence < 2 ^ 64) :
    readEvent (eventRecord call.kind.toNat call.payload sequence core call.timestamp.toNat) =
      some (call.event sequence core) := by
  have hr : ∀ p ∈ ([⟨0, .ofNat 2 call.kind.toNat⟩, ⟨2, .ofNat 1 eventAbiVersion⟩,
      ⟨4, .ofNat 8 sequence⟩, ⟨12, .ofNat 32 core⟩, ⟨44, .ofNat 8 call.timestamp.toNat⟩,
      ⟨52, call.payload⟩] : List Patch),
      slice (eventRecord call.kind.toNat call.payload sequence core call.timestamp.toNat)
        p.offset p.data.length = p.data := by
    intro p hp
    rw [eventRecord]
    exact slice_apply_of_mem
      (by simp [Patch.region, Region.Within, call.payload_length]; decide)
      (by simp [Patch.region, Region.Apart, call.payload_length]) hp
  simp only [forall_mem_cons, not_mem_nil, false_imp_iff, implies_true, and_true,
    length_ofNat, call.payload_length] at hr
  obtain ⟨hk, hv, hn, hm, ht, hpa⟩ := hr
  rw [readEvent, if_pos hv, hk, hn, hm, ht, hpa,
    toNat_ofNat_of_lt call.kind.toNat_lt, toNat_ofNat_of_lt hs,
    toNat_ofNat_of_lt call.timestamp.toNat_lt, EventCall.event]

/-! ## Appending -/

variable {accounts accounts' : EventAccounts}

/-- The accounts an append works on. -/
structure Usable (accounts : EventAccounts) : Prop where
  shards : accounts.shards.length = v3EventShards
  core : validateEventCore accounts.core = .ok accounts.core.address
  shard : ∀ index shard, accounts.shards[index]? = some shard →
    validateEventShard shard accounts.core.address index = .ok ()

def appended (accounts : EventAccounts) (call : EventCall) : EventAccounts where
  core := { accounts.core with
    data := accounts.core.data.write v3CoreGlobalEventSequenceOffset
      (.ofNat 8 (eventSequence accounts + 1)) }
  shards := accounts.shards.modify (eventSequence accounts / v3EventsPerShard % v3EventShards)
    fun shard => { shard with
      data := shard.data.write (recordOffset (eventSequence accounts % v3EventsPerShard))
        (eventRecord call.kind.toNat call.payload (eventSequence accounts) accounts.core.address
          call.timestamp.toNat) }

theorem validateEventCore_eq {view : AccountView} {key : Address}
    (h : validateEventCore view = .ok key) :
    key = view.address ∧ view.writable = true ∧ view.data.length = v3MarketCoreSize := by
  simp only [validateEventCore, ok_rules] at h
  exact ⟨h.2.2.symm, h.1.2, h.2.1.1⟩

theorem validateEventShard_size {view : AccountView} {index : ℕ}
    (h : validateEventShard view core index = .ok ()) : view.data.length = v3EventShardSize := by
  simp only [validateEventShard, ok_rules] at h
  exact (require_eq_ok.1 h.2).1

theorem appendEventRecord_eq_ok : appendEventRecord accounts call = .ok accounts' ↔
    Usable accounts ∧ eventSequence accounts + 1 < 2 ^ 64 ∧ appended accounts call = accounts' := by
  simp only [appendEventRecord, nextCoreEventSequence, ok_rules, forM_eq_ok, Prod.forall,
    mem_zipIdx_iff_getElem?, checkedU64_eq_ok]
  constructor
  · rintro ⟨⟨hco, -⟩, key, hc, -, hs, _, ⟨next, ⟨hn, rfl⟩, rfl⟩, rfl⟩
    obtain ⟨rfl, -⟩ := validateEventCore_eq hc
    exact ⟨⟨hco, hc, fun index shard h => hs shard index h⟩, hn, rfl⟩
  · rintro ⟨⟨hco, hc, hs⟩, hn, rfl⟩
    exact ⟨⟨hco, (validateEventCore_eq hc).2.1⟩, _, hc, (),
      fun shard index h => hs index shard h, _, ⟨_, ⟨hn, rfl⟩, rfl⟩, rfl⟩

end EventBytes

end Equinox
