import Equinox.Market.Core

/-! # Reading and writing a market

The lifecycle gates of the handlers, the two ways a seat is read, and the ring
of event records. Each write changes one component and leaves the others alone.
-/

namespace Equinox

open Foundation CritBit Function

variable {α : Type} {m m' : Market}

/-! ## Lifecycle gates -/

/-- Never delegated, or restored after undelegation. -/
def DelegationStatus.isOnL1 : DelegationStatus → Bool
  | .notDelegated | .restored => true
  | .delegated | .undelegating => false

def validateActiveCore (core : MarketCore) : Except ProgramError Unit :=
  require (core.initialized = true ∧ core.mode = 1 ∧ core.delegationStatus.isOnL1 = true ∧
    core.commitPhase = .idle) bundleError

def validateSeatCore (core : MarketCore) : Except ProgramError Unit :=
  require (core.initialized = true ∧ core.mode = 1 ∧
    (core.delegationStatus.isOnL1 = true ∨ core.delegationStatus = .delegated) ∧
    core.commitPhase = .idle) bundleError

def validateEventCore (core : MarketCore) : Except ProgramError Unit :=
  require (core.initialized = true ∧ core.mode = 1 ∧ core.delegationStatus ≠ .undelegating ∧
    core.commitPhase ≠ .undelegating) bundleError

/-- The undelegation callback has handed the core back and restoration awaits finalization. -/
def MarketCore.isReturned (core : MarketCore) : Bool :=
  core.delegationStatus = .undelegating && core.commitPhase = .undelegating

/-- The header bytes of a page that its owner may not have touched. -/
def BookPage.headerBlank (page : BookPage) : Bool :=
  page.fixedRoot = 0 && page.peggedRoot = 0 && page.freeHead = 0 && page.freeCount = 0 &&
    page.bumpIndex = 0

def PagedBookV3.headersValid (b : PagedBookV3) : Bool :=
  b.freeCount ≤ bookSlotsPerSide && b.bumpIndex ≤ bookSlotsPerSide &&
    (List.range (bookPagesPerSide - 1)).all fun page => (b.pages (page + 1)).headerBlank

def validateExecutionBundleInner (allowReturnedCore : Bool) (m : Market) :
    Except ProgramError Unit := do
  require (m.core.initialized = true ∧ m.core.riskConfigVersion = v3RiskConfigVersion ∧
    m.core.mode ≤ 2) bundleError
  require (m.core.commitPhase = .idle ∨ (allowReturnedCore = true ∧ m.core.isReturned = true))
    (custom .magicBlockUndelegationInProgress)
  require ((m.books .bid).headersValid = true ∧ (m.books .ask).headersValid = true) bundleError

def validateExecutionBundle : Market → Except ProgramError Unit :=
  validateExecutionBundleInner false

theorem validateExecutionBundle_eq_ok (h : validateExecutionBundle m = .ok ()) :
    m.core.initialized = true ∧ m.core.riskConfigVersion = v3RiskConfigVersion ∧
      m.core.mode ≤ 2 ∧ m.core.commitPhase = .idle := by
  simp only [validateExecutionBundle, validateExecutionBundleInner, bind_eq_ok, require_eq_ok] at h
  obtain ⟨⟨⟩, ⟨hi, hv, hm⟩, ⟨⟩, hp, -⟩ := h
  exact ⟨hi, hv, hm, hp.resolve_right (by simp)⟩

/-! ## Seats -/

def v3TradeSeat (m : Market) (seatIndex : ℕ) : Except ProgramError TraderSeat := do
  require (seatIndex < v3SeatCount) (custom .invalidSeat)
  let seat := m.seats seatIndex
  require (seat.occupancy = true ∧ seat.trader ≠ 0) (custom .invalidSeat)
  pure seat

variable {i : ℕ} {seat : TraderSeat}

theorem v3TradeSeat_eq_ok :
    v3TradeSeat m i = .ok seat ↔
      i < v3SeatCount ∧ seat.occupancy = true ∧ seat.trader ≠ 0 ∧ m.seats i = seat := by
  simp only [v3TradeSeat, ok_rules, require_eq_ok]
  constructor
  · rintro ⟨⟨⟩, hi, ⟨⟩, ⟨ho, ht⟩, rfl⟩
    exact ⟨hi, ho, ht, rfl⟩
  · rintro ⟨hi, ho, ht, rfl⟩
    exact ⟨(), hi, (), ⟨ho, ht⟩, rfl⟩

def Market.withSeat (m : Market) (seatIndex : ℕ) (seat : TraderSeat) : Market :=
  { m with seats := update m.seats seatIndex seat }

def writeV3Seat (seatIndex : ℕ) (seat : TraderSeat) : MarketM Unit :=
  modify (·.withSeat seatIndex seat)

variable {u : Unit}

@[simp] theorem run_writeV3Seat :
    writeV3Seat i seat m = .ok u m' ↔ m.withSeat i seat = m' := run_modify_eq_ok

theorem run_writeV3Seat_bind {β : Type} {k : Unit → MarketM β} {b : β} :
    (writeV3Seat i seat >>= k) m = .ok b m' ↔ k () (m.withSeat i seat) = .ok b m' := run_modify_bind

section WithSeat

variable {i j : ℕ} {seat : TraderSeat}

@[simp] theorem Market.core_withSeat : (m.withSeat i seat).core = m.core := rfl

@[simp] theorem Market.books_withSeat : (m.withSeat i seat).books = m.books := rfl

@[simp] theorem Market.sessions_withSeat : (m.withSeat i seat).sessions = m.sessions := rfl

@[simp] theorem Market.seats_withSeat_self : (m.withSeat i seat).seats i = seat := update_self ..

theorem Market.seats_withSeat_of_ne (h : j ≠ i) : (m.withSeat i seat).seats j = m.seats j :=
  update_of_ne h ..

end WithSeat

/-! ## Books and the core -/

def onBook (side : Side) (x : BookM α) : MarketM α := fun m =>
  match x (m.books side) with
  | .ok a b => .ok a { m with books := update m.books side b }
  | .error e b => .error e { m with books := update m.books side b }

theorem run_onBook_eq_ok {side : Side} {x : BookM α} {a : α} :
    onBook side x m = .ok a m' ↔ ∃ b, x (m.books side) = .ok a b ∧
      m' = { m with books := update m.books side b } := by
  unfold onBook
  split
  · rename_i a' b h
    simp only [h, EStateM.Result.ok.injEq]
    constructor
    · rintro ⟨rfl, rfl⟩
      exact ⟨b, ⟨rfl, rfl⟩, rfl⟩
    · rintro ⟨_, ⟨rfl, rfl⟩, rfl⟩
      exact ⟨rfl, rfl⟩
  · rename_i h
    simp [h]

def modifyCore (f : MarketCore → MarketCore) : MarketM Unit :=
  modify fun m => { m with core := f m.core }

@[simp] theorem run_modifyCore {f : MarketCore → MarketCore} :
    modifyCore f m = .ok u m' ↔ { m with core := f m.core } = m' := run_modify_eq_ok

theorem run_modifyCore_bind {β : Type} {f : MarketCore → MarketCore} {k : Unit → MarketM β}
    {b : β} :
    (modifyCore f >>= k) m = .ok b m' ↔ k () { m with core := f m.core } = .ok b m' :=
  run_modify_bind

/-! ## Events -/

/-- Append a record to the ring; the core's sequence decides its slot. -/
def appendEventRecord (kind : EventKind) (payload : EventPayload) (timestamp : ℕ) :
    MarketM Unit := do
  let core ← asking (·.core)
  validateEventCore core
  let sequence := core.globalEventSequence
  let next ← checkedU64 (custom .arithmeticOverflow) (sequence + 1)
  modifyCore fun core => { core with globalEventSequence := next }
  let shard := sequence / v3EventsPerShard % v3EventShards
  let slot := sequence % v3EventsPerShard
  modify fun m => { m with events := fun i j =>
    if i = shard ∧ j = slot then some { kind, sequence, timestamp, payload } else m.events i j }

/-- Nothing happened but the appending of events. -/
structure Market.Logged (m m' : Market) : Prop where
  core : ∃ sequence, m'.core = { m.core with globalEventSequence := sequence }
  books : m'.books = m.books
  seats : m'.seats = m.seats
  sessions : m'.sessions = m.sessions

theorem Market.Logged.refl (m : Market) : m.Logged m := ⟨⟨_, rfl⟩, rfl, rfl, rfl⟩

theorem Market.Logged.trans {m₁ m₂ m₃ : Market} (h : m₁.Logged m₂) (h' : m₂.Logged m₃) :
    m₁.Logged m₃ := by
  obtain ⟨⟨s, hs⟩, hb, hse, hss⟩ := h
  obtain ⟨⟨s', hs'⟩, hb', hse', hss'⟩ := h'
  exact ⟨⟨s', by rw [hs', hs]⟩, hb'.trans hb, hse'.trans hse, hss'.trans hss⟩

def Market.appended (m : Market) (kind : EventKind) (payload : EventPayload) (timestamp : ℕ) :
    Market :=
  { m with
    core := { m.core with globalEventSequence := m.core.globalEventSequence + 1 }
    events := fun i j =>
      if i = m.core.globalEventSequence / v3EventsPerShard % v3EventShards ∧
          j = m.core.globalEventSequence % v3EventsPerShard then
        some { kind, sequence := m.core.globalEventSequence, timestamp, payload }
      else m.events i j }

variable {t : ℕ}

theorem appendEventRecord_eq_ok {kind : EventKind} {payload : EventPayload} :
    appendEventRecord kind payload t m = .ok u m' ↔ validateEventCore m.core = .ok () ∧
      m.core.globalEventSequence + 1 < 2 ^ 64 ∧ m.appended kind payload t = m' := by
  simp only [appendEventRecord, run_asking_bind, run_lift_bind, exists_checkedU64,
    run_modifyCore_bind, run_modify_eq_ok]
  constructor
  · rintro ⟨_, hv, hs, h⟩
    exact ⟨hv, hs, h⟩
  · rintro ⟨hv, hs, h⟩
    exact ⟨(), hv, hs, h⟩

theorem logged_of_appendEventRecord {kind : EventKind} {payload : EventPayload}
    (h : appendEventRecord kind payload t m = .ok u m') :
    validateEventCore m.core = .ok () ∧ m.Logged m' := by
  obtain ⟨hv, -, rfl⟩ := appendEventRecord_eq_ok.1 h
  exact ⟨hv, ⟨_, rfl⟩, rfl, rfl, rfl⟩

def appendEventRecords (records : List (EventKind × EventPayload)) (timestamp : ℕ) :
    MarketM Unit :=
  records.forM fun record => appendEventRecord record.1 record.2 timestamp

theorem logged_of_appendEventRecords {records : List (EventKind × EventPayload)}
    (h : appendEventRecords records t m = .ok u m') : m.Logged m' := by
  induction records generalizing m with
  | nil =>
    obtain ⟨-, rfl⟩ := run_pure_eq_ok.1 h
    exact .refl m
  | cons record records ih =>
    obtain ⟨m₁, h₁, h⟩ := run_forM_cons.1 h
    exact (logged_of_appendEventRecord h₁).2.trans (ih h)

end Equinox
