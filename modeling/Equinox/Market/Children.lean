import Equinox.Market.Frozen

/-! # What a snapshot sees

The children of a market are its book pages, seat shards and event shards. While
a snapshot is open most handlers are refused, but inbox claims, withdrawal
requests and prices are not, and those may write a child that is already part of
the snapshot.
-/

namespace Equinox

open Foundation CritBit Function World List Market

set_option synthInstance.maxSize 1000000

variable {w w' : World} {m m' : Market} {ctx : Context} {u : Unit} {a : Action}

/-- What a child account holds. -/
inductive ChildAccount where
  | page (page : BookPage)
  | seats (seats : List TraderSeat)
  | events (events : List (Option EventRecord))

/-- The index of the shard of a seat among the children. -/
def seatChild (seatIndex : ℕ) : ℕ := 2 * bookPagesPerSide + seatIndex / v3SeatsPerShard

/-- The index of the shard that an event is recorded in. -/
def eventChild (sequence : ℕ) : ℕ :=
  2 * bookPagesPerSide + v3SeatShards + sequence / v3EventsPerShard % v3EventShards

/-- The pages of both sides, then the seats, then the events. -/
def Market.child (m : Market) (index : ℕ) : ChildAccount :=
  if index < bookPagesPerSide then .page ((m.books .bid).pages index)
  else if index < 2 * bookPagesPerSide then .page ((m.books .ask).pages (index - bookPagesPerSide))
  else if index < 2 * bookPagesPerSide + v3SeatShards then
    .seats ((range v3SeatsPerShard).map fun slot =>
      m.seats ((index - 2 * bookPagesPerSide) * v3SeatsPerShard + slot))
  else .events ((range v3EventsPerShard).map
    (m.events (index - (2 * bookPagesPerSide + v3SeatShards))))

def Market.WritesOnly (written : List ℕ) (m m' : Market) : Prop :=
  ∀ child ∉ written, m'.child child = m.child child

namespace Market.WritesOnly

variable {written written' : List ℕ} {m₁ : Market}

theorem of_eq (hb : m'.books = m.books) (hs : m'.seats = m.seats)
    (he : m'.events = m.events) : m.WritesOnly [] m' := by
  intro child _
  simp only [Market.child, hb, hs, he]

theorem trans (h : m.WritesOnly written m₁) (h' : m₁.WritesOnly written' m') :
    m.WritesOnly (written ++ written') m' := by
  intro child hc
  rw [mem_append, not_or] at hc
  rw [h' child hc.2, h child hc.1]

theorem withSeat (i : ℕ) (seat : TraderSeat) : m.WritesOnly [seatChild i] (m.withSeat i seat) := by
  intro child hc
  simp only [Market.child, Market.books_withSeat]
  split_ifs with hb ha hsh
  · rfl
  · rfl
  · congr 1
    apply map_congr_left
    intro slot hs
    apply seats_withSeat_of_ne
    rintro rfl
    simp only [mem_singleton, seatChild, v3SeatsPerShard, mem_range] at hc hs
    omega
  · rfl

theorem appended (kind : EventKind) (payload : EventPayload) (t : ℕ) :
    m.WritesOnly [eventChild m.core.globalEventSequence] (m.appended kind payload t) := by
  intro child hc
  simp only [Market.child, Market.appended]
  split_ifs with hb ha hs
  · rfl
  · rfl
  · rfl
  · congr 1
    apply map_congr_left
    intro slot _
    apply if_neg
    rintro ⟨hi, -⟩
    simp only [mem_singleton, eventChild] at hc
    omega

end Market.WritesOnly

theorem appendEventRecord_writesOnly {kind : EventKind} {payload : EventPayload} {t : ℕ}
    (h : appendEventRecord kind payload t m = .ok u m') :
    m.WritesOnly [eventChild m.core.globalEventSequence] m' := by
  obtain ⟨-, -, rfl⟩ := appendEventRecord_eq_ok.1 h
  exact .appended kind payload t

def Market.accounts (m : Market) :
    (Side → PagedBookV3) × (ℕ → TraderSeat) × (ℕ → ℕ → Option EventRecord) :=
  (m.books, m.seats, m.events)

theorem Market.WritesOnly.of_accounts (h : m'.accounts = m.accounts) : m.WritesOnly [] m' := by
  simp only [accounts, Prod.mk.injEq] at h
  exact .of_eq h.1 h.2.1 h.2.2

instance keepsAccounts_modifyCore (f : MarketCore → MarketCore) :
    Keeps accounts (modifyCore f) := .modify fun _ => rfl

instance keepsAccounts_writeSession (key : SessionKey) (session : Option TradingSession) :
    Keeps accounts (writeSession key session) := .modify fun _ => rfl

/-- The handlers that write no child whenever they are accepted. -/
def Action.isCoreOnly : Action → Bool
  | setV3Keeper .. | setV3PriceReporter .. | updateV3RiskConfig .. | delegateV3Core ..
  | commitV3Member .. | commitV3Core .. | abortV3Snapshot .. | createV3TradingSession .. => true
  | _ => false

theorem Action.keeps_accounts {x : MarketM Unit} (hx : a.handler = some x)
    (ha : a.isCoreOnly = true) : Keeps accounts x := by
  cases a <;> simp only [isCoreOnly, Bool.false_eq_true] at ha <;>
    simp only [handler, Option.some.injEq, Equinox.updateV3RiskConfig, Equinox.setV3Keeper,
      Equinox.setV3PriceReporter, setCoreKey, Equinox.delegateV3Core, Equinox.commitV3Member,
      Equinox.commitV3Core, Equinox.abortV3Snapshot, Equinox.createV3TradingSession] at hx <;>
    subst hx <;> infer_instance

section Writers

variable {i amount : ℕ}

theorem writeCredit_writesOnly {seat : TraderSeat} {t : ℕ}
    (h : writeCredit i amount seat t m = .ok u m') :
    m.WritesOnly [seatChild i, eventChild m.core.globalEventSequence] m' := by
  simp only [writeCredit, run_asking_bind, run_lift_bind, exists_checkedI128,
    run_writeV3Seat_bind, run_modifyCore_bind] at h
  have hc : (m.withSeat i seat).WritesOnly [] { m.withSeat i seat with
      core := { m.core with vaultLiability := m.core.vaultLiability + amount } } :=
    .of_eq rfl rfl rfl
  exact (WritesOnly.withSeat i seat).trans (hc.trans (appendEventRecord_writesOnly h.2))

theorem writeDebit_writesOnly {seat : TraderSeat} {liability : ℤ} {t : ℕ}
    (h : writeDebit i amount seat liability t m = .ok u m') :
    m.WritesOnly [seatChild i, eventChild m.core.globalEventSequence] m' := by
  simp only [writeDebit, run_writeV3Seat_bind, run_modifyCore_bind] at h
  have hc : (m.withSeat i seat).WritesOnly [] { m.withSeat i seat with
      core := { m.core with vaultLiability := liability } } := .of_eq rfl rfl rfl
  exact (WritesOnly.withSeat i seat).trans (hc.trans (appendEventRecord_writesOnly h))

theorem claimInboxDepositV3_writesOnly {trader : Address} {total : ℕ}
    (h : claimInboxDepositV3 ctx i trader total m = .ok amount m') :
    m.WritesOnly [seatChild i, eventChild m.core.globalEventSequence] m' := by
  simp only [claimInboxDepositV3, run_rules, exists_checkedI128] at h
  obtain ⟨_, -, -, -, -, -, -, h⟩ := h
  obtain ⟨⟨⟩, _, hc, he⟩ := run_bind_eq_ok.1 h
  obtain ⟨-, rfl⟩ := run_pure_eq_ok.1 he
  exact writeCredit_writesOnly hc

theorem requestWithdrawalV3_writesOnly
    (h : requestWithdrawalV3 ctx i amount m = .ok u m') :
    m.WritesOnly [seatChild i, eventChild m.core.globalEventSequence] m' := by
  simp only [requestWithdrawalV3, run_rules, exists_checkedI128, exists_checkedU64,
    riskOk_eq_ok] at h
  obtain ⟨-, _, -, -, -, -, _, -, _, -, _, -, -, -, h⟩ := h
  exact writeDebit_writesOnly h

theorem consumeOracleUpdateV3_writesOnly {verified : VerifiedOracle}
    (h : consumeOracleUpdateV3 ctx verified m = .ok u m') :
    m.WritesOnly (eventChild m.core.globalEventSequence ::
      if m.core.mode = 1 then [] else [eventChild (m.core.globalEventSequence + 1)]) m' := by
  simp only [consumeOracleUpdateV3, run_rules, run_modifyCore_bind] at h
  obtain ⟨-, -, mode, -, h⟩ := h
  obtain ⟨⟨⟩, m₁, hf, h⟩ := run_bind_eq_ok.1 h
  have hw : m.WritesOnly [eventChild m.core.globalEventSequence] m₁ :=
    fun child hc => appendEventRecord_writesOnly hf child hc
  obtain ⟨he, -, hm₁⟩ := appendEventRecord_eq_ok.1 hf
  have hn : m₁.core.globalEventSequence = m.core.globalEventSequence + 1 := by rw [← hm₁]; rfl
  simp only [validateEventCore, require_eq_ok] at he
  obtain rfl := he.2.1
  rw [← singleton_append]
  refine hw.trans ?_
  split at h
  · rename_i hm
    rw [if_neg hm, ← hn]
    exact appendEventRecord_writesOnly h
  · rename_i hm
    obtain ⟨-, rfl⟩ := run_pure_eq_ok.1 h
    rw [if_pos (not_not.1 hm)]
    exact .of_eq rfl rfl rfl

end Writers

/-- The children that an action writes when it is accepted in a snapshot. -/
def Action.writes (m : Market) : Action → List ℕ
  | claimInboxDepositV3 _ i _ _ | requestWithdrawalV3 _ i _ =>
    [seatChild i, eventChild m.core.globalEventSequence]
  | consumeOracleUpdateV3 .. => eventChild m.core.globalEventSequence ::
      if m.core.mode = 1 then [] else [eventChild (m.core.globalEventSequence + 1)]
  | _ => []

theorem Action.Accepted.writesOnly_of_coreOnly (h : a.Accepted w w') (ha : a.isCoreOnly = true) :
    w.live.WritesOnly (a.writes w.live) w'.live := by
  have hw : a.writes w.live = [] := by cases a <;> simp_all [isCoreOnly, writes]
  obtain ⟨x, hx⟩ : ∃ x, a.handler = some x := by cases a <;> simp_all [isCoreOnly, handler]
  obtain ⟨m, hm, rfl⟩ := h.of_handler hx
  rw [hw]
  exact .of_accounts ((Action.keeps_accounts hx ha).of_ok hm)

/-- In a snapshot only inbox claims, withdrawal requests and prices write children. -/
theorem Action.Accepted.writesOnly (h : a.Accepted w w')
    (hp : w.live.core.commitPhase = .snapshot) : w.live.WritesOnly (a.writes w.live) w'.live := by
  have hi : w.live.core.commitPhase ≠ .idle := by simp [hp]
  by_cases hf : a.isFrozen = true
  · exact absurd (h.idle hf) hi
  by_cases hc : a.isCoreOnly = true
  · exact h.writesOnly_of_coreOnly hc
  cases h.step with
  | requested _ _ _ =>
    simp only [Accepted, exec, ok_rules, Prod.exists, onLive_eq_ok] at h
    obtain ⟨⟨⟩, _, ⟨m, hm, rfl⟩, hw⟩ := h
    rw [← hw]
    exact requestWithdrawalV3_writesOnly hm
  | credited _ _ _ _ _ _ =>
    simp only [Accepted, exec, ok_rules, Prod.exists, onLive_eq_ok] at h
    obtain ⟨-, amount, _, ⟨m, hm, rfl⟩, hw⟩ := h
    rw [← hw]
    exact claimInboxDepositV3_writesOnly hm
  | traded trades => cases trades <;> exact absurd rfl hf
  | kept upkeep _ =>
    cases a <;> simp only [isUpkeep, isCoreOnly, isFrozen, reduceCtorEq, not_true] at upkeep hf hc
    obtain ⟨m, hm, hw⟩ := h.of_handler rfl
    rw [← hw]
    exact consumeOracleUpdateV3_writesOnly hm
  | reconciled _ => exact absurd hp h.idle_of_reconcile.1
  | configured _ _ => exact absurd rfl hc
  | inboxed | paid | rolledBack | copiedShard | copiedCore | donated => exact .of_eq rfl rfl rfl
  | _ => exact absurd rfl hf

/-! ## Digests -/

def rotateLeft (value bits : ℕ) : ℕ := value <<< bits % 2 ^ 64 ||| value >>> (64 - bits)

def digestByte (index : ℕ) (byte : UInt8) (lane value : ℕ) : ℕ :=
  let mixed := value ^^^ (byte.toNat + index <<< (lane + 1) % 2 ^ 64) % 2 ^ 64
  rotateLeft (mixed * (0x100000001b3 ^^^ lane <<< 32) % 2 ^ 64) (7 + lane * 11)

/-- The digest of an account's bytes, as a number of four lanes. -/
def snapshotDigest (bytes : List UInt8) : ℕ :=
  let lanes := bytes.zipIdx.foldl
    (fun lanes byte => lanes.mapIdx fun lane value => digestByte byte.2 byte.1 lane value)
    [0xcbf29ce484222325, 0x84222325cbf29ce4, 0x9e3779b185ebca87, 0xd6e8feb86659fd93]
  lanes.foldr (fun value digest => value + 2 ^ 64 * digest) 0

section Consistency

variable {bytes : ChildAccount → List UInt8} {seen seen' : ℕ → Option ChildAccount}

/-- A child is recorded with the digest of its bytes. -/
def Action.Digests (bytes : ChildAccount → List UInt8) (w : World) : Action → Prop
  | commitV3Member _ _ _ child digest => digest = snapshotDigest (bytes (w.live.child child))
  | _ => True

instance (w : World) (a : Action) : Decidable (a.Digests bytes w) := by
  apply @Action.casesOn (fun a => Decidable (a.Digests bytes w)) a <;> intros <;>
    dsimp only [Action.Digests] <;> infer_instance

/-- No child that is already recorded in the open snapshot is written. -/
def Action.SparesSnapshot (w : World) (a : Action) : Prop :=
  w.live.core.commitPhase = .snapshot → ∀ child ∈ a.writes w.live,
    (w.live.core.childRecords child).epoch ≠ w.live.core.snapshotEpoch

instance (w : World) (a : Action) : Decidable (a.SparesSnapshot w) := by
  unfold Action.SparesSnapshot; infer_instance

/-- Note what each child held when it was last committed. -/
def Action.committed : Action → World → World → (ℕ → Option ChildAccount) →
    ℕ → Option ChildAccount
  | commitV3Member _ _ _ child _, w, _, seen =>
    update seen child (some (w.live.child child))
  | _, _, _, seen => seen

/-- The children recorded in the open snapshot are as they were when they were committed. -/
def World.Consistent (bytes : ChildAccount → List UInt8) (w : World)
    (seen : ℕ → Option ChildAccount) : Prop :=
  w.live.core.commitPhase = .snapshot → ∀ child,
    (w.live.core.childRecords child).epoch = w.live.core.snapshotEpoch →
      seen child = some (w.live.child child) ∧
      (w.live.core.childRecords child).digest = snapshotDigest (bytes (w.live.child child))

theorem World.Consistent.member {sequence child digest : ℕ} {kind : CommitKind}
    (hw : w.Consistent bytes seen)
    (h : (Action.commitV3Member ctx sequence kind child digest).Accepted w w')
    (hd : digest = snapshotDigest (bytes (w.live.child child))) :
    w'.Consistent bytes (update seen child (some (w.live.child child))) := by
  have ha : ∀ other, w'.live.child other = w.live.child other :=
    fun other => h.writesOnly_of_coreOnly rfl other (not_mem_nil)
  obtain ⟨m, hm, rfl⟩ := h.of_handler rfl
  have hr := commitV3Member_recorded hm
  intro _ other ho
  rw [ha]
  change (m.core.childRecords other).epoch = m.core.snapshotEpoch at ho
  change _ ∧ (m.core.childRecords other).digest = _
  by_cases heq : other = child
  · subst heq
    rw [update_self, hr.records, update_self, hd]
    exact ⟨rfl, rfl⟩
  · rcases hr.open_or with hi | hp
    · exact absurd ((hr.record_of_idle hi other).1 ho) heq
    · have hold := ((hr.record_of_snapshot hp other).1 ho).resolve_left heq
      rw [update_of_ne heq, hr.records, update_of_ne heq, MarketCore.openSnapshot_of_snapshot hp]
      exact hw hp other hold

theorem World.Consistent.step (hw : w.Consistent bytes seen) (h : a.Accepted w w')
    (hd : a.Digests bytes w) (hspa : a.SparesSnapshot w) :
    w'.Consistent bytes (a.committed w w' seen) := by
  by_cases ha : a.isCommit = true
  · cases a <;> simp only [Action.isCommit, Bool.false_eq_true] at ha
    case commitV3Member => exact hw.member h hd
    all_goals
      intro hp
      obtain ⟨m, hm, rfl⟩ := h.of_handler rfl
    · exact absurd hp (commitV3Bundle_bundled hm).phase
    · exact absurd hp (commitV3Core_finished hm).phase
    · have hi := (abortV3Snapshot_aborted hm).2.1
      exact absurd (hp.symm.trans hi) (by decide)
  · intro hp child hc
    have hs := h.snapshot_eq (by simpa using ha) hp
    simp only [MarketCore.snapshot, Prod.mk.injEq] at hs
    obtain ⟨hp', he, hr⟩ := hs
    rw [hp] at hp'
    rw [hr, he] at hc
    have hse : a.committed w w' seen = seen := by
      cases a <;> first | rfl | simp [Action.isCommit] at ha
    have hsp : child ∉ a.writes w.live := fun hin =>
      hspa hp'.symm child hin hc
    rw [hse, hr, h.writesOnly hp'.symm child hsp]
    exact hw hp'.symm child hc

theorem World.Initial.idle (h : w.Initial) : w.live.core.commitPhase = .idle := by
  obtain ⟨_, _, _, _, _, _, hc⟩ := h.core
  simp only [initializeV3Market, ok_rules] at hc
  rw [← hc.2.2.2]
  rfl

/-- In every run in which nothing writes a child that is already recorded in the open snapshot,
each child is, when the core is committed, as it was when it was committed itself, and its bytes
have the recorded digest. -/
theorem snapshot_consistent {w₀ : World} {as : List Action} (hinit : w₀.Initial)
    (hrun : Run (noting (fun a w w' => a.Accepted w w' ∧ a.Digests bytes w ∧ a.SparesSnapshot w)
      Action.committed) (w₀, fun _ => none) as (w, seen)) {sequence : ℕ} {kind : CommitKind}
    (h : (Action.commitV3Core ctx sequence kind).Accepted w w') (child : ℕ)
    (hchild : child < v3ChildCount) :
    seen child = some (w.live.child child) ∧
      (w.live.core.childRecords child).digest = snapshotDigest (bytes (w.live.child child)) := by
  have hco : w.Consistent bytes seen := by
    refine hrun.invariant (P := fun s : World × (ℕ → Option ChildAccount) =>
      s.1.Consistent bytes s.2) ?_ ?_
    · intro hp
      exact absurd (hinit.idle.symm.trans hp) (by decide)
    · rintro a ⟨w, seen⟩ ⟨w', seen'⟩ hw ⟨⟨ha, hd, hsp⟩, hs⟩
      have hst := hw.step ha hd hsp
      rwa [show a.committed w w' seen = seen' from hs] at hst
  obtain ⟨m, hm, -⟩ := h.of_handler rfl
  have hf := commitV3Core_finished hm
  have hc := hf.complete child hchild
  simp only [ChildRecord.completes, Bool.and_eq_true, decide_eq_true_eq] at hc
  exact hco hf.snapshot child hc.1.1

end Consistency

/-- A part of the bytes of a seat shard: the lowest byte of each balance. -/
def balances : ChildAccount → List UInt8
  | .seats seats => seats.map fun seat => UInt8.ofNat seat.availableCollateral.toNat
  | _ => []

/-- Trader 7 deposits 5 into the inbox of a delegated market. -/
def inboxFundedRun : List Action :=
  fundRun 10 1000 ++ [.depositToInboxV3 (call 7 1000) 5 5]

/-- And then every child is committed with its digest. -/
def digestRun : List Action :=
  inboxFundedRun ++ (range v3ChildCount).map fun child =>
    .commitV3Member (call 3 1000) (child + 1) .commitOnly child
      (snapshotDigest (balances ((genesis.after inboxFundedRun).live.child child)))

/-- The commit of the core after that of all children. -/
def lastCommit : Action :=
  .commitV3Core (call 3 1000) (v3ChildCount + 1) .commitOnly

theorem snapshot_consistent_of_digestRun :
    genesis.noted Action.committed (fun _ => none) digestRun 18 =
      some ((genesis.after digestRun).live.child 18) ∧
    ((genesis.after digestRun).live.core.childRecords 18).digest =
      snapshotDigest (balances ((genesis.after digestRun).live.child 18)) := by
  have hr : Run (noting (fun a w w' => a.Accepted w w' ∧ a.Digests balances w ∧
      a.SparesSnapshot w) Action.committed) (genesis, fun _ => none) digestRun
      (genesis.after digestRun,
        genesis.noted Action.committed (fun _ => none) digestRun) := run_noted (by decide +kernel)
  have hl : lastCommit.Accepted (genesis.after digestRun)
      ((genesis.after digestRun).after [lastCommit]) := accepted_of_accepts (by decide +kernel)
  exact snapshot_consistent genesis_initial hr hl 18 (by decide)

/-- Trader 7 claims the deposit when all children but not the core are committed. -/
def tornRun : List Action :=
  digestRun ++ [.claimInboxDepositV3 (call 7 1000) 0 7 5]

/-- The core is committed although the first seat shard has been written since its own commit, and
its bytes do not have the recorded digest any more. -/
theorem snapshot_torn : ∃ (w₀ w w' : World) (as : List Action) (seen : ℕ → Option ChildAccount),
    w₀.Initial ∧ Run (noting (fun a w w' => a.Accepted w w' ∧ a.Digests balances w)
      Action.committed) (w₀, fun _ => none) as (w, seen) ∧ lastCommit.Accepted w w' ∧
    (seen 18).map (fun child => (balances child).take 2) = some [10, 10] ∧
    (balances (w.live.child 18)).take 2 = [15, 10] ∧
    (w.live.core.childRecords 18).epoch = w.live.core.snapshotEpoch ∧
    (w.live.core.childRecords 18).digest ≠ snapshotDigest (balances (w.live.child 18)) := by
  have hr : Run (noting (fun a w w' => a.Accepted w w' ∧ a.Digests balances w)
      Action.committed) (genesis, fun _ => none) tornRun (genesis.after tornRun,
        genesis.noted Action.committed (fun _ => none) tornRun) := run_noted (by decide +kernel)
  have hl : lastCommit.Accepted (genesis.after tornRun)
      ((genesis.after tornRun).after [lastCommit]) := accepted_of_accepts (by decide +kernel)
  exact ⟨genesis, _, _, tornRun, _, genesis_initial, hr, hl, by decide +kernel⟩

end Equinox
