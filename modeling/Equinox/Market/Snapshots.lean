import Equinox.Market.Steps

/-! # Snapshots

The protocol that commits the children of a delegated core one by one and the
core last. A log of the recorded children and of the aborts is kept beside the
core, and the core's table of records is compared with it.
-/

namespace Equinox

open Foundation World Finset

variable {w w' : World} {m m' : Market} {ctx : Context} {u : Unit}
variable {sequence child digest : ℕ} {kind : CommitKind}

def MarketCore.recorded (core : MarketCore) : Finset ℕ :=
  (range v3ChildCount).filter fun child =>
    (core.childRecords child).epoch = core.snapshotEpoch

/-- What the acceptance of a child means for the core. -/
structure MarketCore.Recorded (sequence child digest : ℕ) (core core' : MarketCore) : Prop where
  sequence_ne : sequence ≠ 0
  expected : core.expectedCommitSequence = sequence
  child_lt : child < v3ChildCount
  open_or : core.commitPhase = .idle ∨ core.commitPhase = .snapshot
  epoch_ne : core.commitPhase = .snapshot → core.snapshotEpoch ≠ 0
  fresh : core.commitPhase = .snapshot → (core.childRecords child).epoch ≠ core.snapshotEpoch
  phase : core'.commitPhase = .snapshot
  epoch : core'.snapshotEpoch = (core.openSnapshot sequence).snapshotEpoch
  count : core'.snapshotChildCount = (core.openSnapshot sequence).snapshotChildCount + 1
  records : core'.childRecords = Function.update (core.openSnapshot sequence).childRecords child
    { epoch := core'.snapshotEpoch, sequence, digest }
  next : core'.expectedCommitSequence = saturatingSucc sequence

theorem MarketCore.openSnapshot_of_snapshot {core : MarketCore}
    (hp : core.commitPhase = .snapshot) (epoch : ℕ) : core.openSnapshot epoch = core := by
  rw [openSnapshot, hp, if_neg (by decide)]

theorem commitV3Member_recorded
    (h : commitV3Member ctx sequence kind child digest m = .ok u m') :
    m.core.Recorded sequence child digest m'.core := by
  simp only [commitV3Member, run_rules, run_modifyCore] at h
  obtain ⟨hs, ⟨-, hex, -⟩, hc, hph, he, hf, rfl⟩ := h
  cases hp : m.core.commitPhase with
  | undelegating => exact absurd hp hph
  | idle =>
    simp only [hp, if_true, MarketCore.openSnapshot]
    constructor <;> simp [*, MarketCore.openSnapshot]
  | snapshot =>
    have hne : ¬CommitPhase.snapshot = CommitPhase.idle := by decide
    have ho := MarketCore.openSnapshot_of_snapshot hp
    rw [hp, if_neg hne] at he hf
    simp only [if_neg hne, ho]
    exact ⟨hs, hex, hc, .inr hp, fun _ => he, fun _ => (hf rfl).2, hp,
      by rw [ho], by rw [ho], by rw [ho], rfl⟩

namespace MarketCore.Recorded

variable {core core' : MarketCore}

section

variable (h : core.Recorded sequence child digest core')

include h

theorem epoch_of_idle (hi : core.commitPhase = .idle) : core'.snapshotEpoch = sequence := by
  rw [h.epoch, openSnapshot, if_pos hi]

theorem epoch_of_snapshot (hp : core.commitPhase = .snapshot) :
    core'.snapshotEpoch = core.snapshotEpoch := by
  rw [h.epoch, openSnapshot_of_snapshot hp]

theorem epoch_ne_zero : core'.snapshotEpoch ≠ 0 := by
  rcases h.open_or with hi | hp
  · rw [h.epoch_of_idle hi]
    exact h.sequence_ne
  · rw [h.epoch_of_snapshot hp]
    exact h.epoch_ne hp

theorem record_of_idle (hi : core.commitPhase = .idle) (other : ℕ) :
    (core'.childRecords other).epoch = core'.snapshotEpoch ↔ other = child := by
  have hb : (core.openSnapshot sequence).childRecords = fun _ => .blank := by
    rw [openSnapshot, if_pos hi]
  rw [h.records, hb]
  by_cases heq : other = child
  · simp [heq]
  · rw [Function.update_of_ne heq]
    exact iff_of_false (fun h0 => h.epoch_ne_zero h0.symm) heq

theorem record_of_snapshot (hp : core.commitPhase = .snapshot) (other : ℕ) :
    (core'.childRecords other).epoch = core'.snapshotEpoch ↔
      other = child ∨ (core.childRecords other).epoch = core.snapshotEpoch := by
  rw [h.records, openSnapshot_of_snapshot hp]
  by_cases heq : other = child
  · simp [heq]
  · rw [Function.update_of_ne heq, h.epoch_of_snapshot hp]
    simp [heq]

theorem recorded_of_idle (hi : core.commitPhase = .idle) : core'.recorded = {child} := by
  ext other
  simp only [MarketCore.recorded, mem_filter, mem_range, mem_singleton, h.record_of_idle hi]
  exact ⟨And.right, fun heq => ⟨heq ▸ h.child_lt, heq⟩⟩

theorem recorded_of_snapshot (hp : core.commitPhase = .snapshot) :
    core'.recorded = insert child core.recorded := by
  ext other
  simp only [MarketCore.recorded, mem_filter, mem_range, mem_insert, h.record_of_snapshot hp]
  constructor
  · rintro ⟨hlt, heq | he⟩
    · exact .inl heq
    · exact .inr ⟨hlt, he⟩
  · rintro (rfl | ⟨hlt, he⟩)
    · exact ⟨h.child_lt, .inl rfl⟩
    · exact ⟨hlt, .inr he⟩

theorem count_eq
    (hc : core.commitPhase = .snapshot → core.snapshotChildCount = core.recorded.card) :
    core'.snapshotChildCount = core'.recorded.card := by
  rcases h.open_or with hi | hp
  · rw [h.count, h.recorded_of_idle hi, openSnapshot, if_pos hi]
    rfl
  · have hn : child ∉ core.recorded := fun hin =>
      h.fresh hp (mem_filter.1 hin).2
    rw [h.count, h.recorded_of_snapshot hp, card_insert_of_notMem hn,
      openSnapshot_of_snapshot hp, hc hp]

end

end MarketCore.Recorded

/-! ## The other calls -/

/-- A bundle records every child under a new epoch, and leaves no open snapshot. -/
structure MarketCore.Bundled (sequence : ℕ) (core core' : MarketCore) : Prop where
  expected : core.expectedCommitSequence = sequence
  idle : core.commitPhase = .idle
  phase : core'.commitPhase ≠ .snapshot
  next : core'.commitPhase ≠ .undelegating →
    core'.expectedCommitSequence = saturatingSucc sequence

theorem commitV3Bundle_bundled {digests : ℕ → ℕ}
    (h : commitV3Bundle ctx sequence kind digests m = .ok u m') :
    m.core.Bundled sequence m'.core := by
  simp only [commitV3Bundle, run_rules, mapError_eq_ok, run_modifyCore_bind] at h
  obtain ⟨-, ⟨⟩, hb, ⟨-, -, he⟩, h⟩ := h
  have hi := (validateExecutionBundle_eq_ok hb).2.2.2
  obtain ⟨⟨⟩, m₁, hev, hend⟩ := run_bind_eq_ok.1 h
  obtain ⟨-, -, rfl⟩ := appendEventRecord_eq_ok.1 hev
  obtain rfl := run_modifyCore.1 hend
  cases kind with
  | commitOnly =>
    exact ⟨he, hi, by simp [Market.appended], fun _ => by simp [Market.appended]⟩
  | commitAndUndelegate =>
    exact ⟨he, hi, by simp, by simp⟩

/-- The core is committed from a snapshot in which every child is recorded. -/
structure MarketCore.Finished (sequence : ℕ) (core core' : MarketCore) : Prop where
  expected : core.expectedCommitSequence = sequence
  snapshot : core.commitPhase = .snapshot
  epoch_ne : core.snapshotEpoch ≠ 0
  complete : ∀ child < v3ChildCount, (core.childRecords child).completes core.snapshotEpoch = true
  phase : core'.commitPhase ≠ .snapshot
  next : core'.commitPhase ≠ .undelegating →
    core'.expectedCommitSequence = saturatingSucc sequence

theorem commitV3Core_finished (h : commitV3Core ctx sequence kind m = .ok u m') :
    m.core.Finished sequence m'.core := by
  simp only [commitV3Core, run_rules, List.all_eq_true, List.mem_range, run_modifyCore] at h
  obtain ⟨-, ⟨-, hp, hex⟩, ⟨he, -⟩, ha, -, rfl⟩ := h
  cases kind with
  | commitOnly => exact ⟨hex, hp, he, ha, by simp, fun _ => rfl⟩
  | commitAndUndelegate => exact ⟨hex, hp, he, ha, by simp, by simp⟩

theorem abortV3Snapshot_aborted (h : abortV3Snapshot ctx m = .ok u m') :
    m.core.commitPhase = .snapshot ∧ m'.core.commitPhase = .idle ∧
      m'.core.expectedCommitSequence = m.core.expectedCommitSequence := by
  simp only [abortV3Snapshot, run_rules, run_modifyCore] at h
  obtain ⟨-, hp, rfl⟩ := h
  exact ⟨hp, rfl, rfl⟩

/-! ## The log -/

inductive SnapshotEvent where
  | recorded (epoch child : ℕ)
  | aborted
  deriving DecidableEq, Repr

def Action.isCommit : Action → Bool
  | commitV3Member .. | commitV3Bundle .. | abortV3Snapshot .. | commitV3Core .. => true
  | _ => false

def Action.logged : Action → World → World → List SnapshotEvent → List SnapshotEvent
  | commitV3Member _ _ _ child _, _, w', log => .recorded w'.live.core.snapshotEpoch child :: log
  | commitV3Bundle _ sequence _ _, _, _, log =>
    (List.range v3ChildCount).map (.recorded sequence) ++ log
  | abortV3Snapshot _, _, _, log => .aborted :: log
  | _, _, _, log => log

def Action.movesOn : Action → Prop
  | commitV3Member _ sequence _ _ _ | commitV3Bundle _ sequence _ _ => sequence < 2 ^ 64 - 1
  | _ => True

instance (a : Action) : Decidable a.movesOn := by unfold Action.movesOn; split <;> infer_instance

/-- What an accepted call of the protocol does to the core and the log. -/
inductive SnapshotStep : Action → MarketCore × List SnapshotEvent →
    MarketCore × List SnapshotEvent → Prop
  | member {ctx : Context} {sequence child digest : ℕ} {kind : CommitKind}
      {core core' : MarketCore} {log : List SnapshotEvent}
      (h : core.Recorded sequence child digest core') :
      SnapshotStep (.commitV3Member ctx sequence kind child digest) (core, log)
        (core', .recorded core'.snapshotEpoch child :: log)
  | bundle {ctx : Context} {sequence : ℕ} {kind : CommitKind} {digests : ℕ → ℕ}
      {core core' : MarketCore} {log : List SnapshotEvent} (h : core.Bundled sequence core') :
      SnapshotStep (.commitV3Bundle ctx sequence kind digests) (core, log)
        (core', (List.range v3ChildCount).map (.recorded sequence) ++ log)
  | aborted {ctx : Context} {core core' : MarketCore} {log : List SnapshotEvent}
      (hphase : core.commitPhase = .snapshot) (hidle : core'.commitPhase = .idle)
      (hnext : core'.expectedCommitSequence = core.expectedCommitSequence) :
      SnapshotStep (.abortV3Snapshot ctx) (core, log) (core', .aborted :: log)
  | finished {ctx : Context} {sequence : ℕ} {kind : CommitKind} {core core' : MarketCore}
      {log : List SnapshotEvent} (h : core.Finished sequence core') :
      SnapshotStep (.commitV3Core ctx sequence kind) (core, log) (core', log)

variable {a : Action} {log log' : List SnapshotEvent}

theorem Action.Accepted.snapshotStep (h : a.Accepted w w') (ha : a.isCommit = true)
    (log : List SnapshotEvent) :
    SnapshotStep a (w.live.core, log) (w'.live.core, a.logged w w' log) := by
  cases a <;> simp only [isCommit, Bool.false_eq_true] at ha <;>
    obtain ⟨m, hm, rfl⟩ := h.of_handler rfl
  · exact .bundle (commitV3Bundle_bundled hm)
  · exact .member (commitV3Member_recorded hm)
  · exact .finished (commitV3Core_finished hm)
  · obtain ⟨hp, hi, hn⟩ := abortV3Snapshot_aborted hm
    exact .aborted hp hi hn

theorem SnapshotStep.count_eq {s s' : MarketCore × List SnapshotEvent} (h : SnapshotStep a s s')
    (hc : s.1.commitPhase = .snapshot → s.1.snapshotChildCount = s.1.recorded.card)
    (hp : s'.1.commitPhase = .snapshot) : s'.1.snapshotChildCount = s'.1.recorded.card := by
  cases h with
  | member h => exact h.count_eq hc
  | bundle h => exact absurd hp h.phase
  | aborted _ hi _ => simp [hi] at hp
  | finished h => exact absurd hp h.phase

/-! ## The table and the log -/

/-- The log of a core whose commits all moved the expected sequence on. -/
structure MarketCore.Follows (core : MarketCore) (log : List SnapshotEvent) : Prop where
  expected_lt : core.commitPhase ≠ .undelegating → core.expectedCommitSequence < 2 ^ 64
  once : ∀ epoch child, log.count (.recorded epoch child) ≤ 1
  past : core.commitPhase ≠ .undelegating → ∀ epoch child, .recorded epoch child ∈ log →
    epoch < core.expectedCommitSequence
  epoch_lt : core.commitPhase = .snapshot → core.snapshotEpoch < core.expectedCommitSequence
  table : core.commitPhase = .snapshot → ∀ child < v3ChildCount,
    (.recorded core.snapshotEpoch child ∈ log ↔
      (core.childRecords child).epoch = core.snapshotEpoch)
  recent : core.commitPhase = .snapshot → ∃ recent older, log = recent ++ older ∧
    .aborted ∉ recent ∧ ∀ child, .recorded core.snapshotEpoch child ∉ older

namespace MarketCore.Follows

variable {core core' : MarketCore}

theorem saturatingSucc_lt (sequence : ℕ) : saturatingSucc sequence < 2 ^ 64 := by
  unfold saturatingSucc
  omega

theorem saturatingSucc_of_lt (h : sequence < 2 ^ 64 - 1) :
    saturatingSucc sequence = sequence + 1 := by
  unfold saturatingSucc
  omega

theorem count_eq_zero (h : core.Follows log) (hp : core.commitPhase ≠ .undelegating)
    (he : core.expectedCommitSequence = sequence) (child : ℕ) :
    log.count (.recorded sequence child) = 0 := by
  rw [List.count_eq_zero]
  intro hin
  have hlt := h.past hp _ _ hin
  omega

theorem fresh (h : core.Follows log) (hr : core.Recorded sequence child digest core') :
    log.count (.recorded core'.snapshotEpoch child) = 0 := by
  rcases hr.open_or with hi | hp
  · rw [hr.epoch_of_idle hi]
    exact h.count_eq_zero (by simp [hi]) hr.expected child
  · rw [hr.epoch_of_snapshot hp, List.count_eq_zero, h.table hp child hr.child_lt]
    exact hr.fresh hp

theorem epoch_le (h : core.Follows log) (hr : core.Recorded sequence child digest core') :
    core'.snapshotEpoch ≤ sequence := by
  rcases hr.open_or with hi | hp
  · rw [hr.epoch_of_idle hi]
  · rw [hr.epoch_of_snapshot hp, ← hr.expected]
    exact (h.epoch_lt hp).le

theorem member (h : core.Follows log) (hr : core.Recorded sequence child digest core')
    (hlt : sequence < 2 ^ 64 - 1) : core'.Follows (.recorded core'.snapshotEpoch child :: log) where
  expected_lt _ := by
    rw [hr.next]
    exact saturatingSucc_lt sequence
  once epoch other := by
    rw [List.count_cons]
    split_ifs with heq
    · simp only [beq_iff_eq, SnapshotEvent.recorded.injEq] at heq
      obtain ⟨rfl, rfl⟩ := heq
      rw [h.fresh hr]
    · exact h.once epoch other
  past _ epoch other hin := by
    have hph : core.commitPhase ≠ .undelegating := by
      rcases hr.open_or with hp | hp <;> simp [hp]
    have he := h.epoch_le hr
    have hex := hr.expected
    rw [hr.next, saturatingSucc_of_lt hlt]
    rcases List.mem_cons.1 hin with heq | hin
    · simp only [SnapshotEvent.recorded.injEq] at heq
      omega
    · have hpa := h.past hph _ _ hin
      omega
  epoch_lt _ := by
    have he := h.epoch_le hr
    rw [hr.next, saturatingSucc_of_lt hlt]
    omega
  table _ other ho := by
    rw [List.mem_cons, SnapshotEvent.recorded.injEq]
    rcases hr.open_or with hi | hph
    · have hn := List.count_eq_zero.1 (h.count_eq_zero (by simp [hi]) hr.expected other)
      rw [hr.record_of_idle hi, hr.epoch_of_idle hi]
      simp [hn]
    · rw [hr.record_of_snapshot hph, hr.epoch_of_snapshot hph, h.table hph other ho]
      simp
  recent _ := by
    rcases hr.open_or with hi | hph
    · refine ⟨[.recorded core'.snapshotEpoch child], log, rfl, by simp, fun other => ?_⟩
      rw [hr.epoch_of_idle hi]
      exact List.count_eq_zero.1 (h.count_eq_zero (by simp [hi]) hr.expected other)
    · obtain ⟨recent, older, rfl, ha, holder⟩ := h.recent hph
      refine ⟨.recorded core'.snapshotEpoch child :: recent, older, rfl, by simp [ha], ?_⟩
      rw [hr.epoch_of_snapshot hph]
      exact holder

theorem count_bundle (epoch sequence child : ℕ) :
    ((List.range v3ChildCount).map (SnapshotEvent.recorded sequence)).count
      (.recorded epoch child) ≤ 1 := by
  refine List.nodup_iff_count_le_one.1 (List.nodup_range.map ?_) _
  intro i j hij
  exact (SnapshotEvent.recorded.inj hij).2

theorem bundle (h : core.Follows log) (hb : core.Bundled sequence core')
    (hlt : sequence < 2 ^ 64 - 1) :
    core'.Follows ((List.range v3ChildCount).map (.recorded sequence) ++ log) where
  expected_lt hp := by
    rw [hb.next hp]
    exact saturatingSucc_lt sequence
  once epoch child := by
    rw [List.count_append]
    by_cases heq : epoch = sequence
    · rw [heq, h.count_eq_zero (by simp [hb.idle]) hb.expected]
      exact count_bundle sequence sequence child
    · have hn : ((List.range v3ChildCount).map (SnapshotEvent.recorded sequence)).count
          (.recorded epoch child) = 0 := by
        rw [List.count_eq_zero]
        simp [Ne.symm heq]
      rw [hn, Nat.zero_add]
      exact h.once epoch child
  past hp epoch child hin := by
    have hc := hb.expected
    rw [hb.next hp, saturatingSucc_of_lt hlt]
    rcases List.mem_append.1 hin with hin | hin
    · simp only [List.mem_map, SnapshotEvent.recorded.injEq] at hin
      omega
    · have hpa := h.past (by simp [hb.idle]) _ _ hin
      omega
  epoch_lt hp := absurd hp hb.phase
  table hp := absurd hp hb.phase
  recent hp := absurd hp hb.phase

theorem aborted (h : core.Follows log) (hp : core.commitPhase = .snapshot)
    (hi : core'.commitPhase = .idle)
    (hn : core'.expectedCommitSequence = core.expectedCommitSequence) :
    core'.Follows (.aborted :: log) where
  expected_lt _ := by
    rw [hn]
    exact h.expected_lt (by simp [hp])
  once epoch child := by
    rw [List.count_cons_of_ne (by simp)]
    exact h.once epoch child
  past _ epoch child hin := by
    rw [hn]
    exact h.past (by simp [hp]) epoch child (by simpa using hin)
  epoch_lt hs := by simp [hi] at hs
  table hs := by simp [hi] at hs
  recent hs := by simp [hi] at hs

theorem finished (h : core.Follows log) (hf : core.Finished sequence core') :
    core'.Follows log where
  expected_lt hp := by
    rw [hf.next hp]
    exact saturatingSucc_lt sequence
  once := h.once
  past hp epoch child hin := by
    have ho : core.commitPhase ≠ .undelegating := by simp [hf.snapshot]
    have hpa := h.past ho epoch child hin
    have hlt := h.expected_lt ho
    have hc := hf.expected
    rw [hf.next hp, saturatingSucc]
    omega
  epoch_lt hp := absurd hp hf.phase
  table hp := absurd hp hf.phase
  recent hp := absurd hp hf.phase

theorem step {s s' : MarketCore × List SnapshotEvent} (h : s.1.Follows s.2)
    (hs : SnapshotStep a s s') (ha : a.movesOn) : s'.1.Follows s'.2 := by
  cases hs with
  | member hr => exact h.member hr ha
  | bundle hb => exact h.bundle hb ha
  | aborted hp hi hn => exact h.aborted hp hi hn
  | finished hf => exact h.finished hf

theorem start (hi : core.commitPhase = .idle) (hlt : core.expectedCommitSequence < 2 ^ 64) :
    core.Follows [] where
  expected_lt _ := hlt
  once := by simp
  past := by simp
  epoch_lt hp := by simp [hi] at hp
  table hp := by simp [hi] at hp
  recent hp := by simp [hi] at hp

theorem complete (h : core.Follows log) (hf : core.Finished sequence core') :
    (∀ child < v3ChildCount, log.count (.recorded core.snapshotEpoch child) = 1) ∧
    ∃ recent older, log = recent ++ older ∧ .aborted ∉ recent ∧
      ∀ child < v3ChildCount, .recorded core.snapshotEpoch child ∈ recent := by
  have hin : ∀ child < v3ChildCount, .recorded core.snapshotEpoch child ∈ log := by
    intro child hc
    have hco := hf.complete child hc
    simp only [ChildRecord.completes, Bool.and_eq_true, decide_eq_true_eq] at hco
    exact (h.table hf.snapshot child hc).2 hco.1.1
  constructor
  · intro child hc
    have ho := h.once core.snapshotEpoch child
    have hpos := List.count_pos_iff.2 (hin child hc)
    omega
  · obtain ⟨recent, older, rfl, ha, holder⟩ := h.recent hf.snapshot
    exact ⟨recent, older, rfl, ha, fun child hc =>
      (List.mem_append.1 (hin child hc)).resolve_right (holder child)⟩

end MarketCore.Follows

/-- In every sequence of calls from an idle core the count of an open snapshot is that of the
children recorded in its epoch. As long as the expected sequence moves on, no child is accepted
twice in an epoch, and the core is committed only after every child was, once, with no abort since
the first of them. -/
theorem snapshot_protocol {w₀ : World} {as : List Action}
    (hidle : w₀.live.core.commitPhase = .idle)
    (hlt : w₀.live.core.expectedCommitSequence < 2 ^ 64) :
    (Run (noting (fun a w w' => a.Accepted w w' ∧ a.isCommit = true) Action.logged)
        (w₀, []) as (w, log) → w.live.core.commitPhase = .snapshot →
      w.live.core.snapshotChildCount = w.live.core.recorded.card) ∧
    (Run (noting (fun a w w' => a.Accepted w w' ∧ a.isCommit = true ∧ a.movesOn) Action.logged)
        (w₀, []) as (w, log) →
      (∀ epoch child, log.count (.recorded epoch child) ≤ 1) ∧
      ∀ ctx sequence kind m', commitV3Core ctx sequence kind w.live = .ok () m' →
        (∀ child < v3ChildCount, log.count (.recorded w.live.core.snapshotEpoch child) = 1) ∧
        ∃ recent older, log = recent ++ older ∧ .aborted ∉ recent ∧
          ∀ child < v3ChildCount, .recorded w.live.core.snapshotEpoch child ∈ recent) := by
  constructor
  · intro hr
    refine hr.invariant (P := fun s : World × List SnapshotEvent =>
      s.1.live.core.commitPhase = .snapshot →
        s.1.live.core.snapshotChildCount = s.1.live.core.recorded.card) (by simp [hidle]) ?_
    rintro a ⟨w, log⟩ ⟨w', log'⟩ hco ⟨⟨hacc, ha⟩, -⟩
    exact (hacc.snapshotStep ha log).count_eq hco
  · intro hr
    have hf : w.live.core.Follows log := by
      refine hr.invariant (P := fun s : World × List SnapshotEvent =>
        s.1.live.core.Follows s.2) (.start hidle hlt) ?_
      rintro a ⟨w, log⟩ ⟨w', log'⟩ hf ⟨⟨hacc, ha, hm⟩, hl⟩
      have hs := hacc.snapshotStep ha log
      rw [show a.logged w w' log = log' from hl] at hs
      exact hf.step hs hm
    exact ⟨hf.once, fun ctx sequence kind m' hc =>
      hf.complete (commitV3Core_finished hc)⟩

def World.memberRun (kind : CommitKind) : List Action :=
  (List.range v3ChildCount).map fun child =>
    .commitV3Member (call 3 1000) (child + 1) kind child 1

def World.funded : World := genesis.after (fundRun 10 1000)

theorem snapshot_protocol_of_memberRun :
    (funded.after (memberRun .commitOnly)).live.core.snapshotChildCount =
      (funded.after (memberRun .commitOnly)).live.core.recorded.card ∧
    (∀ child < v3ChildCount, (funded.noted Action.logged [] (memberRun .commitOnly)).count
      (.recorded (funded.after (memberRun .commitOnly)).live.core.snapshotEpoch child) = 1) := by
  have hr : Run (noting (fun a w w' => a.Accepted w w' ∧ a.isCommit = true ∧ a.movesOn)
      Action.logged) (funded, []) (memberRun .commitOnly) (funded.after (memberRun .commitOnly),
        funded.noted Action.logged [] (memberRun .commitOnly)) := run_noted (by decide +kernel)
  have hc : Run (noting (fun a w w' => a.Accepted w w' ∧ a.isCommit = true)
      Action.logged) (funded, []) (memberRun .commitOnly) (funded.after (memberRun .commitOnly),
        funded.noted Action.logged [] (memberRun .commitOnly)) :=
    hr.mono fun a s s' h => ⟨⟨h.1.1, h.1.2.1⟩, h.2⟩
  have hco : commitV3Core (call 3 1000) (v3ChildCount + 1) .commitOnly
      (funded.after (memberRun .commitOnly)).live = .ok () (finalState _) :=
    eq_ok_of_isOk (by decide +kernel)
  have hi : funded.live.core.commitPhase = .idle := by decide +kernel
  have hlt : funded.live.core.expectedCommitSequence < 2 ^ 64 := by decide +kernel
  exact ⟨(snapshot_protocol hi hlt).1 hc (by decide +kernel),
    (((snapshot_protocol hi hlt).2 hr).2 _ _ _ _ hco).1⟩

/-- A delegated market whose expected sequence is the largest. -/
def World.saturated : World :=
  { funded with live := { funded.live with
      core := { funded.live.core with expectedCommitSequence := 2 ^ 64 - 1 } } }

/-- The first child is committed, the snapshot is aborted, and the child is committed again. -/
def twiceRun : List Action :=
  [.commitV3Member (call 3 1000) (2 ^ 64 - 1) .commitOnly 0 1,
    .abortV3Snapshot (call 3 1000),
    .commitV3Member (call 3 1000) (2 ^ 64 - 1) .commitOnly 0 1]

/-- The largest sequence is expected again after its use, and so a child is accepted twice in one
epoch. -/
theorem snapshot_child_twice : ∃ (w₀ w : World) (as : List Action) (log : List SnapshotEvent),
    w₀.live.core.commitPhase = .idle ∧ w₀.live.core.delegationStatus = .delegated ∧
    w₀.live.core.expectedCommitSequence = 2 ^ 64 - 1 ∧
    Run (noting (fun a w w' => a.Accepted w w' ∧ a.isCommit = true) Action.logged)
      (w₀, []) as (w, log) ∧ log.count (.recorded (2 ^ 64 - 1) 0) = 2 := by
  have hr : Run (noting (fun a w w' => a.Accepted w w' ∧ a.isCommit = true) Action.logged)
      (saturated, []) twiceRun (saturated.after twiceRun,
        saturated.noted Action.logged [] twiceRun) := run_noted (by decide +kernel)
  exact ⟨saturated, _, twiceRun, _, by decide +kernel, by decide +kernel, by decide +kernel,
    hr, by decide +kernel⟩

end Equinox
