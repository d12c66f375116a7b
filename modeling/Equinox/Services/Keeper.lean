import Equinox.Market.Snapshots

/-! # The keeper's commit

The keeper of a market commits the 26 children and then the core, one
transaction each. It reads the core once, leaves out the children that an open
snapshot already holds, and counts the sequences by itself. On an error it
closes the snapshot. The loop is compared here with the core it runs against,
from every snapshot that may have been left open.
-/

namespace Equinox

open Foundation List World MarketCore Bool

variable {m m' : Market} {ctx : Context} {u : Unit} {sequence child digest : ℕ}
  {digests : ℕ → ℕ} {core core' : MarketCore} {rest sent : List ℕ}

def MarketCore.holds (core : MarketCore) (child : ℕ) : Bool :=
  core.commitPhase = .snapshot && (core.childRecords child).epoch = core.snapshotEpoch

namespace Keeper

/-- Commit the children that are not in the snapshot of the core as it was read. The counter is a
`u64` that wraps. -/
def commitChildren (ctx : Context) (digests : ℕ → ℕ) (core : MarketCore) :
    List ℕ → ℕ → MarketM ℕ
  | [], sequence => pure sequence
  | index :: rest, sequence =>
    if core.holds index then commitChildren ctx digests core rest sequence
    else do
      commitV3Member ctx sequence .commitOnly index (digests index)
      commitChildren ctx digests core rest ((sequence + 1) % 2 ^ 64)

def commitFrom (ctx : Context) (digests : ℕ → ℕ) (core : MarketCore) (rest : List ℕ)
    (sequence : ℕ) : MarketM ℕ := do
  let sequence ← commitChildren ctx digests core rest sequence
  commitV3Core ctx sequence .commitOnly
  pure sequence

/-- One commit of the market, which returns the sequence of the core's commit. `digests` are those
of the children's bytes, which no commit changes. An open snapshot freezes trading, so that it is
closed after an error; whether that succeeds is only logged. -/
def commit (ctx : Context) (digests : ℕ → ℕ) : MarketM ℕ := do
  try
    let m ← asking id
    commitFrom ctx digests m.core (range v3ChildCount) m.core.expectedCommitSequence
  catch error =>
    try abortV3Snapshot ctx catch _ => pure ()
    throw error

end Keeper

/-! ## Cores a commit may start from -/

/-- A delegated core with no snapshot, or with a snapshot in which any children are recorded. The
table may hold records of other epochs besides. -/
structure MarketCore.Resumable (core : MarketCore) : Prop where
  delegated : core.delegationStatus = .delegated
  expected_ne : core.expectedCommitSequence ≠ 0
  expected_lt : core.expectedCommitSequence < 2 ^ 64
  open_or : core.commitPhase = .idle ∨ core.commitPhase = .snapshot
  epoch_ne : core.commitPhase = .snapshot → core.snapshotEpoch ≠ 0
  count : core.commitPhase = .snapshot → core.snapshotChildCount = core.recorded.card
  sequence_ne : core.commitPhase = .snapshot → ∀ child ∈ core.recorded,
    (core.childRecords child).sequence ≠ 0

theorem MarketCore.holds_iff : core.holds child = true ↔
    core.commitPhase = .snapshot ∧ (core.childRecords child).epoch = core.snapshotEpoch := by
  simp [holds]

namespace MarketCore.Recorded

section

variable (h : core.Recorded sequence child digest core')

include h

theorem holds_iff (other : ℕ) :
    core'.holds other = true ↔ other = child ∨ core.holds other = true := by
  rw [MarketCore.holds_iff, and_iff_right h.phase, MarketCore.holds_iff]
  rcases h.open_or with hi | hs
  · rw [h.record_of_idle hi]
    simp [hi]
  · rw [h.record_of_snapshot hs, and_iff_right hs]

theorem record_self :
    core'.childRecords child = { epoch := core'.snapshotEpoch, sequence, digest } := by
  rw [h.records, Function.update_self]

theorem record_of_holds {other : ℕ}
    (hne : other ≠ child) (ho : core.holds other = true) :
    core'.childRecords other = core.childRecords other := by
  rw [h.records, Function.update_of_ne hne, openSnapshot_of_snapshot (MarketCore.holds_iff.1 ho).1]

theorem resumable (hc : core.Resumable)
    (hd : core'.delegationStatus = .delegated) : core'.Resumable where
  delegated := hd
  expected_ne := by
    rw [h.next, saturatingSucc]
    omega
  expected_lt := h.next ▸ Follows.saturatingSucc_lt sequence
  open_or := .inr h.phase
  epoch_ne _ := h.epoch_ne_zero
  count _ := h.count_eq hc.count
  sequence_ne _ other ho := by
    obtain ⟨hlt, he⟩ := Finset.mem_filter.1 ho
    by_cases heq : other = child
    · rw [heq, h.record_self]
      exact h.sequence_ne
    · have hold := ((h.holds_iff other).1 (MarketCore.holds_iff.2 ⟨h.phase, he⟩)).resolve_left heq
      obtain ⟨hs, hr⟩ := MarketCore.holds_iff.1 hold
      rw [h.record_of_holds heq hold]
      exact hc.sequence_ne hs other (Finset.mem_filter.2 ⟨hlt, hr⟩)

end

end MarketCore.Recorded

/-! ## One transaction -/

/-- What the transactions of a commit leave as it is. -/
structure MarketCore.SameOperator (core core' : MarketCore) : Prop where
  status : core'.delegationStatus = core.delegationStatus
  authority : core'.marketAuthority = core.marketAuthority
  keeper : core'.keeper = core.keeper

theorem MarketCore.SameOperator.isV3Operator_eq (h : core.SameOperator core') (signer : Address) :
    core'.isV3Operator signer = core.isV3Operator signer := by
  rw [isV3Operator, isV3Operator, h.authority, h.keeper]

theorem MarketCore.SameOperator.trans {core'' : MarketCore} (h : core.SameOperator core')
    (h' : core'.SameOperator core'') : core.SameOperator core'' :=
  ⟨h'.status.trans h.status, h'.authority.trans h.authority, h'.keeper.trans h.keeper⟩

variable {kind : CommitKind}

theorem commitV3Member_sameOperator
    (h : commitV3Member ctx sequence kind child digest m = .ok u m') :
    m.core.SameOperator m'.core ∧ m'.core.lastCommittedSequence = sequence := by
  simp only [commitV3Member, run_rules, run_modifyCore] at h
  obtain ⟨-, -, -, -, -, -, rfl⟩ := h
  refine ⟨?_, rfl⟩
  unfold openSnapshot
  constructor <;> (dsimp only; split <;> rfl)

/-- The next child that the snapshot does not hold is accepted. -/
theorem commitV3Member_accepts (digest : ℕ) (hc : m.core.Resumable)
    (ho : m.core.isV3Operator ctx.signer = true)
    (he : m.core.expectedCommitSequence = sequence) (hch : child < v3ChildCount)
    (hn : m.core.holds child = false) :
    ∃ m', commitV3Member ctx sequence .commitOnly child digest m = .ok () m' := by
  have hse : sequence ≠ 0 := he ▸ hc.expected_ne
  have hf : m.core.commitPhase = .snapshot →
      (m.core.childRecords child).epoch ≠ m.core.snapshotEpoch := by
    intro hs hep
    rw [holds_iff.2 ⟨hs, hep⟩] at hn
    exact absurd hn (by decide)
  have hr : m.core.commitPhase = .snapshot → m.core.snapshotChildCount < v3ChildCount := by
    intro hs
    have hno : child ∉ m.core.recorded := fun hin => hf hs (Finset.mem_filter.1 hin).2
    have hsub : m.core.recorded ⊂ Finset.range v3ChildCount :=
      (Finset.ssubset_iff_of_subset (Finset.filter_subset _ _)).2
        ⟨child, Finset.mem_range.2 hch, hno⟩
    rw [hc.count hs]
    exact (Finset.card_lt_card hsub).trans_eq (Finset.card_range _)
  simp only [commitV3Member, run_rules, run_modifyCore]
  refine ⟨_, hse, ⟨hc.delegated, he, ho⟩, hch, ?_, ?_, ?_, rfl⟩
  · rcases hc.open_or with hp | hp <;> simp [hp]
  · rcases hc.open_or with hi | hs
    · simpa [hi] using hse
    · simpa [hs] using hc.epoch_ne hs
  · intro hs
    refine ⟨hr hs, ?_⟩
    simpa [hs] using hf hs

/-- The core is accepted just if the snapshot holds every child with a digest other than zero. -/
theorem commitV3Core_accepts_iff (hco : m.core.Resumable)
    (ho : m.core.isV3Operator ctx.signer = true)
    (he : m.core.expectedCommitSequence = sequence)
    (ha : ∀ child < v3ChildCount, m.core.holds child = true) :
    (∃ m', commitV3Core ctx sequence .commitOnly m = .ok () m' ∧ m'.core.commitPhase = .idle ∧
      m'.core.lastCommittedSequence = sequence) ↔
      ∀ child < v3ChildCount, (m.core.childRecords child).digest ≠ 0 := by
  have hs : m.core.commitPhase = .snapshot := (holds_iff.1 (ha 0 (by decide))).1
  have hr : ∀ child < v3ChildCount,
      (m.core.childRecords child).epoch = m.core.snapshotEpoch :=
    fun child hc => (holds_iff.1 (ha child hc)).2
  have hre : m.core.recorded = Finset.range v3ChildCount :=
    Finset.filter_true_of_mem fun child hc => hr child (Finset.mem_range.1 hc)
  constructor
  · rintro ⟨m', hm, -⟩ child hc
    have hcom := (commitV3Core_finished hm).complete child hc
    simp only [ChildRecord.completes, and_eq_true, decide_eq_true_eq] at hcom
    exact hcom.2
  · intro hd
    simp only [commitV3Core, run_rules, all_eq_true, mem_range, run_modifyCore]
    refine ⟨_, ⟨he ▸ hco.expected_ne, ⟨hco.delegated, hs, he⟩,
      ⟨hco.epoch_ne hs, ?_⟩, ?_, ho, rfl⟩, rfl, rfl⟩
    · rw [hco.count hs, hre, Finset.card_range]
    · intro child hc
      have hin : child ∈ m.core.recorded := hre ▸ Finset.mem_range.2 hc
      simp [ChildRecord.completes, hr child hc, hco.sequence_ne hs child hin, hd child hc]

theorem commitV3Member_zero : commitV3Member ctx 0 kind child digest m ≠ .ok u m' := fun h =>
  (commitV3Member_recorded h).sequence_ne rfl

theorem commitV3Core_zero : commitV3Core ctx 0 kind m ≠ .ok u m' := by
  intro h
  simp only [commitV3Core, run_rules] at h
  exact h.1 rfl

/-! ## Cores that are reached -/

theorem MarketCore.Resumable.of_idle (hd : core.delegationStatus = .delegated)
    (hne : core.expectedCommitSequence ≠ 0) (hlt : core.expectedCommitSequence < 2 ^ 64)
    (hi : core.commitPhase = .idle) : core.Resumable where
  delegated := hd
  expected_ne := hne
  expected_lt := hlt
  open_or := .inl hi
  epoch_ne hs := by simp [hi] at hs
  count hs := by simp [hi] at hs
  sequence_ne hs := by simp [hi] at hs

theorem commitV3Core_resumable
    (h : commitV3Core ctx sequence kind m = .ok u m')
    (hd : m'.core.delegationStatus = .delegated) : m'.core.Resumable := by
  simp only [commitV3Core, run_rules, run_modifyCore] at h
  obtain ⟨-, -, -, -, -, rfl⟩ := h
  cases kind with
  | commitAndUndelegate => simp at hd
  | commitOnly =>
    refine .of_idle hd ?_ (Follows.saturatingSucc_lt sequence) rfl
    simp only [saturatingSucc]
    omega

theorem commitV3Bundle_resumable
    (h : commitV3Bundle ctx sequence kind digests m = .ok u m')
    (hd : m'.core.delegationStatus = .delegated) : m'.core.Resumable := by
  simp only [commitV3Bundle, run_rules, run_modifyCore_bind] at h
  obtain ⟨-, ⟨⟩, -, -, h⟩ := h
  obtain ⟨⟨⟩, m₁, hev, he⟩ := run_bind_eq_ok.1 h
  obtain ⟨-, -, rfl⟩ := appendEventRecord_eq_ok.1 hev
  obtain rfl := run_modifyCore.1 he
  cases kind with
  | commitAndUndelegate => simp [Market.appended] at hd
  | commitOnly =>
    refine .of_idle hd ?_ (Follows.saturatingSucc_lt sequence) rfl
    simp only [Market.appended, if_true, saturatingSucc]
    omega

theorem resumable_of_run {w₀ w : World} {as : List Action} (hc : w₀.live.core.Resumable)
    (hr : Run (fun a w w' => a.Accepted w w' ∧ a.isCommit = true) w₀ as w)
    (hd : w.live.core.delegationStatus = .delegated) : w.live.core.Resumable := by
  refine hr.invariant (P := fun w : World =>
    w.live.core.delegationStatus = .delegated → w.live.core.Resumable) (fun _ => hc) ?_
    hd
  rintro a w w' hw ⟨hacc, ha⟩ hd
  cases a <;> simp only [Action.isCommit, false_eq_true] at ha <;>
    obtain ⟨m, hm, rfl⟩ := hacc.of_handler rfl
  · exact commitV3Bundle_resumable hm hd
  · have hs := (commitV3Member_sameOperator hm).1
    exact (commitV3Member_recorded hm).resumable (hw (hs.status.symm.trans hd)) hd
  · exact commitV3Core_resumable hm hd
  · simp only [abortV3Snapshot, run_rules, run_modifyCore] at hm
    obtain ⟨-, -, rfl⟩ := hm
    have hb := hw hd
    exact .of_idle hd hb.expected_ne hb.expected_lt rfl

/-! ## The loop -/

/-- What the commits of a list of children did to the core. -/
structure Keeper.Sent (digests : ℕ → ℕ) (sent : List ℕ) (core core' : MarketCore) : Prop where
  resumable : core'.Resumable
  operator : core.SameOperator core'
  expected : core'.expectedCommitSequence = core.expectedCommitSequence + sent.length
  holds_iff : ∀ child, core'.holds child = true ↔ child ∈ sent ∨ core.holds child = true
  digest : ∀ child, core'.holds child = true → (core'.childRecords child).digest =
    if child ∈ sent then digests child else (core.childRecords child).digest

namespace Keeper

theorem Sent.refl (h : core.Resumable) : Sent digests [] core core where
  resumable := h
  operator := ⟨rfl, rfl, rfl⟩
  expected := rfl
  holds_iff child := by simp
  digest child _ := by simp

theorem Sent.trans {core'' : MarketCore} (h : Sent digests [child] core core')
    (h' : Sent digests sent core' core'') : Sent digests (child :: sent) core core'' where
  resumable := h'.resumable
  operator := h.operator.trans h'.operator
  expected := by
    rw [h'.expected, h.expected, length_singleton, length_cons]
    omega
  holds_iff other := by
    rw [h'.holds_iff, h.holds_iff, mem_singleton, mem_cons]
    tauto
  digest other ho := by
    rw [h'.digest other ho]
    by_cases hin : other ∈ sent
    · rw [if_pos hin, if_pos (mem_cons_of_mem _ hin)]
    · have hh := ((h'.holds_iff other).1 ho).resolve_left hin
      rw [if_neg hin, h.digest other hh]
      simp only [mem_cons, hin, not_mem_nil]

theorem sent_of_commitV3Member (hc : m.core.Resumable)
    (h : commitV3Member ctx sequence .commitOnly child (digests child) m = .ok u m')
    (hro : sequence + 1 < 2 ^ 64) : Sent digests [child] m.core m'.core where
  resumable := (commitV3Member_recorded h).resumable hc
    ((commitV3Member_sameOperator h).1.status.trans hc.delegated)
  operator := (commitV3Member_sameOperator h).1
  expected := by
    have hr := commitV3Member_recorded h
    rw [hr.next, hr.expected, Follows.saturatingSucc_of_lt (by omega)]
    rfl
  holds_iff other := by
    rw [(commitV3Member_recorded h).holds_iff, mem_singleton]
  digest other ho := by
    have hr := commitV3Member_recorded h
    by_cases heq : other = child
    · rw [heq, hr.record_self, if_pos mem_cons_self]
    · rw [hr.record_of_holds heq (((hr.holds_iff other).1 ho).resolve_left heq),
        if_neg (by simpa using heq)]

def unsent (core : MarketCore) (rest : List ℕ) : List ℕ :=
  rest.filter fun child => !core.holds child

theorem unsent_cons_of_holds (h : core.holds child = true) :
    unsent core (child :: rest) = unsent core rest := by
  simp [unsent, h]

theorem unsent_cons_of_new (h : core.holds child = false) :
    unsent core (child :: rest) = child :: unsent core rest := by
  simp [unsent, h]

/-- With room for all sequences every child that was not held is accepted. -/
theorem commitChildren_sent (digests : ℕ → ℕ) (hc : m.core.Resumable)
    (ho : m.core.isV3Operator ctx.signer = true)
    (he : m.core.expectedCommitSequence = sequence) (hno : rest.Nodup)
    (hlt : ∀ child ∈ rest, child < v3ChildCount)
    (hn : ∀ child ∈ unsent core rest, m.core.holds child = false)
    (hr : sequence + (unsent core rest).length < 2 ^ 64) :
    ∃ m', commitChildren ctx digests core rest sequence m =
      .ok (sequence + (unsent core rest).length) m' ∧
      Sent digests (unsent core rest) m.core m'.core := by
  induction rest generalizing m sequence with
  | nil => exact ⟨m, rfl, .refl hc⟩
  | cons child rest ih =>
    obtain ⟨hnot, hno⟩ := nodup_cons.1 hno
    obtain ⟨hch, hlt⟩ := forall_mem_cons.1 hlt
    by_cases hh : core.holds child = true
    · rw [unsent_cons_of_holds hh] at hn hr ⊢
      rw [commitChildren, if_pos hh]
      exact ih hc ho he hno hlt hn hr
    · have hsk : core.holds child = false := eq_false_iff.2 hh
      rw [unsent_cons_of_new hsk] at hn hr ⊢
      rw [length_cons] at hr ⊢
      obtain ⟨hf, hn⟩ := forall_mem_cons.1 hn
      obtain ⟨m₁, hm₁⟩ := commitV3Member_accepts (digests child) hc ho he hch hf
      have hs := sent_of_commitV3Member hc hm₁ (by omega)
      have hne : (sequence + 1) % 2 ^ 64 = sequence + 1 := Nat.mod_eq_of_lt (by omega)
      -- The children behind it are others, so that the snapshot does not hold them either.
      have hn₁ : ∀ other ∈ unsent core rest, m₁.core.holds other = false := by
        intro other hot
        rw [eq_false_iff]
        intro hh
        rcases (hs.holds_iff other).1 hh with hmem | hh
        · exact hnot (mem_singleton.1 hmem ▸ mem_of_mem_filter hot)
        · simp [hn other hot] at hh
      have he₁ : m₁.core.expectedCommitSequence = sequence + 1 := by
        rw [hs.expected, he, length_singleton]
      obtain ⟨m', hm', hre⟩ := ih hs.resumable
        ((hs.operator.isV3Operator_eq _).trans ho) he₁ hno hlt hn₁ (by omega)
      refine ⟨m', ?_, hs.trans hre⟩
      rw [commitChildren, if_neg hh, run_bind_of_ok hm₁, hne, hm']
      congr 1
      omega

variable {r : ℕ}

theorem commitFrom_zero : commitFrom ctx digests core rest 0 m ≠ .ok r m' := by
  intro h
  obtain ⟨q, m₁, hm₁, he⟩ := run_bind_eq_ok.1 h
  clear h
  induction rest generalizing m with
  | nil =>
    obtain ⟨⟨⟩, m₂, hm₂, -⟩ := run_bind_eq_ok.1 he
    obtain ⟨rfl, rfl⟩ := EStateM.Result.ok.inj hm₁
    exact commitV3Core_zero hm₂
  | cons child rest ih =>
    rw [commitChildren] at hm₁
    split at hm₁
    · exact ih hm₁
    · obtain ⟨⟨⟩, m₂, hm₂, -⟩ := run_bind_eq_ok.1 hm₁
      exact commitV3Member_zero hm₂

theorem commitFrom_overflow (hlt : sequence < 2 ^ 64)
    (hf : 2 ^ 64 ≤ sequence + (unsent core rest).length) :
    commitFrom ctx digests core rest sequence m ≠ .ok r m' := by
  intro h
  obtain ⟨q, m₁, hm₁, he⟩ := run_bind_eq_ok.1 h
  clear h
  induction rest generalizing m sequence with
  | nil =>
    simp only [unsent, filter_nil, length_nil] at hf
    omega
  | cons child rest ih =>
    rw [commitChildren] at hm₁
    split at hm₁
    · rename_i hh
      rw [unsent_cons_of_holds hh] at hf
      exact ih hlt hf hm₁
    · rename_i hh
      rw [unsent_cons_of_new (eq_false_iff.2 hh), length_cons] at hf
      obtain ⟨⟨⟩, m₂, -, hm₁⟩ := run_bind_eq_ok.1 hm₁
      by_cases hl : sequence + 1 = 2 ^ 64
      · rw [hl, Nat.mod_self] at hm₁
        exact commitFrom_zero (run_bind_eq_ok.2 ⟨q, m₁, hm₁, he⟩)
      · rw [Nat.mod_eq_of_lt (by omega)] at hm₁
        exact ih (by omega) (by omega) hm₁

theorem commit_eq_ok_iff : commit ctx digests m = .ok r m' ↔
    commitFrom ctx digests m.core (range v3ChildCount) m.core.expectedCommitSequence m =
      .ok r m' := by
  have hr : (asking id >>= fun m => commitFrom ctx digests m.core (range v3ChildCount)
      m.core.expectedCommitSequence) m = commitFrom ctx digests m.core (range v3ChildCount)
        m.core.expectedCommitSequence m := rfl
  simp only [commit, tryCatch, tryCatchThe, MonadExceptOf.tryCatch, EStateM.tryCatch, hr]
  cases hf : commitFrom ctx digests m.core (range v3ChildCount) m.core.expectedCommitSequence m with
  | ok r₁ m₁ => rfl
  | error e m₁ =>
    refine iff_of_false ?_ (by simp)
    intro h
    obtain ⟨⟨⟩, m₂, -, ht⟩ := run_bind_eq_ok.1 h
    exact nomatch ht

def finalDigest (core : MarketCore) (digests : ℕ → ℕ) (child : ℕ) : ℕ :=
  if core.holds child then (core.childRecords child).digest else digests child

theorem mem_unsent_range : child ∈ unsent core (range v3ChildCount) ↔
    child < v3ChildCount ∧ core.holds child = false := by
  simp [unsent]

theorem Sent.all (h : Sent digests (unsent core (range v3ChildCount)) core core')
    (hc : child < v3ChildCount) : core'.holds child = true ∧
      (core'.childRecords child).digest = finalDigest core digests child := by
  have hh : core'.holds child = true := by
    rw [h.holds_iff, mem_unsent_range]
    cases core.holds child with
    | true => exact .inr rfl
    | false => exact .inl ⟨hc, rfl⟩
  refine ⟨hh, ?_⟩
  rw [h.digest child hh, finalDigest]
  cases hco : core.holds child with
  | true =>
    have hn : child ∉ unsent core (range v3ChildCount) := by
      simp [mem_unsent_range, hco]
    rw [if_neg hn, if_pos rfl]
  | false => rw [if_pos (mem_unsent_range.2 ⟨hc, hco⟩), if_neg (by decide)]

/-- The keeper's commit completes from every core that may have been left, and returns the
sequence of the core's commit, exactly if the counter does not run out and no child has the digest
zero. -/
theorem commit_completes_iff (hcore : m.core.Resumable)
    (hoperator : m.core.isV3Operator ctx.signer = true) :
    (∃ sequence m', commit ctx digests m = .ok sequence m' ∧ m'.core.commitPhase = .idle ∧
      m'.core.lastCommittedSequence = sequence) ↔
      m.core.expectedCommitSequence + (unsent m.core (range v3ChildCount)).length < 2 ^ 64 ∧
      ∀ child < v3ChildCount, finalDigest m.core digests child ≠ 0 := by
  simp only [commit_eq_ok_iff]
  by_cases hr : m.core.expectedCommitSequence + (unsent m.core (range v3ChildCount)).length < 2 ^ 64
  · obtain ⟨m₁, hm₁, hs⟩ := commitChildren_sent digests hcore hoperator rfl
      nodup_range (fun child hc => mem_range.1 hc) (fun child hc => (mem_unsent_range.1 hc).2) hr
    have he := commitV3Core_accepts_iff hs.resumable
      ((hs.operator.isV3Operator_eq _).trans hoperator) hs.expected (fun child hc => (hs.all hc).1)
    have hd : (∀ child < v3ChildCount, (m₁.core.childRecords child).digest ≠ 0) ↔
        ∀ child < v3ChildCount, finalDigest m.core digests child ≠ 0 :=
      forall₂_congr fun child hc => by rw [(hs.all hc).2]
    rw [and_iff_right hr, ← hd, ← he]
    constructor
    · rintro ⟨sequence, m', h, hi, hl⟩
      rw [commitFrom, run_bind_of_ok hm₁] at h
      obtain ⟨⟨⟩, m₂, hm₂, h⟩ := run_bind_eq_ok.1 h
      obtain ⟨rfl, rfl⟩ := EStateM.Result.ok.inj h
      exact ⟨_, hm₂, hi, hl⟩
    · rintro ⟨m', hm', hi, hl⟩
      refine ⟨_, m', ?_, hi, hl⟩
      rw [commitFrom, run_bind_of_ok hm₁, run_bind_of_ok hm']
      rfl
  · refine iff_of_false ?_ fun h => hr h.1
    rintro ⟨sequence, m', h, -⟩
    exact commitFrom_overflow hcore.expected_lt (not_lt.1 hr) h

/-- A commit that is resumed after the first three children. -/
def resumed : Market := (funded.after ((memberRun .commitOnly).take 3)).live

theorem resumed_resumable : resumed.core.Resumable := by
  have hr : Run (fun a w w' => a.Accepted w w' ∧ a.isCommit = true) funded
      ((memberRun .commitOnly).take 3) (funded.after ((memberRun .commitOnly).take 3)) :=
    run_of_accepts (by decide +kernel)
  refine resumable_of_run (.of_idle ?_ ?_ ?_ ?_) hr ?_
  all_goals decide +kernel

theorem commit_completes_of_resumed : ∃ sequence m',
    commit (call 3 1000) (fun _ => 1) resumed = .ok sequence m' ∧
      m'.core.commitPhase = .idle ∧ m'.core.lastCommittedSequence = sequence :=
  (commit_completes_iff resumed_resumable (by decide +kernel)).2 (by decide +kernel)

/-- At the last sequence the first child is accepted and the second is not. -/
theorem commit_refused_at_last_sequence : ∃ (m : Market) (ctx : Context) (digests : ℕ → ℕ),
    m.core.Resumable ∧ m.core.isV3Operator ctx.signer = true ∧
    m.core.expectedCommitSequence = 2 ^ 64 - 1 ∧ (∀ child, digests child ≠ 0) ∧
    ∀ sequence m', commit ctx digests m ≠ .ok sequence m' := by
  refine ⟨saturated.live, call 3 1000, fun _ => 1,
    .of_idle (by decide +kernel) (by decide +kernel) (by decide +kernel) (by decide +kernel),
    by decide +kernel, by decide +kernel, by simp, ?_⟩
  intro sequence m' h
  rw [commit_eq_ok_iff] at h
  exact commitFrom_overflow (by decide +kernel) (by decide +kernel) h

end Keeper

end Equinox
