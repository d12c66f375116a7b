import Equinox.Market.Frozen
import Equinox.Market.Recovery
import Equinox.Market.Turns

/-! # The commit cursor

A core expects one commit sequence and remembers the last one it accepted. Each
commit moves both on, an undelegating one lets them meet, and a new delegation
continues behind the last one. Sequences therefore never repeat, over any number
of cycles.
-/

namespace Equinox

open Foundation World MarketCore DelegationStatus List

/-! ## Cycles -/

/-- Where a core is in its cycle, the sequence it expects and the last one it accepted. -/
structure Cursor where
  status : DelegationStatus
  expected : ℕ
  last : ℕ

namespace Cursor

variable {permitted : Prop} {c c' : Cursor} {accepted : Option ℕ} {log : List ℕ}

/-- How a cursor moves, and the sequence that is accepted thereby. A delegation needs permission. -/
inductive Step (permitted : Prop) : Cursor → Option ℕ → Cursor → Prop
  | stay (c : Cursor) : Step permitted c none c
  | delegated {c : Cursor} (permission : permitted) (onL1 : c.status.isOnL1 = true) :
    Step permitted c none ⟨.delegated, c.last + 1, c.last⟩
  | committed {c : Cursor} (delegated : c.status = .delegated) :
    Step permitted c (some c.expected) ⟨.delegated, c.expected + 1, c.expected⟩
  | undelegated {c : Cursor} (delegated : c.status = .delegated) :
    Step permitted c (some c.expected) ⟨.undelegating, c.expected, c.expected⟩
  | restored {c : Cursor} (undelegating : c.status = .undelegating) :
    Step permitted c none ⟨.restored, c.expected, c.last⟩

/-- A cursor that has accepted a log of sequences. -/
structure Follows (c : Cursor) (log : List ℕ) : Prop where
  increasing : log.Pairwise (· < ·)
  past : ∀ s ∈ log, s ≤ c.last
  next : c.status = .delegated → c.expected = c.last + 1
  fresh : c.status = .notDelegated → c.expected ≤ c.last + 1
  met : c.status = .undelegating ∨ c.status = .restored → c.expected = c.last

theorem Follows.start (hs : c.status = .notDelegated) (hle : c.expected ≤ c.last + 1) :
    c.Follows [] where
  increasing := .nil
  past := by simp
  next := by simp [hs]
  fresh _ := hle
  met := by simp [hs]

theorem Follows.append_expected (h : c.Follows log) (hst : c.status = .delegated) :
    (log ++ [c.expected]).Pairwise (· < ·) ∧ ∀ s ∈ log ++ [c.expected], s ≤ c.expected := by
  have hn := h.next hst
  refine ⟨pairwise_append.2 ⟨h.increasing, pairwise_singleton _ _, ?_⟩, ?_⟩
  · rintro s hs _ (_ | ⟨_, ⟨⟩⟩)
    have := h.past s hs
    omega
  · rintro s hs
    rcases mem_append.1 hs with hs | hs
    · have := h.past s hs
      omega
    · exact (mem_singleton.1 hs).le

theorem Follows.step (h : c.Follows log) (hst : Step permitted c accepted c') :
    c'.Follows (log ++ accepted.toList) ∧ c.expected ≤ c'.expected := by
  cases hst with
  | stay => exact ⟨by simpa using h, le_rfl⟩
  | delegated _ onL1 =>
    have hle : c.expected ≤ c.last + 1 := by
      cases hs : c.status with
      | notDelegated => exact h.fresh hs
      | restored => exact (h.met (.inr hs)).le.trans (Nat.le_succ _)
      | _ => simp [hs, isOnL1] at onL1
    exact ⟨⟨by simpa using h.increasing, by simpa using h.past, fun _ => rfl, by simp, by simp⟩,
      hle⟩
  | committed hs =>
    obtain ⟨hl, hp⟩ := h.append_expected hs
    exact ⟨⟨hl, hp, fun _ => rfl, by simp, by simp⟩, Nat.le_succ _⟩
  | undelegated hs =>
    obtain ⟨hl, hp⟩ := h.append_expected hs
    exact ⟨⟨hl, hp, by simp, by simp, fun _ => rfl⟩, le_rfl⟩
  | restored hs =>
    exact ⟨⟨by simpa using h.increasing, by simpa using h.past, by simp, by simp,
      fun _ => h.met (.inl hs)⟩, le_rfl⟩

theorem Step.dormant (h : Step permitted c accepted c') (hn : ¬permitted)
    (hs : c.status ≠ .delegated) :
    accepted = none ∧ c'.status ≠ .delegated ∧ c'.expected = c.expected := by
  cases h with
  | stay => exact ⟨rfl, hs, rfl⟩
  | delegated permission => exact absurd permission hn
  | committed delegated | undelegated delegated => exact absurd delegated hs
  | restored => exact ⟨rfl, by simp, rfl⟩

end Cursor

/-! ## The cursor of a core -/

section Accepted

variable {w w' : World} {m m' : Market} {ctx : Context} {u : Unit} {a : Action} {sequence : ℕ}
  {kind : CommitKind} {log : List ℕ}

def MarketCore.cursor (core : MarketCore) : Cursor :=
  ⟨core.delegationStatus, core.expectedCommitSequence, core.lastCommittedSequence⟩

def Action.commitSequence : Action → Option ℕ
  | commitV3Bundle _ sequence _ _ | commitV3Member _ sequence _ _ _ | commitV3Core _ sequence _ =>
    some sequence
  | _ => none

theorem commitV3Member_cursor {child digest : ℕ}
    (h : commitV3Member ctx sequence kind child digest m = .ok u m')
    (hlt : sequence < 2 ^ 64 - 1) :
    Cursor.Step (m.core.riskConfigVersion = v3RiskConfigVersion) m.core.cursor (some sequence)
      m'.core.cursor := by
  simp only [commitV3Member, run_rules, run_modifyCore] at h
  obtain ⟨-, ⟨hs, rfl, -⟩, -, -, -, -, rfl⟩ := h
  have ho (epoch : ℕ) : (m.core.openSnapshot epoch).delegationStatus = .delegated := by
    unfold openSnapshot
    split <;> exact hs
  simp only [cursor, ho, Follows.saturatingSucc_of_lt hlt]
  exact .committed (c := m.core.cursor) hs

theorem commitV3Bundle_cursor {digests : ℕ → ℕ}
    (h : commitV3Bundle ctx sequence kind digests m = .ok u m')
    (hlt : sequence < 2 ^ 64 - 1) :
    Cursor.Step (m.core.riskConfigVersion = v3RiskConfigVersion) m.core.cursor (some sequence)
      m'.core.cursor := by
  simp only [commitV3Bundle, run_rules, run_modifyCore_bind] at h
  obtain ⟨-, ⟨⟩, -, ⟨-, hs, rfl⟩, h⟩ := h
  obtain ⟨⟨⟩, m₁, hev, he⟩ := run_bind_eq_ok.1 h
  obtain ⟨-, -, rfl⟩ := appendEventRecord_eq_ok.1 hev
  obtain rfl := run_modifyCore.1 he
  cases kind with
  | commitOnly =>
    simp only [cursor, Market.appended, if_true, hs, Follows.saturatingSucc_of_lt hlt]
    exact .committed (c := ⟨.delegated, _, _⟩) rfl
  | commitAndUndelegate => exact .undelegated (c := m.core.cursor) hs

theorem commitV3Core_cursor (h : commitV3Core ctx sequence kind m = .ok u m')
    (hlt : sequence < 2 ^ 64 - 1) :
    Cursor.Step (m.core.riskConfigVersion = v3RiskConfigVersion) m.core.cursor (some sequence)
      m'.core.cursor := by
  simp only [commitV3Core, run_rules, run_modifyCore] at h
  obtain ⟨-, ⟨hs, -, rfl⟩, -, -, -, rfl⟩ := h
  cases kind with
  | commitOnly =>
    simp only [cursor, hs, Follows.saturatingSucc_of_lt hlt]
    exact .committed (c := ⟨.delegated, _, _⟩) rfl
  | commitAndUndelegate => exact .undelegated (c := m.core.cursor) hs

theorem delegateV3Core_cursor {validator : Address}
    (h : delegateV3Core ctx validator m = .ok u m') :
    Cursor.Step (m.core.riskConfigVersion = v3RiskConfigVersion) m.core.cursor none
      m'.core.cursor := by
  simp only [delegateV3Core, run_rules, exists_checkedU64, run_modifyCore] at h
  obtain ⟨-, ⟨-, -, -, hf⟩, hv, -, -, -, rfl⟩ := h
  refine .delegated (c := m.core.cursor) hv ?_
  cases hs : m.core.delegationStatus <;> simp [delegatable, cursor, isOnL1, hs] at hf ⊢

theorem reconcileVaultV3_cursor {vault : ℕ} (h : reconcileVaultV3 ctx vault m = .ok u m') :
    Cursor.Step (m.core.riskConfigVersion = v3RiskConfigVersion) m.core.cursor none
      m'.core.cursor := by
  simp only [reconcileVaultV3, run_rules, exists_checkedI128, exists_checkedU64,
    run_modifyCore_bind] at h
  obtain ⟨⟨⟩, -, -, -, -, -, -, -, h⟩ := h
  obtain ⟨-, -, rfl⟩ := appendEventRecord_eq_ok.1 h
  simp only [cursor, Market.appended]
  by_cases hr : m.core.isReturned = true
  · rw [if_pos hr]
    refine .restored (c := m.core.cursor) ?_
    simp only [isReturned, Bool.and_eq_true, decide_eq_true_eq] at hr
    exact hr.1
  · rw [if_neg hr]
    exact .stay _

/-- Every accepted action but a rollback moves the cursor as a cycle allows. -/
theorem Action.Accepted.cursorStep (h : a.Accepted w w') (hr : a ≠ .rollbackV3Undelegation)
    (hlt : ∀ sequence ∈ a.commitSequence, sequence < 2 ^ 64 - 1) :
    Cursor.Step (w.live.core.riskConfigVersion = v3RiskConfigVersion) w.live.core.cursor
      a.commitSequence w'.live.core.cursor := by
  cases hc : a.isCommit with
  | true =>
    cases a <;> simp only [isCommit, Bool.false_eq_true] at hc <;>
      obtain ⟨m, hm, rfl⟩ := h.of_handler rfl
    · exact commitV3Bundle_cursor hm (hlt _ rfl)
    · exact commitV3Member_cursor hm (hlt _ rfl)
    · exact commitV3Core_cursor hm (hlt _ rfl)
    · simp only [Equinox.abortV3Snapshot, run_rules, run_modifyCore] at hm
      obtain ⟨-, -, rfl⟩ := hm
      exact .stay _
  | false =>
    cases hmo : a.isMove with
    | false =>
      have hl := congrArg cursor (h.lasting_eq hc hmo)
      have hs : w'.live.core.cursor = w.live.core.cursor := hl
      rw [hs]
      cases a <;> simp only [isCommit, Bool.true_eq_false] at hc <;> exact .stay _
    | true =>
      cases a with
      | delegateV3Core =>
        obtain ⟨m, hm, rfl⟩ := h.of_handler rfl
        exact delegateV3Core_cursor hm
      | reconcileVaultV3 =>
        obtain ⟨m, hm, rfl⟩ := h.of_reconcile
        exact reconcileVaultV3_cursor hm
      | rollbackV3Undelegation => exact absurd rfl hr
      | _ => cases hmo

/-! ## Rolled back cores -/

/-- Only a rollback changes whether the configuration is of this version: only one that can be read
is ever replaced. -/
theorem Action.Accepted.version_iff (h : a.Accepted w w') (hro : a ≠ .rollbackV3Undelegation) :
    w'.live.core.riskConfigVersion = v3RiskConfigVersion ↔
      w.live.core.riskConfigVersion = v3RiskConfigVersion := by
  cases h.step.turn with
  | opened _ _ logged | closed _ _ logged =>
    obtain ⟨_, hc⟩ := logged.core
    rw [hc]
    rfl
  | traded trades => rw [trades.traded.sameTerms.riskConfigVersion]
  | liquidated _ hl => rw [hl.sameTerms.riskConfigVersion]
  | configured _ readable result =>
    obtain ⟨_, hr⟩ := readable
    exact iff_of_true (by rw [result]) (readV3RiskConfig_eq_ok.1 hr).1
  | rolledBack => exact absurd rfl hro
  | kept _ terms => rw [terms.riskConfigVersion]

/-! ## Runs -/

def Action.leavesRoom (a : Action) : Prop := ∀ sequence ∈ a.commitSequence, sequence < 2 ^ 64 - 1

instance (a : Action) : Decidable a.leavesRoom := by unfold Action.leavesRoom; infer_instance

/-- Put the sequence of a commit behind those accepted before. -/
def Action.commits (a : Action) (_ _ : World) (log : List ℕ) : List ℕ :=
  log ++ a.commitSequence.toList

/-- The live core has accepted a log of sequences, or has been rolled back and accepts no more. -/
structure World.Sequenced (w : World) (log : List ℕ) : Prop where
  increasing : log.Pairwise (· < ·)
  l1 : w.l1.core.expectedCommitSequence ≤ w.live.core.expectedCommitSequence
  follows : w.live.core.riskConfigVersion = v3RiskConfigVersion → w.live.core.cursor.Follows log
  dormant : w.live.core.riskConfigVersion ≠ v3RiskConfigVersion →
    w.live.core.delegationStatus ≠ .delegated

theorem Action.Accepted.l1_core (h : a.Accepted w w') (hr : a ≠ .rollbackV3Undelegation) :
    w'.l1.core = w.l1.core ∨ w'.l1.core = w'.live.core := by
  have hl (m : Market) : (w.withLive m).l1.core = w.l1.core ∨ (w.withLive m).l1.core = m.core := by
    unfold withLive
    dsimp only
    split
    · exact .inr rfl
    · exact .inl rfl
  cases h.step with
  | rolledBack => exact absurd rfl hr
  | reconciled | copiedCore => exact .inr rfl
  | inboxed | paid | copiedShard | donated => exact .inl rfl
  | _ => exact hl _

theorem World.Sequenced.step (hw : w.Sequenced log) (h : a.Accepted w w') (hro : a.leavesRoom) :
    w'.Sequenced (a.commits w w' log) ∧
      w.l1.core.expectedCommitSequence ≤ w'.l1.core.expectedCommitSequence ∧
      (a ≠ .rollbackV3Undelegation →
        w.live.core.expectedCommitSequence ≤ w'.live.core.expectedCommitSequence) := by
  by_cases hr : a = .rollbackV3Undelegation
  · subst hr
    obtain rfl := pure_eq_ok.1 h
    refine ⟨⟨?_, le_rfl, fun hz => ?_, fun _ => ?_⟩, le_rfl, fun hne => absurd rfl hne⟩
    · simpa [Action.commits, Action.commitSequence] using hw.increasing
    · exact absurd (show 0 = v3RiskConfigVersion from hz) (by decide)
    · rintro (hs : restored = .delegated)
      cases hs
  have hst := h.cursorStep hr hro
  have hk : w'.l1.core.expectedCommitSequence = w.l1.core.expectedCommitSequence ∨
      w'.l1.core.expectedCommitSequence = w'.live.core.expectedCommitSequence :=
    (h.l1_core hr).imp (congrArg _) (congrArg _)
  have hl1 := hw.l1
  by_cases hv : w.live.core.riskConfigVersion = v3RiskConfigVersion
  · obtain ⟨hf, hle⟩ := (hw.follows hv).step hst
    have hle : w.live.core.expectedCommitSequence ≤ w'.live.core.expectedCommitSequence := hle
    refine ⟨⟨hf.increasing, by omega, fun _ => hf, fun hn => ?_⟩, by omega, fun _ => hle⟩
    exact absurd ((h.version_iff hr).2 hv) hn
  · obtain ⟨hno, hs, heq⟩ := hst.dormant hv (hw.dormant hv)
    have heq : w'.live.core.expectedCommitSequence = w.live.core.expectedCommitSequence := heq
    refine ⟨⟨?_, by omega, fun hn => ?_, fun _ => hs⟩, by omega, fun _ => heq.ge⟩
    · simpa [Action.commits, hno] using hw.increasing
    · exact absurd ((h.version_iff hr).1 hn) hv

theorem World.Initial.sequenced (h : w.Initial) : w.Sequenced [] := by
  obtain ⟨_, _, _, _, _, _, hc⟩ := h.core
  simp only [initializeV3Market, ok_rules] at hc
  have hv : w.live.core.riskConfigVersion = v3RiskConfigVersion := by
    rw [← hc.2.2.2]
    rfl
  have hcu : w.live.core.cursor = ⟨.notDelegated, 0, 0⟩ := by
    rw [← hc.2.2.2]
    rfl
  refine ⟨.nil, by rw [h.l1], fun _ => ?_, fun hne => absurd hv hne⟩
  rw [hcu]
  exact .start rfl (Nat.zero_le _)

theorem validateV3WithdrawalReadiness_iff
    (hm : m.core.delegationStatus = .restored →
      m.core.riskConfigVersion = v3RiskConfigVersion →
      m.core.expectedCommitSequence = m.core.lastCommittedSequence) :
    validateV3WithdrawalReadiness m = .ok () ↔ validateExecutionBundle m = .ok () ∧
      m.core.delegationStatus = .restored ∧
      (m.core.reconciliationStatus = 0 ∨ m.core.reconciliationStatus = 1) := by
  simp only [validateV3WithdrawalReadiness, bind_eq_ok, require_eq_ok]
  constructor
  · rintro ⟨⟨⟩, hb, ⟨⟩, hs, ⟨⟩, -, hr⟩
    exact ⟨hb, hs, hr⟩
  · rintro ⟨hb, hs, hr⟩
    exact ⟨(), hb, (), hs, (), hm hs (validateExecutionBundle_eq_ok hb).2.1, hr⟩

end Accepted

/-- In every run the sequences of the accepted commits increase strictly. No step lowers the
sequence the L1 core expects, and none but a rollback the one the live core expects. After an
undelegating commit the live core expects the sequence it accepted last, so that the cursor does not
stop a withdrawal. -/
theorem commit_sequences_increase {w₀ w : World} {as : List Action} {log : List ℕ}
    (hinit : w₀.Initial)
    (hrun : Run (noting (fun a w w' => a.Accepted w w' ∧ a.leavesRoom) Action.commits)
      (w₀, []) as (w, log)) :
    log.Pairwise (· < ·) ∧
    (∀ (a : Action) (w' : World), a.Accepted w w' → a.leavesRoom →
      w.l1.core.expectedCommitSequence ≤ w'.l1.core.expectedCommitSequence ∧
      (a ≠ .rollbackV3Undelegation →
        w.live.core.expectedCommitSequence ≤ w'.live.core.expectedCommitSequence)) ∧
    (w.live.core.delegationStatus = .undelegating ∨ w.live.core.delegationStatus = .restored →
      w.live.core.riskConfigVersion = v3RiskConfigVersion →
      w.live.core.expectedCommitSequence = w.live.core.lastCommittedSequence) ∧
    (validateV3WithdrawalReadiness w.live = .ok () ↔ validateExecutionBundle w.live = .ok () ∧
      w.live.core.delegationStatus = .restored ∧
      (w.live.core.reconciliationStatus = 0 ∨ w.live.core.reconciliationStatus = 1)) := by
  have hw : w.Sequenced log := hrun.invariant (P := fun s => s.1.Sequenced s.2) hinit.sequenced
    fun a s s' hs hstep => hstep.2 ▸ (hs.step hstep.1.1 hstep.1.2).1
  have hm : w.live.core.delegationStatus = .undelegating ∨
      w.live.core.delegationStatus = .restored →
      w.live.core.riskConfigVersion = v3RiskConfigVersion →
      w.live.core.expectedCommitSequence = w.live.core.lastCommittedSequence :=
    fun hst hv => (hw.follows hv).met hst
  exact ⟨hw.increasing, fun a w' h hr => (hw.step h hr).2, hm,
    validateV3WithdrawalReadiness_iff fun hst => hm (.inr hst)⟩

/-- Two cycles: the market is delegated, committed child by child and handed back, reconciled,
delegated again, and one child is committed. -/
def cyclesRun : List Action :=
  undelegateRun ++ [.reconcileVaultV3 (call 3 1000),
    .delegateV3Core (call 3 1000) 9,
    .commitV3Member (call 3 1000) (v3ChildCount + 2) .commitOnly 0 1]

theorem commit_sequences_increase_of_cyclesRun :
    (genesis.noted Action.commits [] cyclesRun).Pairwise (· < ·) ∧
      (genesis.noted Action.commits [] cyclesRun).length = v3ChildCount + 2 := by
  have hr : Run (noting (fun a w w' => a.Accepted w w' ∧ a.leavesRoom) Action.commits)
      (genesis, []) cyclesRun
      (genesis.after cyclesRun, genesis.noted Action.commits [] cyclesRun) :=
    run_noted (by decide +kernel)
  exact ⟨(commit_sequences_increase genesis_initial hr).1, by decide +kernel⟩

end Equinox
