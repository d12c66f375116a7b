import Equinox.Market.Snapshots

/-! # The kinds of a snapshot

Each child and the core are committed with a kind of their own, chosen by the
caller. The records of a snapshot hold an epoch, a sequence and a digest but no
kind, so that the core cannot compare its kind with that of its children. The
kinds that are seen in a snapshot are kept beside the core here, and compared
with those of the calls.
-/

namespace Equinox

open Foundation Function World List CommitKind

variable {w w' : World} {ctx : Context} {sequence : ℕ} {kind : CommitKind} {a : Action}
  {seen : ℕ → Option CommitKind} {kinds : List CommitKind} {core core' : MarketCore}

/-- Note the kind a child is committed with. A snapshot starts with no child. -/
def Action.noteKind : Action → World → World → (ℕ → Option CommitKind) → ℕ → Option CommitKind
  | commitV3Member _ _ kind child _, w, _, seen =>
    update (if w.live.core.commitPhase = .idle then fun _ => none else seen) child
      (some kind)
  | _, _, _, seen => seen

/-- All children leave with the core, or none of them does. -/
def CommitKind.AllOrNone (kind : CommitKind) (seen : ℕ → Option CommitKind) : Prop :=
  match kind with
  | .commitAndUndelegate => ∀ child < v3ChildCount, seen child = some .commitAndUndelegate
  | .commitOnly => ∀ child < v3ChildCount, seen child ≠ some .commitAndUndelegate

instance : Decidable (kind.AllOrNone seen) := by
  unfold AllOrNone
  split <;> infer_instance

/-- The kinds of the children's calls since the last abort or commit of the core. -/
def Action.pendingKinds (kinds : List CommitKind) : Action → List CommitKind
  | commitV3Member _ _ kind _ _ => kind :: kinds
  | abortV3Snapshot .. | commitV3Core .. => []
  | _ => kinds

/-- The kinds seen in an open snapshot are those of the pending calls. -/
structure MarketCore.Shows (core : MarketCore) (seen : ℕ → Option CommitKind)
    (kinds : List CommitKind) : Prop where
  closed : core.commitPhase ≠ .snapshot → kinds = []
  of_record : core.commitPhase = .snapshot → ∀ child < v3ChildCount,
    (core.childRecords child).epoch = core.snapshotEpoch → ∃ k ∈ kinds, seen child = some k
  of_call : core.commitPhase = .snapshot → ∀ k ∈ kinds, ∃ child < v3ChildCount,
    (core.childRecords child).epoch = core.snapshotEpoch ∧ seen child = some k

namespace MarketCore.Shows

theorem of_closed (hp : core.commitPhase ≠ .snapshot) : core.Shows seen [] where
  closed _ := rfl
  of_record hs := absurd hs hp
  of_call hs := absurd hs hp

theorem opened {child digest : ℕ} (hr : core.Recorded sequence child digest core')
    (hi : core.commitPhase = .idle) :
    core'.Shows (update (fun _ => none) child (some kind)) [kind] where
  closed hp := absurd hr.phase hp
  of_record _ other _ hre := by
    obtain rfl := (hr.record_of_idle hi other).1 hre
    exact ⟨kind, by simp, by simp⟩
  of_call _ k hk := by
    obtain rfl := mem_singleton.1 hk
    exact ⟨child, hr.child_lt, (hr.record_of_idle hi child).2 rfl, by simp⟩

theorem joined {child digest : ℕ} (h : core.Shows seen kinds)
    (hr : core.Recorded sequence child digest core') (hs : core.commitPhase = .snapshot) :
    core'.Shows (update seen child (some kind)) (kind :: kinds) where
  closed hp := absurd hr.phase hp
  of_record _ other ho hre := by
    by_cases heq : other = child
    · exact ⟨kind, mem_cons_self, by rw [heq, update_self]⟩
    · have hold := ((hr.record_of_snapshot hs other).1 hre).resolve_left heq
      obtain ⟨k, hk, hse⟩ := h.of_record hs other ho hold
      exact ⟨k, mem_cons_of_mem _ hk, by rw [update_of_ne heq, hse]⟩
  of_call _ k hk := by
    rcases mem_cons.1 hk with rfl | hk
    · exact ⟨child, hr.child_lt, (hr.record_of_snapshot hs child).2 (.inl rfl), update_self ..⟩
    · obtain ⟨other, ho, hre, hse⟩ := h.of_call hs k hk
      have hne : other ≠ child := by
        rintro rfl
        exact hr.fresh hs hre
      exact ⟨other, ho, (hr.record_of_snapshot hs other).2 (.inr hre),
        by rw [update_of_ne hne, hse]⟩

theorem step (h : w.live.core.Shows seen kinds) (hacc : a.Accepted w w')
    (ha : a.isCommit = true) :
    w'.live.core.Shows (a.noteKind w w' seen) (a.pendingKinds kinds) := by
  cases hacc.snapshotStep ha [] with
  | member hr =>
    rcases hr.open_or with hi | hs
    · have hn : kinds = [] := h.closed (by simp [hi])
      simp only [Action.noteKind, Action.pendingKinds, if_pos hi, hn]
      exact opened hr hi
    · have hne : w.live.core.commitPhase ≠ .idle := by simp [hs]
      simp only [Action.noteKind, Action.pendingKinds, if_neg hne]
      exact h.joined hr hs
  | bundle hb =>
    have hn : kinds = [] := h.closed (by simp [hb.idle])
    simp only [Action.noteKind, Action.pendingKinds, hn]
    exact of_closed hb.phase
  | aborted _ hi _ => exact of_closed (by simp [hi])
  | finished hf => exact of_closed hf.phase

theorem run {w₀ : World} {s : World × (ℕ → Option CommitKind)} {as : List Action}
    (hi : w₀.live.core.commitPhase = .idle)
    (hr : Run (noting (fun a w w' => a.Accepted w w' ∧ a.isCommit = true) Action.noteKind)
      (w₀, fun _ => none) as s) : s.1.live.core.Shows s.2 (as.foldl Action.pendingKinds []) := by
  induction hr with
  | nil => exact of_closed (by simp [hi])
  | snoc _ hs ih =>
    obtain ⟨⟨hacc, ha⟩, hn⟩ := hs
    rw [foldl_append, foldl_cons, foldl_nil, ← hn]
    exact ih.step hacc ha

/-- Once every child is recorded, the kinds agree with that of the core just if the pending calls
do. -/
theorem allOrNone_iff (h : core.Shows seen kinds) (hf : core.Finished sequence core') :
    kind.AllOrNone seen ↔ ∀ k ∈ kinds, k = kind := by
  have hs : ∀ child < v3ChildCount, ∃ k ∈ kinds, seen child = some k := by
    intro child hc
    have hco := hf.complete child hc
    simp only [ChildRecord.completes, Bool.and_eq_true, decide_eq_true_eq] at hco
    exact h.of_record hf.snapshot child hc hco.1.1
  have ha : (∀ child < v3ChildCount, seen child = some kind) ↔ ∀ k ∈ kinds, k = kind := by
    constructor
    · intro hki k hk
      obtain ⟨child, hc, -, hk⟩ := h.of_call hf.snapshot k hk
      exact Option.some.inj (hk.symm.trans (hki child hc))
    · intro hki child hc
      obtain ⟨k, hk, hc⟩ := hs child hc
      rw [hc, hki k hk]
  rw [← ha]
  cases kind with
  | commitAndUndelegate => rfl
  | commitOnly =>
    refine forall₂_congr fun child hc => ?_
    obtain ⟨k, -, hk⟩ := hs child hc
    rw [hk]
    cases k <;> simp

end MarketCore.Shows

/-- In every sequence of calls from an idle core, a commit of the core finds the kinds of its
children to be all or none exactly if every child's call since the snapshot was opened has the
kind of the core's call. -/
theorem undelegation_allOrNone_iff {w₀ : World} {as : List Action}
    (hidle : w₀.live.core.commitPhase = .idle)
    (hrun : Run (noting (fun a w w' => a.Accepted w w' ∧ a.isCommit = true) Action.noteKind)
      (w₀, fun _ => none) as (w, seen))
    (hcore : (Action.commitV3Core ctx sequence kind).Accepted w w') :
    kind.AllOrNone seen ↔ ∀ k ∈ as.foldl Action.pendingKinds [], k = kind := by
  obtain ⟨m, hm, -⟩ := hcore.of_handler rfl
  exact (MarketCore.Shows.run hidle hrun).allOrNone_iff (commitV3Core_finished hm)

theorem undelegation_allOrNone_of_memberRun :
    commitOnly.AllOrNone
      (funded.noted Action.noteKind (fun _ => none) (memberRun .commitOnly)) := by
  have hr : Run (noting (fun a w w' => a.Accepted w w' ∧ a.isCommit = true) Action.noteKind)
      (funded, fun _ => none) (memberRun .commitOnly) (funded.after (memberRun .commitOnly),
        funded.noted Action.noteKind (fun _ => none) (memberRun .commitOnly)) :=
    run_noted (by decide +kernel)
  have hc : (Action.commitV3Core (call 3 1000) (v3ChildCount + 1)
      .commitOnly).Accepted (funded.after (memberRun .commitOnly)) _ :=
    accepted_of_accepts (by decide +kernel)
  exact (undelegation_allOrNone_iff (by decide +kernel) hr hc).2 (by decide +kernel)

/-- The authority undelegates the first child and only commits the others. -/
def World.mixedRun : List Action :=
  (range v3ChildCount).map fun child =>
    .commitV3Member (call 3 1000) (child + 1)
      (if child = 0 then .commitAndUndelegate else .commitOnly) child 1

/-- The core is then committed and stays delegated and open for trading, although its first child
was undelegated in the snapshot. -/
theorem undelegation_mixed : ∃ (w₀ w w' : World) (as : List Action)
    (seen : ℕ → Option CommitKind) (ctx : Context), w₀.live.core.commitPhase = .idle ∧
    w₀.live.core.delegationStatus = .delegated ∧
    Run (noting (fun a w w' => a.Accepted w w' ∧ a.isCommit = true) Action.noteKind)
      (w₀, fun _ => none) as (w, seen) ∧
    (Action.commitV3Core ctx (v3ChildCount + 1) .commitOnly).Accepted w w' ∧
    w'.live.core.commitPhase = .idle ∧ w'.live.core.delegationStatus = .delegated ∧
    seen 0 = some .commitAndUndelegate ∧ ¬commitOnly.AllOrNone seen := by
  have hr : Run (noting (fun a w w' => a.Accepted w w' ∧ a.isCommit = true) Action.noteKind)
      (funded, fun _ => none) mixedRun (funded.after mixedRun,
        funded.noted Action.noteKind (fun _ => none) mixedRun) := run_noted (by decide +kernel)
  exact ⟨funded, _, _, mixedRun, _, call 3 1000, by decide +kernel,
    by decide +kernel, hr, accepted_of_accepts (by decide +kernel), by decide +kernel,
    by decide +kernel, by decide +kernel, by decide +kernel⟩

end Equinox
