import Equinox.V2.EventStream

/-! # Commit sequences over delegation cycles

The cursor of a market is set when it is delegated, advanced by its commits and
finished by its return to L1. Every delegation sets the expected sequence to one,
whatever was committed before, so the sequences of a market increase over a run
exactly if the market is not delegated between two of its commits and its
counter is never exhausted.
-/

namespace Equinox.V2

open Foundation CritBit List

variable {cycle : Bool} {m m' : Market} {w w' : World} {a : Action} {c c' : CommitCursor}

/-! ## The cursor -/

namespace Action

def commitSequence : Action → Option ℕ
  | commitMarket _ sequence | commitAndUndelegateMarket _ sequence => some sequence
  | _ => none

def isDelegation : Action → Bool
  | delegateMarket _ _ _ ready => ready
  | _ => false

def isCreation : Action → Bool
  | initializeMarket .. | createPerpMarket .. => true
  | _ => false

end Action

namespace CommitCursor

/-- How an instruction moves the cursor. -/
inductive Moves (c : CommitCursor) : Action → CommitCursor → Prop
  | stay {a : Action} (commit : a.commitSequence = none) (delegation : a.isDelegation = false) :
      Moves c a c
  | delegate {ctx : Context} {validator : Address} {count : ℕ} :
      Moves c (.delegateMarket ctx validator count true)
        { c with status := .delegated, expected := 1, pending := false }
  | commit {ctx : Context} (status : c.status = .delegated) :
      Moves c (.commitMarket ctx c.expected)
        { c with committed := c.expected, expected := saturatingSucc c.expected }
  | undelegate {ctx : Context} (status : c.status = .delegated) :
      Moves c (.commitAndUndelegateMarket ctx c.expected)
        { c with status := .undelegating, committed := c.expected, final := c.expected,
                 pending := true }
  | restore {ctx : Context} (status : c.status = .undelegating) :
      Moves c (.undelegateCallback ctx)
        { c with status := .restored, committed := c.final, pending := false }

end CommitCursor

theorem Market.Writes.cursor (h : m.Writes false m') : m'.header.cursor = m.header.cursor := by
  cases h with
  | accounts header => rw [header]
  | header header cursor => exact cursor rfl
  | event => rfl
  | fills events log sequences cursor => exact cursor

theorem Market.cursor_of_steps (h : Relation.ReflTransGen (Market.Writes false) m m') :
    m'.header.cursor = m.header.cursor := by
  induction h with
  | refl => rfl
  | tail _ hs ih => exact hs.cursor.trans ih

section Handlers

variable {ctx : Context} {u : Unit} {sequence : ℕ}

theorem delegateMarket_moves {validator : Address} {count : ℕ} {ready : Bool}
    (h : delegateMarket ctx validator count ready m = .ok u m') :
    m.header.cursor.Moves (.delegateMarket ctx validator count ready) m'.header.cursor := by
  simp only [delegateMarket, run_rules] at h
  obtain ⟨-, _, -, -, -, h⟩ := h
  cases ready with
  | false =>
    obtain ⟨-, rfl⟩ := EStateM.Result.ok.inj h
    exact .stay rfl rfl
  | true =>
    simp only [if_true, run_modifyHeader_bind] at h
    obtain ⟨⟨⟩, m₁, hr, hd⟩ := run_bind_eq_ok.1 h
    obtain ⟨-, rfl⟩ := run_logEvent.1 hr
    obtain ⟨-, rfl⟩ := run_logEvent.1 hd
    exact .delegate

theorem commitMarket_moves (h : commitMarketInner ctx sequence .commitOnly m = .ok u m') :
    m.header.cursor.Moves (.commitMarket ctx sequence) m'.header.cursor := by
  simp only [commitMarketInner, run_rules, initializedHeader_eq_ok, run_modifyHeader_bind] at h
  obtain ⟨-, _, ⟨-, -, rfl⟩, -, hs, -, rfl, h⟩ := h
  obtain ⟨⟨⟩, m₁, hr, hc⟩ := run_bind_eq_ok.1 h
  obtain ⟨-, rfl⟩ := run_logEvent.1 hr
  obtain ⟨-, rfl⟩ := run_logEvent.1 hc
  exact .commit hs

theorem commitAndUndelegateMarket_moves
    (h : commitMarketInner ctx sequence .commitAndUndelegate m = .ok u m') :
    m.header.cursor.Moves (.commitAndUndelegateMarket ctx sequence) m'.header.cursor := by
  simp only [commitMarketInner, run_rules, initializedHeader_eq_ok, run_modifyHeader_bind] at h
  obtain ⟨-, _, ⟨-, -, rfl⟩, -, hs, -, rfl, h⟩ := h
  obtain ⟨-, rfl⟩ := run_logEvent.1 h
  exact .undelegate hs

theorem undelegateCallback_moves (h : undelegateCallback ctx m = .ok u m') :
    m.header.cursor.Moves (.undelegateCallback ctx) m'.header.cursor := by
  simp only [undelegateCallback, run_rules, initializedHeader_eq_ok] at h
  obtain ⟨_, ⟨-, -, rfl⟩, ⟨hs, -⟩, h⟩ := h
  obtain ⟨⟨⟩, m₁, hp, h⟩ := run_bind_eq_ok.1 h
  obtain ⟨-, rfl⟩ := run_logEvent.1 hp
  rw [run_modifyHeader_bind] at h
  obtain ⟨-, rfl⟩ := run_logEvent.1 h
  exact .restore hs

end Handlers

theorem Action.Accepted.cursor_moves (h : a.Accepted w w')
    (hw : w.market.header.initialized = true) :
    w.market.header.cursor.Moves a w'.market.header.cursor := by
  have hst (ha : a.isCycle = false) (hc : a.commitSequence = none)
      (hd : a.isDelegation = false) : w.market.header.cursor.Moves a w'.market.header.cursor := by
    have hs := h.steps hw
    rw [ha] at hs
    rw [Market.cursor_of_steps hs]
    exact .stay hc hd
  obtain ⟨m', hm', rfl⟩ := Action.accepted_iff.1 h
  cases a with
  | delegateMarket => exact delegateMarket_moves hm'
  | commitMarket => exact commitMarket_moves hm'
  | commitAndUndelegateMarket => exact commitAndUndelegateMarket_moves hm'
  | undelegateCallback => exact undelegateCallback_moves hm'
  | _ => exact hst rfl rfl rfl

/-! ## What a run commits -/

/-- What the instructions of a run say about its cycles. -/
structure CommitHistory where
  commits : ℕ
  /-- The market was delegated after a commit. -/
  renewed : Bool
  /-- The market was committed after such a delegation. -/
  recommitted : Bool

namespace CommitHistory

def empty : CommitHistory := ⟨0, false, false⟩

def note (history : CommitHistory) (a : Action) : CommitHistory :=
  if a.commitSequence.isSome then
    { history with
      commits := history.commits + 1
      recommitted := history.recommitted || history.renewed }
  else if a.isDelegation then { history with renewed := history.renewed || 0 < history.commits }
  else history

def of (as : List Action) : CommitHistory := as.foldl note empty

theorem of_snoc (as : List Action) (a : Action) : of (as ++ [a]) = (of as).note a := by
  rw [of, foldl_append]
  rfl

end CommitHistory

/-- What an indexer sees of the commits of a run. -/
structure CommitLog where
  /-- The sequences of the accepted commits, the oldest first. -/
  sequences : List ℕ
  /-- The stored last committed sequence went down at some step. -/
  decreased : Bool

def CommitLog.empty : CommitLog := ⟨[], false⟩

def Action.noteCommit (a : Action) (w w' : World) (log : CommitLog) : CommitLog where
  sequences := log.sequences ++ a.commitSequence.toList
  decreased := log.decreased ||
    w'.market.header.lastCommittedSequence < w.market.header.lastCommittedSequence

def CommitLog.Increasing (log : CommitLog) : Prop :=
  log.sequences.Pairwise (· < ·) ∧ log.decreased = false

/-! ## The sequences of one cycle -/

/-- The sequences of the first commits of a cycle. The counter saturates. -/
def countedTo (n : ℕ) : List ℕ := (range' 1 n).map fun i => min i (2 ^ 64 - 1)

theorem countedTo_succ (n : ℕ) : countedTo (n + 1) = countedTo n ++ [saturatingSucc n] := by
  rw [countedTo, range'_1_concat, map_append, Nat.add_comm 1 n]
  rfl

theorem pairwise_countedTo (n : ℕ) : (countedTo n).Pairwise (· < ·) ↔ n < 2 ^ 64 := by
  rw [countedTo, pairwise_map]
  constructor
  · intro h
    by_contra hn
    have hl := pairwise_iff_getElem.1 h (2 ^ 64 - 2) (2 ^ 64 - 1)
      (by rw [length_range']; omega) (by rw [length_range']; omega) (by omega)
    simp only [getElem_range'] at hl
    omega
  · intro hn
    refine Pairwise.imp_of_mem ?_ pairwise_lt_range'
    intro i j hi hj hij
    obtain ⟨-, hi⟩ := mem_range'_1.1 hi
    obtain ⟨-, hj⟩ := mem_range'_1.1 hj
    omega

theorem not_pairwise_countedTo_append_one {n : ℕ} (hn : 0 < n) :
    ¬ (countedTo n ++ [1]).Pairwise (· < ·) := by
  obtain ⟨n, rfl⟩ := Nat.exists_eq_add_one_of_ne_zero hn.ne'
  intro h
  have hf : 1 ∈ countedTo (n + 1) := mem_map.2 ⟨1, mem_range'_1.2 ⟨le_rfl, by omega⟩, by omega⟩
  exact Nat.lt_irrefl 1 ((pairwise_append.1 h).2.2 1 hf 1 (mem_singleton_self 1))

/-! ## Runs -/

/-- What the log, the instructions and the cursor say agrees. -/
structure CommitLog.Agrees (log : CommitLog) (history : CommitHistory) (c : CommitCursor) :
    Prop where
  renewed : history.renewed = true → 0 < history.commits
  final : c.status = .undelegating → c.final = c.committed
  broken : history.recommitted = true → ¬ log.sequences.Pairwise (· < ·)
  sequences : history.recommitted = false → log.sequences = countedTo history.commits
  decreased : history.recommitted = false → log.decreased = false
  committed : history.recommitted = false → c.committed = min history.commits (2 ^ 64 - 1)
  expected : history.recommitted = false → c.status = .delegated →
    c.expected = if history.renewed then 1 else saturatingSucc history.commits

namespace CommitLog.Agrees

variable {log : CommitLog} {history : CommitHistory}

section

variable (h : log.Agrees history c)

include h

theorem increasing_iff :
    log.Increasing ↔ history.recommitted = false ∧ history.commits < 2 ^ 64 := by
  cases hre : history.recommitted with
  | false =>
    rw [CommitLog.Increasing, h.sequences hre, h.decreased hre, pairwise_countedTo]
    simp
  | true => simpa using fun hi : log.Increasing => h.broken hre hi.1

theorem quiet (hc : c'.committed = c.committed)
    (hf : c'.status = .undelegating → c'.final = c'.committed)
    (he : history.recommitted = false → c'.status = .delegated →
      c'.expected = if history.renewed then 1 else saturatingSucc history.commits) :
    CommitLog.Agrees ⟨log.sequences ++ [], log.decreased || decide (c'.committed < c.committed)⟩
      history c' where
  renewed := h.renewed
  final := hf
  broken := by rw [append_nil]; exact h.broken
  sequences := by rw [append_nil]; exact h.sequences
  decreased hre := by simp [hc, h.decreased hre]
  committed hre := hc.trans (h.committed hre)
  expected := he

/-- A commit of either kind. -/
theorem commit (hst : c.status = .delegated)
    (hc : c'.committed = c.expected)
    (hf : c'.status = .undelegating → c'.final = c'.committed)
    (he : c'.status = .delegated → c'.expected = saturatingSucc c.expected) :
    CommitLog.Agrees
      ⟨log.sequences ++ [c.expected], log.decreased || decide (c'.committed < c.committed)⟩
      { history with
        commits := history.commits + 1
        recommitted := history.recommitted || history.renewed } c' := by
  have hs (hre : (history.recommitted || history.renewed) = false) :
      history.recommitted = false ∧ c.expected = saturatingSucc history.commits ∧
        history.renewed = false := by
    obtain ⟨hre, hr⟩ := Bool.or_eq_false_iff.1 hre
    exact ⟨hre, by simpa [hr] using h.expected hre hst, hr⟩
  refine ⟨fun _ => Nat.succ_pos _, hf, ?broken, ?sequences, ?decreased, ?committed, ?expected⟩
  case broken =>
    intro hre hi
    cases hold : history.recommitted with
    | true => exact h.broken hold (pairwise_append.1 hi).1
    | false =>
      have hr : history.renewed = true := by simpa [hold] using hre
      rw [h.sequences hold, h.expected hold hst, if_pos hr] at hi
      exact not_pairwise_countedTo_append_one (h.renewed hr) hi
  case sequences =>
    intro hre
    obtain ⟨hold, hn, -⟩ := hs hre
    rw [h.sequences hold, hn, countedTo_succ]
  case decreased =>
    intro hre
    obtain ⟨hold, hn, -⟩ := hs hre
    have hle : c.committed ≤ c'.committed := by
      rw [hc, hn, h.committed hold, saturatingSucc]
      omega
    simp [h.decreased hold, hle]
  case committed =>
    intro hre
    rw [hc, (hs hre).2.1]
    rfl
  case expected =>
    intro hre hd
    obtain ⟨-, hn, hr⟩ := hs hre
    rw [he hd, hn, hr]
    simp only [saturatingSucc, Bool.false_eq_true, if_false]
    omega

theorem delegate :
    CommitLog.Agrees ⟨log.sequences ++ [], log.decreased || decide (c.committed < c.committed)⟩
      { history with renewed := history.renewed || 0 < history.commits }
      { c with status := .delegated, expected := 1, pending := false } where
  renewed hn := by
    rcases Bool.or_eq_true_iff.1 hn with hold | hpos
    · exact h.renewed hold
    · exact of_decide_eq_true hpos
  final hno := nomatch hno
  broken := by rw [append_nil]; exact h.broken
  sequences := by rw [append_nil]; exact h.sequences
  decreased hre := by simp [h.decreased hre]
  committed := h.committed
  expected _ _ := by
    cases hc : history.commits with
    | zero => simp [saturatingSucc]
    | succ n => simp

theorem moves (hm : c.Moves a c') :
    CommitLog.Agrees ⟨log.sequences ++ a.commitSequence.toList,
      log.decreased || decide (c'.committed < c.committed)⟩ (history.note a) c' := by
  cases hm with
  | stay hc hd =>
    simp only [CommitHistory.note, hc, hd]
    exact h.quiet rfl h.final h.expected
  | delegate => exact h.delegate
  | commit hs =>
    exact h.commit hs rfl (fun hno => by rw [hs] at hno; cases hno) fun _ => rfl
  | undelegate hs => exact h.commit hs rfl (fun _ => rfl) fun hno => nomatch hno
  | restore hs =>
    exact h.quiet (h.final hs) (fun hno => nomatch hno) fun _ hno => nomatch hno

end

end CommitLog.Agrees

def World.Created (w : World) : Prop :=
  ∃ (w₀ : World) (a : Action), a.isCreation = true ∧ a.Accepted w₀ w

theorem initializeMarketAccount_cursor {authority : Address} {instrument : ℕ} {u : Unit}
    (h : initializeMarketAccount authority instrument m = .ok u m') :
    m'.header.initialized = true ∧ m'.header.cursor = ⟨.notDelegated, 0, 0, 0, false⟩ := by
  simp only [initializeMarketAccount, run_rules, run_modify_eq_ok] at h
  obtain ⟨-, rfl⟩ := h
  exact ⟨rfl, rfl⟩

theorem World.Created.cursor (h : w.Created) : w.market.header.initialized = true ∧
    w.market.header.cursor = ⟨.notDelegated, 0, 0, 0, false⟩ := by
  obtain ⟨w₀, a, ha, hac⟩ := h
  obtain ⟨m', hm', rfl⟩ := Action.accepted_iff.1 hac
  cases a with
  | initializeMarket => exact initializeMarketAccount_cursor hm'
  | createPerpMarket =>
    simp only [Action.handler, createPerpMarket, run_lift_bind, exists_require] at hm'
    obtain ⟨⟨⟩, m₁, hc, ho⟩ := run_bind_eq_ok.1 hm'.2
    simp only [configureMarketOracle, run_rules] at ho
    obtain ⟨-, _, -, hm⟩ := ho
    obtain ⟨hi, hcu⟩ := initializeMarketAccount_cursor hc
    rw [← run_modify_eq_ok.1 hm]
    exact ⟨hi, hcu⟩
  | _ => cases ha

theorem CommitLog.Agrees.of_run {as : List Action} {log : CommitLog} (hw : w.Created)
    (h : Run (noting Action.Accepted Action.noteCommit) (w, CommitLog.empty) as (w', log)) :
    w'.market.header.initialized = true ∧
      log.Agrees (CommitHistory.of as) w'.market.header.cursor := by
  obtain ⟨hi, hc⟩ := hw.cursor
  generalize hx : (w', log) = x at h
  induction h generalizing w' log with
  | nil =>
    obtain ⟨rfl, rfl⟩ := Prod.mk.inj hx
    refine ⟨hi, ?_⟩
    rw [hc]
    exact ⟨fun hno => (nomatch hno), fun hno => (nomatch hno), fun hno => (nomatch hno),
      fun _ => rfl, fun _ => rfl, fun _ => rfl, fun _ hno => nomatch hno⟩
  | snoc _ hs ih =>
    obtain ⟨ha, hn⟩ := hs
    obtain ⟨hold, hag⟩ := ih rfl
    subst hx
    refine ⟨ha.initialized hold, ?_⟩
    rw [← show _ = log from hn, CommitHistory.of_snoc]
    exact hag.moves (ha.cursor_moves hold)

/-- In every run of a market, its commit sequences increase and its last committed sequence never
goes down if and only if it is not committed in a cycle after the first committed one and its
counter is not exhausted. -/
theorem commits_increase_iff {as : List Action} {log : CommitLog} (hw : w.Created)
    (h : Run (noting Action.Accepted Action.noteCommit) (w, CommitLog.empty) as (w', log)) :
    (log.sequences.Pairwise (· < ·) ∧ log.decreased = false) ↔
      (CommitHistory.of as).recommitted = false ∧ (CommitHistory.of as).commits < 2 ^ 64 :=
  (CommitLog.Agrees.of_run hw h).2.increasing_iff

/-- The authority delegates the market, commits it, and asks for it back. -/
def firstCycle : List Action :=
  [.delegateMarket ⟨9, 0, false⟩ 3 0 true, .commitMarket ⟨9, 0, true⟩ 1,
    .commitAndUndelegateMarket ⟨9, 0, true⟩ 2, .undelegateCallback ⟨9, 0, false⟩]

/-- The market is delegated and committed once more. -/
def secondCycle : List Action :=
  [.delegateMarket ⟨9, 0, false⟩ 3 0 true, .commitMarket ⟨9, 0, true⟩ 1]

def commitLogAfter (as : List Action) : Option (World × CommitLog) := do
  let w ← marketCreation.tryExec World.blank
  execAll (execNoting Action.tryExec Action.noteCommit) (w, CommitLog.empty) as

theorem run_of_commitLogAfter {as : List Action} {x : World × CommitLog}
    (h : commitLogAfter as = some x) :
    ∃ w : World, w.Created ∧
      Run (noting Action.Accepted Action.noteCommit) (w, CommitLog.empty) as x := by
  simp only [commitLogAfter, some_rules] at h
  obtain ⟨w, hc, h⟩ := h
  refine ⟨w, ⟨World.blank, _, rfl, Action.accepted_of_tryExec hc⟩, ?_⟩
  exact .of_execNoting h fun _ _ _ => Action.accepted_of_tryExec

theorem commits_increase_of_firstCycle : ∃ w log, commitLogAfter firstCycle = some (w, log) ∧
    log.sequences = [1, 2] ∧ log.sequences.Pairwise (· < ·) ∧ log.decreased = false := by
  have hr : (commitLogAfter firstCycle).any (fun x => x.2.sequences = [1, 2]) = true := by
    decide +kernel
  obtain ⟨⟨w, log⟩, hx, hl⟩ := (Option.any_eq_true _ _).1 hr
  obtain ⟨w₀, hc, h⟩ := run_of_commitLogAfter hx
  exact ⟨w, log, hx, of_decide_eq_true hl, (commits_increase_iff hc h).2 ⟨rfl, by decide⟩⟩

/-- The second cycle commits sequence 1 again, and the last committed sequence falls to it. -/
theorem commit_sequence_repeated : ∃ w₀ w log, w₀.Created ∧
    Run (noting Action.Accepted Action.noteCommit) (w₀, CommitLog.empty)
      (firstCycle ++ secondCycle) (w, log) ∧
    log.sequences = [1, 2, 1] ∧ log.decreased = true ∧
    w.market.header.lastCommittedSequence = 1 := by
  have hr : (commitLogAfter (firstCycle ++ secondCycle)).any (fun x =>
      x.2.sequences = [1, 2, 1] ∧ x.2.decreased = true ∧
      x.1.market.header.lastCommittedSequence = 1) = true := by decide +kernel
  obtain ⟨⟨w, log⟩, hx, hl⟩ := (Option.any_eq_true _ _).1 hr
  obtain ⟨w₀, hc, h⟩ := run_of_commitLogAfter hx
  exact ⟨w₀, w, log, hc, h, of_decide_eq_true hl⟩

end Equinox.V2
