import Equinox.Foundation.Run
import Equinox.V2.Movements

/-! # Halts

The authority halts a market by a transition, and a reconciliation halts it by
finding a deficit. A halt is in force until the authority opens the market or
makes it close-only. The log of a run keeps whether a verified price was taken
while a halt was in force, which is all that can undo one.
-/

namespace Equinox.V2

open Foundation

def MarketMode.isHalted : MarketMode → Bool
  | paused | emergency => true
  | .open | closeOnly => false

structure HaltLog where
  /-- A halt is in force. -/
  halted : Bool
  /-- An oracle update was accepted while a halt was in force. -/
  priced : Bool
  /-- The market was open or close-only while a halt was in force. -/
  reopened : Bool

def HaltLog.empty : HaltLog := ⟨false, false, false⟩

namespace Action

/-- Whether a halt is in force after an accepted action. -/
def haltAfter (w' : World) (halted : Bool) : Action → Bool
  | transitionMarket _ action => action.mode.isHalted
  | reconcileVault _ _ _ => halted || w'.market.header.withdrawalsBlockedByReconciliation
  | _ => halted

def isOracleUpdate : Action → Bool
  | consumeOracleUpdate _ _ => true
  | _ => false

def noteHalt (a : Action) (_ w' : World) (log : HaltLog) : HaltLog where
  halted := a.haltAfter w' log.halted
  priced := log.priced || (log.halted && a.isOracleUpdate)
  reopened := log.reopened ||
    (a.haltAfter w' log.halted && !w'.market.header.mode.isHalted)

end Action

variable {a : Action} {w w' : World} {halted : Bool}

theorem feedMode_isHalted {session : ℕ} {mode : MarketMode} (h : feedMode session = some mode) :
    mode.isHalted = false := by
  unfold feedMode at h
  split_ifs at h <;> cases h <;> rfl

theorem Action.Accepted.isHalted_of_isOracleUpdate (h : a.Accepted w w')
    (ha : a.isOracleUpdate = true) : w'.market.header.mode.isHalted = false := by
  cases a with
  | consumeOracleUpdate ctx verified =>
    obtain ⟨m, hm, rfl⟩ := Action.accepted_iff.1 h
    obtain ⟨mode, hmo, hl⟩ := consumeOracleUpdate_ledger (v := 0) hm
    have heq : m.header.mode = mode := congrArg Ledger.mode hl
    change m.header.mode.isHalted = false
    rw [heq]
    exact feedMode_isHalted hmo
  | _ => cases ha

theorem Ledger.isHalted_of_reconciled {l : Ledger} (h : l.reconciled.blocked = true) :
    l.reconciled.mode = .paused := by
  rcases lt_or_ge l.surplus 0 with hn | hno
  · exact (Ledger.reconciled_of_surplus_neg hn).1
  · rw [(Ledger.reconciled_of_surplus_nonneg hno).2] at h
    cases h

/-- Only an oracle update undoes a halt. -/
theorem Action.Accepted.isHalted (h : a.Accepted w w') (ha : a.isOracleUpdate = false)
    (hw : halted = true → w.market.header.mode.isHalted = true)
    (haf : a.haltAfter w' halted = true) : w'.market.header.mode.isHalted = true := by
  have hmov := h.moves
  -- an action that sets no mode leaves it or pauses the market
  have hk (hmove : ∀ mode, a.movement w ≠ .setMode mode) (hh : halted = true) :
      w'.market.header.mode.isHalted = true := by
    rcases hmov.mode_cases with hmo | hmo | hs
    · exact (congrArg MarketMode.isHalted hmo).trans (hw hh)
    · exact congrArg MarketMode.isHalted hmo
    · exact absurd hs (hmove _)
  cases a with
  | consumeOracleUpdate ctx verified => cases ha
  | transitionMarket ctx action =>
    obtain ⟨m, hm, rfl⟩ := Action.accepted_iff.1 h
    have heq : m.header.mode = action.mode :=
      congrArg Ledger.mode (transitionMarket_ledger (v := 0) hm)
    change m.header.mode.isHalted = true
    rw [heq]
    exact haf
  | reconcileVault ctx mint program =>
    rcases Bool.or_eq_true _ _ ▸ haf with hh | hb
    · exact hk (fun mode => nofun) hh
    · have hl : w'.ledger = w.ledger.reconciled := hmov.eq_reconciled
      have hd : w.ledger.reconciled.blocked = true := by
        rw [← hl]
        exact hb
      have hmo : w'.market.header.mode = .paused := by
        change w'.ledger.mode = .paused
        rw [hl]
        exact Ledger.isHalted_of_reconciled hd
      rw [hmo]
      rfl
  | _ => exact hk (fun mode => nofun) haf

/-- What the log says at every point of a run. -/
structure HaltLog.Agrees (log : HaltLog) (w : World) : Prop where
  reopened : log.reopened = log.priced
  halted : log.priced = false → log.halted = true → w.market.header.mode.isHalted = true

theorem HaltLog.Agrees.step {log : HaltLog} (hl : log.Agrees w) (h : a.Accepted w w') :
    (a.noteHalt w w' log).Agrees w' := by
  obtain ⟨hr, hh⟩ := hl
  rcases Bool.eq_false_or_eq_true log.priced with hp | hp
  · refine ⟨?_, ?_⟩
    · simp only [Action.noteHalt, hr, hp, Bool.true_or]
    · simp only [Action.noteHalt, hp, Bool.true_or, Bool.true_eq_false, false_implies]
  rcases Bool.eq_false_or_eq_true a.isOracleUpdate with ha | ha
  · have ho := h.isHalted_of_isOracleUpdate ha
    have haf : a.haltAfter w' log.halted = log.halted := by
      cases a with
      | consumeOracleUpdate ctx verified => rfl
      | _ => cases ha
    refine ⟨?_, ?_⟩
    · simp only [Action.noteHalt, hr, hp, ha, haf, ho, Bool.not_false]
    · simp only [Action.noteHalt, hp, ha, haf, Bool.false_or, Bool.and_true]
      intro hno hy
      rw [hno] at hy
      cases hy
  · have hk : a.haltAfter w' log.halted = true → w'.market.header.mode.isHalted = true :=
      h.isHalted ha (hh hp)
    refine ⟨?_, fun _ => hk⟩
    simp only [Action.noteHalt, hr, hp, ha, Bool.and_false, Bool.false_or]
    cases haf : a.haltAfter w' log.halted with
    | false => rfl
    | true => rw [hk haf]; rfl

/-- In every run a halt sticks if and only if no oracle update is accepted while one is in
force. -/
theorem halt_sticks_iff {as : List Action} {log : HaltLog}
    (h : Run (noting Action.Accepted Action.noteHalt) (w, HaltLog.empty) as (w', log)) :
    log.reopened = false ↔ log.priced = false := by
  have ha : log.Agrees w' :=
    h.invariant (P := fun x => x.2.Agrees x.1) ⟨rfl, fun _ hno => nomatch hno⟩
      fun a x y hx hxy => by
        obtain ⟨hs, hn⟩ := hxy
        rw [← hn]
        exact hx.step hs
  rw [ha.reopened]

/-- A market is created and opened, then paused; then `rest` happens. -/
def haltRun (rest : List Action) : List Action :=
  [.createPerpMarket ⟨9, 0, false⟩ 1 5 1 (-6),
    .transitionMarket ⟨9, 0, false⟩ .resume,
    .transitionMarket ⟨9, 0, false⟩ .pause] ++ rest

/-- A price of 100 in a regular session, brought by a stranger. -/
def regularUpdate : Action :=
  .consumeOracleUpdate ⟨77, 100, false⟩
    { feedId := 5, channel := 1, exponent := -6, price := 100, confidence := 0
      session := 0, envelopeTimestampUs := 100000000, feedUpdateTimestampUs := 100000000 }

def haltLogAfter (as : List Action) : Option (World × HaltLog) :=
  execAll (execNoting Action.tryExec Action.noteHalt) (World.blank, HaltLog.empty) as

theorem run_of_haltLogAfter {as : List Action} {x : World × HaltLog}
    (h : haltLogAfter as = some x) :
    Run (noting Action.Accepted Action.noteHalt) (World.blank, HaltLog.empty) as x :=
  .of_execNoting h fun _ _ _ => Action.accepted_of_tryExec

/-- The pause sticks through a resumption by the authority and a later price. -/
theorem halt_sticks_of_haltRun : ∃ w log,
    haltLogAfter (haltRun [.transitionMarket ⟨9, 0, false⟩ .resume, regularUpdate]) =
      some (w, log) ∧ log.reopened = false := by
  have hr : (haltLogAfter (haltRun [.transitionMarket ⟨9, 0, false⟩ .resume, regularUpdate])).any
      (fun x => x.2.priced = false) = true := by decide +kernel
  obtain ⟨⟨w, log⟩, hx, hp⟩ := (Option.any_eq_true _ _).1 hr
  exact ⟨w, log, hx, (halt_sticks_iff (run_of_haltLogAfter hx)).2 (of_decide_eq_true hp)⟩

/-- A stranger's price reopens a paused market. -/
theorem halt_undone : ∃ w log,
    Run (noting Action.Accepted Action.noteHalt) (World.blank, HaltLog.empty)
      (haltRun [regularUpdate]) (w, log) ∧
    log.halted = true ∧ log.reopened = true ∧ w.market.header.mode = .open := by
  have hr : (haltLogAfter (haltRun [regularUpdate])).any (fun x => x.2.halted = true ∧
      x.2.reopened = true ∧ x.1.market.header.mode = .open) = true := by decide +kernel
  obtain ⟨⟨w, log⟩, hx, hl⟩ := (Option.any_eq_true _ _).1 hr
  exact ⟨w, log, run_of_haltLogAfter hx, of_decide_eq_true hl⟩

end Equinox.V2
