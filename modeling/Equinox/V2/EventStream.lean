import Equinox.V2.Effects
import Equinox.V2.Reconciliation

/-! # The event stream of a V2 market

An indexer finds a lost event by a gap in the sequences. An accepted instruction
on a market with sequence `s` logs its events with the sequences `s + 1`,
`s + 2`, … in the order of the log and stores the last of them, so over a whole
run the log is numbered without a gap.
-/

namespace Equinox.V2

open Foundation CritBit List V2.Market V2.Action Relation

variable {cycle : Bool} {m m' m'' : Market} {w w' : World} {a : Action}

/-- The second market has logged more events, numbered from the stored sequence on. -/
def Market.Appends (m m' : Market) : Prop :=
  ∃ events, m'.log = m.log ++ events ∧
    events.map EventRecord.sequence =
      range' (m.header.globalEventSequence + 1) events.length ∧
    m'.header.globalEventSequence = m.header.globalEventSequence + events.length

theorem Market.Appends.of_eq (hl : m'.log = m.log)
    (hs : m'.header.globalEventSequence = m.header.globalEventSequence) : m.Appends m' :=
  ⟨[], by rw [hl, append_nil], rfl, hs⟩

theorem Market.Appends.trans (h : m.Appends m') (h' : m'.Appends m'') : m.Appends m'' := by
  obtain ⟨events, hl, hm, hs⟩ := h
  obtain ⟨events', hl', hm', hs'⟩ := h'
  refine ⟨events ++ events', ?_, ?_, ?_⟩
  · rw [hl', hl, append_assoc]
  · rw [map_append, hm, hm', hs, length_append, Nat.add_right_comm, range'_append_1]
  · rw [hs', hs, length_append, Nat.add_assoc]

theorem Market.Writes.appends (h : m.Writes cycle m') : m.Appends m' := by
  cases h with
  | accounts header log => exact .of_eq log (by rw [header])
  | header header cursor sequence => exact .of_eq rfl sequence
  | event kind t payload => exact ⟨_, rfl, rfl, rfl⟩
  | fills events log sequences cursor sequence => exact ⟨events, log, sequences, sequence⟩

theorem Market.Writes.initialized (h : m.Writes cycle m') :
    m'.header.initialized = m.header.initialized := by
  cases h with
  | accounts header => rw [header]
  | header header cursor sequence initialized => exact initialized
  | event => rfl
  | fills events log sequences cursor sequence initialized => exact initialized

theorem Market.appends_of_steps (h : ReflTransGen (Writes cycle) m m') : m.Appends m' := by
  induction h with
  | refl => exact .of_eq rfl rfl
  | tail _ hs ih => exact ih.trans hs.appends

theorem Market.initialized_of_steps (h : ReflTransGen (Writes cycle) m m') :
    m'.header.initialized = m.header.initialized := by
  induction h with
  | refl => rfl
  | tail _ hs ih => exact hs.initialized.trans ih

theorem Action.Accepted.steps (h : a.Accepted w w') (hw : w.market.header.initialized = true) :
    ReflTransGen (Writes a.isCycle) w.market w'.market := by
  obtain ⟨m', hm', rfl⟩ := accepted_iff.1 h
  exact steps_of_handler hw hm'

theorem Action.Accepted.initialized (h : a.Accepted w w')
    (hw : w.market.header.initialized = true) : w'.market.header.initialized = true :=
  (initialized_of_steps (h.steps hw)).trans hw

/-- The events of an accepted instruction carry the next sequences in the order of the log, and
the last of them is stored. -/
theorem logged_sequences_of_accepted (h : a.Accepted w w')
    (hw : w.market.header.initialized = true) :
    ∃ events, w'.market.log = w.market.log ++ events ∧
      events.map EventRecord.sequence =
        range' (w.market.header.globalEventSequence + 1) events.length ∧
      w'.market.header.globalEventSequence =
        w.market.header.globalEventSequence + events.length := appends_of_steps (h.steps hw)

def World.after (as : List Action) : Option World := execAll tryExec World.blank as

/-- The bid of trader 7 that fills the ask of trader 8. -/
def takerOrder : Action := .placeOrder ⟨7, 100, false⟩ (limitOrder .bid 0 20 100)

def beforeTaker : List Action := marketCreation :: vaultInitialization :: (tradeRun 0).take 9

/-- The taker's order logs its fill, its own fate and the fee under the sequences after 8. -/
theorem logged_sequences_of_takerOrder : ∃ w w' events,
    World.after beforeTaker = some w ∧ takerOrder.Accepted w w' ∧
    w.market.header.globalEventSequence = 8 ∧ w'.market.header.globalEventSequence = 11 ∧
    w'.market.log = w.market.log ++ events ∧
    events.map EventRecord.sequence = range' 9 events.length := by
  have hr : (World.after beforeTaker).any (fun w => w.market.header.initialized = true ∧
      w.market.header.globalEventSequence = 8 ∧
      (takerOrder.tryExec w).any fun w' => w'.market.header.globalEventSequence = 11) = true := by
    decide +kernel
  obtain ⟨w, hw, hn⟩ := (Option.any_eq_true _ _).1 hr
  obtain ⟨hi, he, ht⟩ := of_decide_eq_true hn
  obtain ⟨w', hw', hel⟩ := (Option.any_eq_true _ _).1 ht
  have ha := accepted_of_tryExec hw'
  obtain ⟨events, hl, hm, -⟩ := logged_sequences_of_accepted ha hi
  rw [he] at hm
  exact ⟨w, w', events, hw, ha, he, of_decide_eq_true hel, hl, hm⟩

end Equinox.V2
