import Equinox.Foundation.Sums
import Equinox.V2.Market

/-! # The ledger of a market

What a V2 market owes, what its vault holds, and the movements of both. The
surplus of the vault over what it is expected to hold is lowered by one kind of
movement only, the charge of a fee, since a fee becomes a claim on the vault
while what pays for it is no part of the expectation.
-/

namespace Equinox.V2

open Foundation Finset Function

structure Ledger where
  mode : MarketMode
  initialized : Bool
  configured : Bool
  status : ReconciliationStatus
  fees : ℕ
  insurance : ℕ
  badDebt : ℕ
  collateral : ℕ → ℤ
  vault : ℕ

inductive Movement where
  | idle
  | setMode (mode : MarketMode)
  | deposit (seatIndex amount : ℕ)
  | withdraw (seatIndex amount : ℕ)
  /-- A seat is opened or closed. -/
  | clear (seatIndex : ℕ)
  | charge (amount : ℕ)
  | insure (amount : ℕ)
  | payFees (amount : ℕ)
  | payInsurance (amount : ℕ)
  | recognize (amount : ℕ)
  | resolve (amount : ℕ)
  | reconcile
  | receive (amount : ℕ)
  | create
  | configure

def Movement.fee : Movement → ℕ
  | charge amount => amount
  | _ => 0

namespace Ledger

def totalCollateral (l : Ledger) : ℤ := ∑ i ∈ range maxTraderSeats, l.collateral i

def expected (l : Ledger) : ℤ := l.totalCollateral + l.fees + l.insurance - l.badDebt

def surplus (l : Ledger) : ℤ := l.vault - l.expected

def blocked (l : Ledger) : Bool := l.status = .deficitDetected || l.status = .recoveryRequired

def withCollateral (l : Ledger) (i : ℕ) (amount : ℤ) : Ledger :=
  { l with collateral := update l.collateral i amount }

def reconciled (l : Ledger) : Ledger :=
  if l.vault = l.expected then { l with status := .reconciled }
  else if l.expected < l.vault then { l with status := .surplusDetected }
  else { l with
    mode := .paused
    status := if l.blocked then .recoveryRequired else .deficitDetected }

inductive Moves : Movement → Ledger → Ledger → Prop
  | idle {l : Ledger} : Moves .idle l l
  | setMode {l : Ledger} (mode : MarketMode) : Moves (.setMode mode) l { l with mode := mode }
  | deposit {l : Ledger} {i amount : ℕ} (hi : i < maxTraderSeats) : Moves (.deposit i amount) l
      { l.withCollateral i (l.collateral i + amount) with vault := l.vault + amount }
  | withdraw {l : Ledger} {i amount : ℕ} (hi : i < maxTraderSeats)
      (hcovered : (amount : ℤ) ≤ l.collateral i) (hvault : amount ≤ l.vault) :
      Moves (.withdraw i amount) l
        { l.withCollateral i (l.collateral i - amount) with vault := l.vault - amount }
  | clear {l : Ledger} {i : ℕ} (hi : i < maxTraderSeats) :
      Moves (.clear i) l (l.withCollateral i 0)
  | charge {l : Ledger} (amount : ℕ) : Moves (.charge amount) l { l with fees := l.fees + amount }
  | insure {l : Ledger} {amount : ℕ} (hle : amount ≤ l.fees) : Moves (.insure amount) l
      { l with fees := l.fees - amount, insurance := l.insurance + amount }
  | payFees {l : Ledger} {amount : ℕ} (hle : amount ≤ l.fees) (hvault : amount ≤ l.vault) :
      Moves (.payFees amount) l { l with fees := l.fees - amount, vault := l.vault - amount }
  | payInsurance {l : Ledger} {amount : ℕ} (hle : amount ≤ l.insurance)
      (hvault : amount ≤ l.vault) : Moves (.payInsurance amount) l
      { l with insurance := l.insurance - amount, vault := l.vault - amount }
  | recognize {l : Ledger} (amount : ℕ) :
      Moves (.recognize amount) l { l with badDebt := l.badDebt + amount }
  | resolve {l : Ledger} {amount : ℕ} (hdebt : amount ≤ l.badDebt) (hle : amount ≤ l.insurance) :
      Moves (.resolve amount) l
        { l with badDebt := l.badDebt - amount, insurance := l.insurance - amount }
  | reconcile {l : Ledger} : Moves .reconcile l l.reconciled
  | receive {l : Ledger} (amount : ℕ) :
      Moves (.receive amount) l { l with vault := l.vault + amount }
  | create {l : Ledger} (hnew : l.initialized = false) : Moves .create l
      { l with
        mode := .paused, initialized := true, configured := false, status := .reconciled
        fees := 0, insurance := 0, badDebt := 0 }
  | configure {l : Ledger} (hnew : l.configured = false) : Moves .configure l
      { l with
        configured := true, status := .reconciled, fees := 0, insurance := 0, badDebt := 0 }

variable {l l' : Ledger} {mv : Movement} {i : ℕ}

theorem totalCollateral_withCollateral (hi : i < maxTraderSeats) (amount : ℤ) :
    (l.withCollateral i amount).totalCollateral = l.totalCollateral + (amount - l.collateral i) :=
  sum_range_update l.collateral (fun x => x) amount hi

/-! ## Reconciliation -/

theorem Moves.eq_reconciled (h : Moves .reconcile l l') : l' = l.reconciled := by
  cases h
  rfl

theorem Moves.collateral_eq (h : Moves mv l l') (hmv : mv = .create ∨ mv = .configure) :
    l'.collateral = l.collateral := by
  rcases hmv with rfl | rfl <;> cases h <;> rfl

theorem reconciled_collateral : l.reconciled.collateral = l.collateral := by
  unfold reconciled
  split_ifs <;> rfl

theorem reconciled_surplus : l.reconciled.surplus = l.surplus := by
  unfold reconciled
  split_ifs <;> rfl

theorem reconciled_of_surplus_nonneg (h : 0 ≤ l.surplus) :
    l.reconciled.mode = l.mode ∧ l.reconciled.blocked = false := by
  unfold surplus at h
  unfold reconciled
  by_cases heq : (l.vault : ℤ) = l.expected
  · rw [if_pos heq]
    exact ⟨rfl, rfl⟩
  · have hlt : l.expected < l.vault := by omega
    rw [if_neg heq, if_pos hlt]
    exact ⟨rfl, rfl⟩

theorem reconciled_of_surplus_neg (h : l.surplus < 0) :
    l.reconciled.mode = .paused ∧ l.reconciled.blocked = true := by
  unfold surplus at h
  have hne : (l.vault : ℤ) ≠ l.expected := by omega
  have hlt : ¬ l.expected < l.vault := by omega
  unfold reconciled
  rw [if_neg hne, if_neg hlt]
  refine ⟨rfl, ?_⟩
  unfold blocked
  cases (l.status = .deficitDetected || l.status = .recoveryRequired : Bool) <;> rfl

/-! ## Runs from a configured vault -/

/-- A vault in use. -/
structure Sound (l : Ledger) : Prop where
  initialized : l.initialized = true
  configured : l.configured = true
  nonneg : ∀ i, 0 ≤ l.collateral i

theorem Sound.withCollateral (hl : l.Sound) {amount : ℤ} (h : 0 ≤ amount) :
    (l.withCollateral i amount).Sound where
  initialized := hl.initialized
  configured := hl.configured
  nonneg j := by
    rcases eq_or_ne j i with rfl | hne
    · simpa only [Ledger.withCollateral, update_self] using h
    · simpa only [Ledger.withCollateral, update_of_ne hne] using hl.nonneg j

theorem Sound.of_eq (hl : l.Sound) (hi : l'.initialized = l.initialized)
    (hco : l'.configured = l.configured) (hc : l'.collateral = l.collateral) : l'.Sound where
  initialized := hi.trans hl.initialized
  configured := hco.trans hl.configured
  nonneg := by
    rw [hc]
    exact hl.nonneg

theorem Moves.sound (h : Moves mv l l') (hl : l.Sound) : l'.Sound := by
  cases h with
  | deposit hi =>
    exact (hl.withCollateral (add_nonneg (hl.nonneg _) (Int.natCast_nonneg _))).of_eq rfl rfl rfl
  | withdraw hi hc _ =>
    exact (hl.withCollateral (sub_nonneg.2 hc)).of_eq rfl rfl rfl
  | clear hi => exact hl.withCollateral le_rfl
  | reconcile =>
    refine hl.of_eq ?_ ?_ reconciled_collateral
    · unfold reconciled
      split_ifs <;> rfl
    · unfold reconciled
      split_ifs <;> rfl
  | create hn =>
    rw [hl.initialized] at hn
    cases hn
  | configure hn =>
    rw [hl.configured] at hn
    cases hn
  | _ => exact hl.of_eq rfl rfl rfl

theorem surplus_withCollateral (hi : i < maxTraderSeats) (amount : ℤ) (vault : ℕ) :
    surplus { l.withCollateral i amount with vault := vault } =
      vault - l.expected - (amount - l.collateral i) := by
  have ht := totalCollateral_withCollateral (l := l) hi amount
  change (vault : ℤ) - ((l.withCollateral i amount).totalCollateral + l.fees + l.insurance -
    l.badDebt) = _
  rw [ht, expected]
  ring

theorem Moves.surplus_le (h : Moves mv l l') (hl : l.Sound) : l.surplus - mv.fee ≤ l'.surplus := by
  have hf : mv.fee = 0 → l.surplus ≤ l'.surplus → l.surplus - mv.fee ≤ l'.surplus := by
    intro h0 hle
    rw [h0]
    simpa using hle
  cases h with
  | deposit hi =>
    refine hf rfl ?_
    rw [surplus_withCollateral hi, surplus]
    push_cast
    omega
  | withdraw hi hco hv =>
    refine hf rfl ?_
    rw [surplus_withCollateral hi, surplus, Nat.cast_sub hv]
    omega
  | @clear _ i hi =>
    have hno := hl.nonneg i
    have hc : (l.withCollateral i 0).surplus = l.vault - l.expected - (0 - l.collateral i) :=
      surplus_withCollateral hi 0 l.vault
    refine hf rfl ?_
    rw [hc, surplus]
    omega
  | reconcile =>
    refine hf rfl ?_
    rw [reconciled_surplus]
  | create hn =>
    rw [hl.initialized] at hn
    cases hn
  | configure hn =>
    rw [hl.configured] at hn
    cases hn
  | _ =>
    simp only [surplus, expected, totalCollateral, Movement.fee]
    omega

theorem Moves.backed_iff (h : Moves mv l l') (hl : l.Sound) (hb : 0 ≤ l.surplus) :
    0 ≤ l'.surplus ↔ (mv.fee : ℤ) ≤ l.surplus := by
  have hle := h.surplus_le hl
  constructor
  · intro hl'
    cases h with
    | charge amount =>
      simp only [surplus, expected, totalCollateral, Movement.fee] at hl' ⊢
      omega
    | _ => exact hb
  · intro hf
    omega

theorem Moves.unblocked (h : Moves mv l l') (hb : 0 ≤ l.surplus) (hl : l.blocked = false) :
    l'.blocked = false := by
  cases h with
  | reconcile => exact (reconciled_of_surplus_nonneg hb).2
  | create hn => rfl
  | configure hn => rfl
  | _ => exact hl

theorem Moves.mode_cases (h : Moves mv l l') :
    l'.mode = l.mode ∨ l'.mode = .paused ∨ mv = .setMode l'.mode := by
  cases h with
  | setMode mode => exact .inr (.inr rfl)
  | create hn => exact .inr (.inl rfl)
  | reconcile =>
    unfold reconciled
    split_ifs
    · exact .inl rfl
    · exact .inl rfl
    · exact .inr (.inl rfl)
    · exact .inr (.inl rfl)
  | _ => exact .inl rfl

end Ledger

end Equinox.V2
