import Equinox.Custody.Simulation

/-! # Deposits and withdrawals over whole runs

A receipt is credited at most once and a request is paid exactly once, as long as
seats are closed with zero counters: closing a seat erases its counters, while the
receipts they are compared with stay.
-/

namespace Equinox

open Foundation CritBit Custody World Finset

variable {a : Action} {w w' w₀ : World} {as : List Action}

namespace World

/-- What every run keeps. -/
structure Custodial (w : World) : Prop where
  accounted : w.Accounted
  held : Held v3SeatCount w.custody.claims
  bounded : Bounded w.custody.claims Claim.credited w.custody.deposited
  covered : Covered w.custody

theorem Initial.claims (h : w.Initial) (i : ℕ) : w.custody.claims i = .vacant := by
  simp only [custody, h.seats]
  rfl

theorem Initial.committed (h : w.Initial) (i : ℕ) : w.custody.committed i = .vacant := by
  simp only [custody, h.l1, h.seats]
  rfl

theorem Initial.total_eq (h : w.Initial) (kind : MovementKind) (trader : Address) :
    w.total kind trader = 0 := by
  simp [total, h.history]

theorem Initial.custodial (h : w.Initial) : w.Custodial where
  accounted := h.accounted
  held := by
    constructor
    · intro i hi
      simp [h.claims, Claim.vacant] at hi
    · exact fun i _ => h.claims i
    · intro i j t hi
      simp [h.claims, Claim.vacant] at hi
  bounded i t hi := by simp [h.claims, Claim.vacant] at hi
  covered := by
    constructor
    · intro i t hi
      simp [h.claims, Claim.vacant] at hi
    · intro i t hi
      simp [h.committed, Claim.vacant] at hi
    · intro t
      simp only [custody, h.total_eq, le_refl]

theorem Custodial.step (h : w.Custodial) (hs : w.Step a w') : w'.Custodial := by
  have hc := hs.custody h.accounted
  exact ⟨h.accounted.step hs, h.held.step hc, h.bounded.credited_step hc, h.covered.step hc⟩

theorem Initial.run {cond : Action → World → Prop} {P : State Address → Prop}
    (hi : w₀.Initial) (hr : Run (fun a w w' => a.Accepted w w' ∧ cond a w) w₀ as w)
    (hP : P w₀.custody)
    (hs : ∀ (a : Action) (w w' : World), w.Custodial → P w.custody → cond a w →
      Custody.Step v3SeatCount a.event w.custody w'.custody → P w'.custody) :
    w.Custodial ∧ P w.custody := by
  refine hr.invariant (P := fun w => w.Custodial ∧ P w.custody) ⟨hi.custodial, hP⟩ ?_
  rintro a w w' ⟨hw, hPw⟩ ⟨ha, hc⟩
  exact ⟨hw.step ha.step, hs a w w' hw hPw hc (ha.step.custody hw.accounted)⟩

theorem Initial.tracks (h : w.Initial) (counter : Claim Address → ℕ)
    (kind : MovementKind) : Tracks w.custody.claims counter (w.total kind) := by
  constructor
  · intro i t hi
    simp [h.claims, Claim.vacant] at hi
  · exact fun t _ => h.total_eq kind t

end World

theorem Action.event_eq_closed {i : ℕ} (h : a.event = .closed i) :
    ∃ ctx, a = .closeTraderSeat ctx i := by
  cases a <;> simp [event] at h
  subst h
  exact ⟨_, rfl⟩

/-! ## The inbox -/

/-- A seat is closed only if nothing was ever credited to it from the inbox. -/
def Action.ClosesUncredited (w : World) : Action → Prop
  | closeTraderSeat _ i => (w.live.seats i).inboxCredited = 0
  | _ => True

instance (w : World) (a : Action) : Decidable (a.ClosesUncredited w) := by
  unfold Action.ClosesUncredited; split <;> infer_instance

/-- No trader is credited more than they deposited into their receipt, in every run that closes no
seat with a credited counter. -/
theorem inboxCredited_le_inboxDeposited (hinit : w₀.Initial)
    (hrun : Run (fun a w w' => a.Accepted w w' ∧ a.ClosesUncredited w) w₀ as w) (trader : Address) :
    w.total .inboxCredited trader ≤ w.total .inboxDeposited trader := by
  obtain ⟨hw, ht⟩ := hinit.run (P := fun s =>
    Tracks s.claims Claim.credited s.credited) hrun (hinit.tracks _ _) (by
      intro a w w' hw ht hc hs
      refine ht.credited_step hw.held hs fun i hi => ?_
      obtain ⟨ctx, rfl⟩ := Action.event_eq_closed hi
      exact hc)
  exact ht.total_le hw.bounded trader

def inboxRun (trader : Context) : List Action :=
  [.depositToInboxV3 trader 100 100, .createTraderSeat trader 0,
    .claimInboxDepositV3 trader 0 trader.signer 100]

theorem inboxCredited_le_inboxDeposited_of_inboxRun :
    (genesis.after (inboxRun (call 7 1))).total .inboxCredited 7 ≤
      (genesis.after (inboxRun (call 7 1))).total .inboxDeposited 7 :=
  inboxCredited_le_inboxDeposited genesis_initial (run_of_accepts (by decide +kernel)) 7

/-- Close the seat, take it again and claim the same deposit again. -/
def recreditRun (trader : Context) : List Action :=
  inboxRun trader ++ [.closeTraderSeat trader 0, .createTraderSeat trader 0,
    .claimInboxDepositV3 trader 0 trader.signer 100]

theorem inboxCredited_twice : ∃ w₀ as w, w₀.Initial ∧ Run Action.Accepted w₀ as w ∧
    w.total .inboxDeposited 7 = 100 ∧ w.total .inboxCredited 7 = 200 :=
  ⟨genesis, recreditRun (call 7 1), _, genesis_initial,
    run_accepted (by decide +kernel), by decide +kernel⟩

/-! ## Withdrawals -/

/-- A seat is closed only if nothing was ever requested from it. -/
def Action.ClosesUnrequested (w : World) : Action → Prop
  | closeTraderSeat _ i => (w.live.seats i).withdrawalRequested = 0
  | _ => True

instance (w : World) (a : Action) : Decidable (a.ClosesUnrequested w) := by
  unfold Action.ClosesUnrequested; split <;> infer_instance

namespace World

/-- A trader's seat as L1 holds it shows all their requests, and the vault can pay them. -/
structure Payable (w : World) (ctx : Context) (i : ℕ) : Prop where
  live : (w.live.seats i).occupancy = true ∧ (w.live.seats i).trader = ctx.signer
  committed : (w.l1.seats i).occupancy = true ∧ (w.l1.seats i).trader = ctx.signer
  current : (w.l1.seats i).withdrawalRequested = (w.live.seats i).withdrawalRequested
  core : w.l1.core.initialized = true ∧ w.l1.core.mode = 1
  funded : w.total .withdrawalRequested ctx.signer ≤
    w.total .withdrawalPaid ctx.signer + w.vault

variable {ctx : Context} {i : ℕ}

/-- If the counter of the seat tells what was requested, one claim settles the trader. -/
theorem Payable.settles (h : w.Payable ctx i) (hw : w.Custodial)
    (hc : (w.live.seats i).withdrawalRequested = w.total .withdrawalRequested ctx.signer)
    (hu : w.total .withdrawalPaid ctx.signer ≠ w.total .withdrawalRequested ctx.signer) :
    ∃ w', (Action.claimWithdrawalV3 ctx i).Accepted w w' ∧
      w'.total .withdrawalPaid ctx.signer = w'.total .withdrawalRequested ctx.signer := by
  have hp : w.total .withdrawalPaid ctx.signer ≤ w.total .withdrawalRequested ctx.signer :=
    hw.covered.paid ctx.signer
  have hpa := congrFun hw.accounted.payouts ctx.signer
  have hf := h.funded
  have hi : i < v3SeatCount := hw.held.lt i (by simp [holder_isSome h.live.1])
  have hs : i / v3SeatsPerShard < v3SeatShards := by
    simp only [v3SeatCount, v3SeatsPerShard, v3SeatShards] at hi ⊢
    omega
  have hr : (w.l1.seats i).withdrawalRequested = w.total .withdrawalRequested ctx.signer :=
    h.current.trans hc
  have hlt : w.payouts ctx.signer < (w.l1.seats i).withdrawalRequested := by omega
  have hv : (w.l1.seats i).withdrawalRequested - w.payouts ctx.signer ≤ w.vault := by omega
  refine ⟨_, Action.accepted_claimWithdrawalV3.2 ⟨h.core, hs, h.committed, hlt, hv, rfl⟩, ?_⟩
  rw [total_record_self, total_record_of_ne (by decide), Function.update_self]
  change w.total _ _ + _ = w.total _ _
  omega

end World

/-- No trader is paid more than they requested, and whenever L1 shows all their requests, one claim
pays the rest, in every run that closes no seat with a request counter. -/
theorem withdrawalPaid_eq_withdrawalRequested (hinit : w₀.Initial)
    (hrun : Run (fun a w w' => a.Accepted w w' ∧ a.ClosesUnrequested w) w₀ as w)
    (trader : Address) :
    w.total .withdrawalPaid trader ≤ w.total .withdrawalRequested trader ∧
      ∀ ctx i, ctx.signer = trader → w.Payable ctx i →
        w.total .withdrawalPaid trader = w.total .withdrawalRequested trader ∨
        ∃ w', (Action.claimWithdrawalV3 ctx i).Accepted w w' ∧
          w'.total .withdrawalPaid trader = w'.total .withdrawalRequested trader := by
  obtain ⟨hw, ht⟩ := hinit.run (P := fun s =>
    Tracks s.claims Claim.requested s.requested) hrun (hinit.tracks _ _) (by
      intro a w w' hw ht hc hs
      refine ht.requested_step hw.held hs fun i hi => ?_
      obtain ⟨ctx, rfl⟩ := Action.event_eq_closed hi
      exact hc)
  refine ⟨hw.covered.paid trader, ?_⟩
  rintro ctx i rfl hp
  have hh : (w.custody.claims i).holder = some ctx.signer := by
    rw [holder_isSome hp.live.1, hp.live.2]
  by_cases hpa : w.total .withdrawalPaid ctx.signer = w.total .withdrawalRequested ctx.signer
  · exact .inl hpa
  · exact .inr (hp.settles hw (ht.held i _ hh) hpa)

/-- Take a seat, deposit on L1, delegate, request everything back and commit the seat. -/
def requestRun (trader authority : Context) (amount : ℕ) : List Action :=
  [.createTraderSeat trader 0, .depositCollateralV3 trader 0 amount amount,
    .delegateV3Core authority 9, .requestWithdrawalV3 trader 0 amount, .writeBackShard 0]

theorem withdrawalPaid_eq_withdrawalRequested_of_requestRun :
    ∃ w', (Action.claimWithdrawalV3 (call 7 1) 0).Accepted (genesis.after
        (requestRun (call 7 1) (call 3 1) 100)) w' ∧
      w'.total .withdrawalPaid 7 = w'.total .withdrawalRequested 7 :=
  ((withdrawalPaid_eq_withdrawalRequested genesis_initial
    (run_of_accepts (by decide +kernel)) 7).2
    (call 7 1) 0 rfl
    ⟨by decide +kernel, by decide +kernel, by decide +kernel, by decide +kernel,
      by decide +kernel⟩).resolve_left (by decide +kernel)

/-- Commit every child and the core, and bring the market back to L1. -/
def returnRun (authority : Context) (sequence : ℕ) : List Action :=
  (List.range v3ChildCount).map
    (fun child => .commitV3Member authority (sequence + child) .commitAndUndelegate child 1) ++
  [.commitV3Core authority (sequence + v3ChildCount) .commitAndUndelegate,
    .reconcileVaultV3 authority]

/-- A trader whose seat was closed after a payout of 100 requests 50 from a new one. -/
def lostRequestRun (trader authority : Context) : List Action :=
  requestRun trader authority 100 ++ [.claimWithdrawalV3 trader 0] ++ returnRun authority 1 ++
    [.closeTraderSeat trader 0] ++ requestRun trader authority 50

theorem withdrawal_lost : ∃ w₀ as w, w₀.Initial ∧ Run Action.Accepted w₀ as w ∧
    w.total .withdrawalPaid 7 = 100 ∧ w.total .withdrawalRequested 7 = 150 ∧
    w.l1.seats 0 = w.live.seats 0 ∧ w.vault = 50 ∧ ∀ ctx w', ctx.signer = 7 →
      ¬(Action.claimWithdrawalV3 ctx 0).Accepted w w' := by
  refine ⟨genesis, lostRequestRun (call 7 1) (call 3 1),
    _, genesis_initial, run_accepted (by decide +kernel), by decide +kernel,
    by decide +kernel, by decide +kernel, by decide +kernel, ?_⟩
  intro ctx w' hc h
  have hlt := (Action.accepted_claimWithdrawalV3.1 h).2.2.2.1
  rw [hc] at hlt
  revert hlt
  decide +kernel

/-! ## The ledger -/

/-- A seat is closed only without collateral, and the core is not rolled back. -/
def Action.KeepsLedger (w : World) : Action → Prop
  | closeTraderSeat _ i => (w.live.seats i).availableCollateral = 0
  | rollbackV3Undelegation => False
  | _ => True

instance (w : World) (a : Action) : Decidable (a.KeepsLedger w) := by
  unfold Action.KeepsLedger; split <;> infer_instance

theorem Action.event_eq_ledgerLost (h : a.event = .ledgerLost) : a = .rollbackV3Undelegation := by
  cases a <;> simp [event] at h ⊢

/-- What the core owes and has earned is what the seats hold, in every run that closes seats
empty. -/
theorem ledger_eq_sum_availableCollateral (hinit : w₀.Initial)
    (hrun : Run (fun a w w' => a.Accepted w w' ∧ a.KeepsLedger w) w₀ as w) :
    w.live.core.vaultLiability + w.live.core.protocolFeeBalance =
      ∑ i ∈ range v3SeatCount, (w.live.seats i).availableCollateral := by
  have hz : Custody.Balanced v3SeatCount w₀.custody := by
    obtain ⟨_, hco⟩ := hinit.core_eq
    simp [Custody.Balanced, custody, hinit.seats, TraderSeat.claim, TraderSeat.empty, hco,
      initializeV3RiskConfig]
  exact (hinit.run hrun hz (by
    intro a w w' hw hb hc hs
    refine hb.step hw.held hs (fun i hi => ?_) fun hl => ?_
    · obtain ⟨ctx, rfl⟩ := Action.event_eq_closed hi
      exact hc
    · obtain rfl := Action.event_eq_ledgerLost hl
      exact hc)).2

theorem ledger_eq_sum_availableCollateral_of_inboxRun :
    (genesis.after (inboxRun (call 7 1))).live.core.vaultLiability +
        (genesis.after
          (inboxRun (call 7 1))).live.core.protocolFeeBalance =
      ∑ i ∈ range v3SeatCount, ((genesis.after
        (inboxRun (call 7 1))).live.seats i).availableCollateral :=
  ledger_eq_sum_availableCollateral genesis_initial (run_of_accepts (by decide +kernel))

def orphanRun (trader : Context) : List Action := inboxRun trader ++ [.closeTraderSeat trader 0]

theorem ledger_orphaned : ∃ w₀ as w, w₀.Initial ∧ Run Action.Accepted w₀ as w ∧
    w.live.core.vaultLiability + w.live.core.protocolFeeBalance = 100 ∧
    ∑ i ∈ range v3SeatCount, (w.live.seats i).availableCollateral = 0 :=
  ⟨genesis, orphanRun (call 7 1), _, genesis_initial,
    run_accepted (by decide +kernel), by decide +kernel⟩

end Equinox
