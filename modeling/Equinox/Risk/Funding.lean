import Equinox.Foundation.Truncation
import Equinox.Risk.Fill

/-! # Funding over many seats and many settlements

Every settlement rounds its payment towards zero. Settling all sides of a market
may therefore pay out more than it takes in, though by less than one unit for
each seat that pays. A seat that is settled often pays at most what it would pay
at once, and at most one unit less for each settlement after the first.
-/

namespace Equinox.Risk

open Foundation List

variable {seat seat' : TraderSeat} {seats : List TraderSeat} {a b : ℤ}

/-- The product that a payment is the truncated quotient of. -/
def fundingProduct (accumulator : ℤ) (seat : TraderSeat) : ℤ :=
  seat.basePosition * (accumulator - seat.lastFundingAccumulator)

theorem fundingScale_pos : 0 < fundingScale := by decide

theorem settleFunding_isOk_iff :
    (∃ payment seat', settleFunding seat a = .ok (payment, seat')) ↔
      InI128 (a - seat.lastFundingAccumulator) ∧ InI128 (fundingProduct a seat) ∧
        InI128 (seat.realizedPnl - (fundingProduct a seat).tdiv fundingScale) := by
  simp only [settleFunding, ok_rules, sub_eq_ok, mul_eq_ok, Prod.mk.injEq, fundingProduct]
  constructor
  · rintro ⟨_, _, _, ⟨hd, rfl⟩, _, ⟨hp, rfl⟩, _, ⟨hs, rfl⟩, -, -⟩
    exact ⟨hd, hp, hs⟩
  · rintro ⟨hd, hp, hs⟩
    exact ⟨_, _, _, ⟨hd, rfl⟩, _, ⟨hp, rfl⟩, _, ⟨hs, rfl⟩, rfl, rfl⟩

/-! ## All seats of a market -/

/-- Settle each of some seats to one accumulator; returns the payments with the seats. -/
def settleSeats (seats : List TraderSeat) (accumulator : ℤ) :
    Except RiskError (List (ℤ × TraderSeat)) :=
  seats.mapM (settleFunding · accumulator)

theorem settleSeats_payments {settled : List (ℤ × TraderSeat)}
    (h : settleSeats seats b = .ok settled) :
    settled.map Prod.fst = (seats.map (fundingProduct b)).map (·.tdiv fundingScale) := by
  induction seats generalizing settled with
  | nil =>
    obtain rfl := pure_eq_ok.1 h
    rfl
  | cons seat seats ih =>
    rw [settleSeats, mapM_cons, bind_eq_ok] at h
    obtain ⟨⟨payment, seat'⟩, hs, h⟩ := h
    obtain ⟨rest, hr, h⟩ := bind_eq_ok.1 h
    obtain rfl := pure_eq_ok.1 h
    rw [map_cons, ih hr, (settleFunding_eq_ok hs).1]
    rfl

def payers (seats : List TraderSeat) (accumulator : ℤ) : ℕ :=
  seats.countP fun seat => 0 < fundingProduct accumulator seat

theorem sum_fundingProduct (hl : ∀ seat ∈ seats, seat.lastFundingAccumulator = a) :
    (seats.map (fundingProduct b)).sum = (seats.map (·.basePosition)).sum * (b - a) := by
  rw [← sum_map_mul_right]
  refine congrArg sum (map_congr_left fun seat hs => ?_)
  rw [fundingProduct, hl seat hs]

/-- Settling seats whose positions cancel takes in at least what it pays out if and only if the
remainders of the payers come to no more than those of the receivers. In any case it pays out less
than one unit for each payer more than it takes in. -/
theorem settleSeats_solvent_iff {settled : List (ℤ × TraderSeat)}
    (hzero : (seats.map (·.basePosition)).sum = 0)
    (hlast : ∀ seat ∈ seats, seat.lastFundingAccumulator = a)
    (h : settleSeats seats b = .ok settled) :
    (0 ≤ (settled.map Prod.fst).sum ↔
      (seats.map fun seat => (fundingProduct b seat).tmod fundingScale).sum ≤ 0) ∧
    min 0 (1 - (payers seats b : ℤ)) ≤ (settled.map Prod.fst).sum := by
  have hp : (seats.map (fundingProduct b)).sum = 0 := by
    rw [sum_fundingProduct hlast, hzero, zero_mul]
  have hsum := mul_sum_tdiv (s := fundingScale) hp
  have hmod := sum_tmod_le (l := seats.map (fundingProduct b)) fundingScale_pos
  simp only [map_map, countP_map, Function.comp_def] at hsum hmod
  simp only [settleSeats_payments h, map_map, Function.comp_def]
  change _ ≤ (payers seats b : ℤ) * (fundingScale - 1) at hmod
  generalize (seats.map fun seat => (fundingProduct b seat).tmod fundingScale).sum = rest at *
  generalize (seats.map fun seat => (fundingProduct b seat).tdiv fundingScale).sum = total at *
  unfold fundingScale at hsum hmod
  omega

def roundingSeats : List TraderSeat :=
  [1, 1, -2].map fun position => { TraderSeat.empty with basePosition := position }

theorem settleSeats_solvent_iff_of_roundingSeats :
    ∃ settled, settleSeats roundingSeats 2000000 = .ok settled ∧
      0 ≤ (settled.map Prod.fst).sum := by
  obtain ⟨settled, hs⟩ : ∃ settled, settleSeats roundingSeats 2000000 = .ok settled := ⟨_, rfl⟩
  refine ⟨settled, hs, (settleSeats_solvent_iff (a := 0) ?_ ?_ hs).1.2 ?_⟩
  · decide
  · decide
  · decide

/-- The payers owe less than a unit each, and the receiver is owed almost two. -/
theorem settleSeats_insolvent : ∃ settled, (roundingSeats.map (·.basePosition)).sum = 0 ∧
    (∀ seat ∈ roundingSeats, seat.lastFundingAccumulator = 0) ∧
    settleSeats roundingSeats 999999 = .ok settled ∧ (settled.map Prod.fst).sum = -1 :=
  ⟨_, by decide, by decide, rfl, by decide⟩

/-! ## One seat, settled again and again -/

/-- Settle a seat to one accumulator after the other; returns the payments. -/
def settleEach (seat : TraderSeat) : List ℤ → Except RiskError (List ℤ × TraderSeat)
  | [] => pure ([], seat)
  | accumulator :: rest => do
    let (payment, settled) ← settleFunding seat accumulator
    let (payments, last) ← settleEach settled rest
    pure (payment :: payments, last)

theorem settleEach_cons {settled : TraderSeat} {payment : ℤ} {accs payments : List ℤ}
    (h : settleFunding seat a = .ok (payment, settled))
    (hr : settleEach settled accs = .ok (payments, seat')) :
    settleEach seat (a :: accs) = .ok (payment :: payments, seat') := by
  simp only [settleEach, ok_rules]
  exact ⟨_, h, _, hr, rfl⟩

def productParts (base last : ℤ) : List ℤ → List ℤ
  | [] => []
  | accumulator :: rest => base * (accumulator - last) :: productParts base accumulator rest

theorem settleEach_payments {accs payments : List ℤ}
    (h : settleEach seat accs = .ok (payments, seat')) :
    payments = (productParts seat.basePosition seat.lastFundingAccumulator accs).map
      (·.tdiv fundingScale) := by
  induction accs generalizing seat payments with
  | nil =>
    simp only [settleEach, pure_eq_ok, Prod.mk.injEq] at h
    obtain ⟨rfl, -⟩ := h
    rfl
  | cons accumulator rest ih =>
    simp only [settleEach, ok_rules, Prod.mk.injEq] at h
    obtain ⟨⟨payment, settled⟩, hs, ⟨payments', last⟩, hr, rfl, rfl⟩ := h
    obtain ⟨rfl, rfl⟩ := settleFunding_eq_ok hs
    rw [ih hr]
    rfl

theorem length_productParts (base last : ℤ) (accs : List ℤ) :
    (productParts base last accs).length = accs.length := by
  induction accs generalizing last with
  | nil => rfl
  | cons accumulator rest ih => simp only [productParts, length_cons, ih]

theorem sum_productParts (base last : ℤ) (accs : List ℤ) :
    (productParts base last (accs ++ [a])).sum = base * (a - last) := by
  induction accs generalizing last with
  | nil => simp [productParts]
  | cons accumulator rest ih =>
    rw [cons_append, productParts, sum_cons, ih]
    ring

theorem productParts_same_sign (base : ℤ) {last : ℤ} {accs : List ℤ}
    (h : (last :: accs).Pairwise (· ≤ ·)) :
    (∀ x ∈ productParts base last accs, 0 ≤ x) ∨ ∀ x ∈ productParts base last accs, x ≤ 0 := by
  have hp {x last : ℤ} {accs : List ℤ} (h : (last :: accs).Pairwise (· ≤ ·))
      (hx : x ∈ productParts base last accs) : ∃ d, 0 ≤ d ∧ x = base * d := by
    induction accs generalizing last with
    | nil => simp [productParts] at hx
    | cons accumulator rest ih =>
      rw [pairwise_cons] at h
      rcases mem_cons.1 hx with rfl | hx
      · exact ⟨_, sub_nonneg.2 (h.1 _ mem_cons_self), rfl⟩
      · exact ih h.2 hx
  rcases le_total 0 base with hb | hb
  · refine .inl fun x hx => ?_
    obtain ⟨d, hd, rfl⟩ := hp h hx
    exact mul_nonneg hb hd
  · refine .inr fun x hx => ?_
    obtain ⟨d, hd, rfl⟩ := hp h hx
    exact mul_nonpos_of_nonpos_of_nonneg hb hd

/-- If a seat can be settled at once, it can be settled on the way as well. -/
theorem settleEach_isOk {accs : List ℤ} (hpnl : InI128 seat.realizedPnl)
    (hs : (seat.lastFundingAccumulator :: (accs ++ [a])).Pairwise (· ≤ ·))
    (h : ∃ payment settled, settleFunding seat a = .ok (payment, settled)) :
    ∃ payments seat', settleEach seat (accs ++ [a]) = .ok (payments, seat') := by
  induction accs generalizing seat with
  | nil =>
    obtain ⟨payment, settled, h⟩ := h
    exact ⟨[payment], settled, settleEach_cons h rfl⟩
  | cons c rest ih =>
    rw [cons_append, pairwise_cons] at hs
    have hc := hs.1 c mem_cons_self
    have hca : c ≤ a := (pairwise_cons.1 hs.2).1 a (by simp)
    rw [settleFunding_isOk_iff] at h
    unfold fundingProduct at h
    obtain ⟨hd, hpr, hpa⟩ := h
    -- the products up to `c` and from there on have the sign of the position
    have hsi : (0 ≤ seat.basePosition * (c - seat.lastFundingAccumulator) ∧
        0 ≤ seat.basePosition * (a - c)) ∨
        (seat.basePosition * (c - seat.lastFundingAccumulator) ≤ 0 ∧
          seat.basePosition * (a - c) ≤ 0) := by
      rcases le_total 0 seat.basePosition with hb | hb
      · exact .inl ⟨mul_nonneg hb (sub_nonneg.2 hc), mul_nonneg hb (sub_nonneg.2 hca)⟩
      · exact .inr ⟨mul_nonpos_of_nonpos_of_nonneg hb (sub_nonneg.2 hc),
          mul_nonpos_of_nonpos_of_nonneg hb (sub_nonneg.2 hca)⟩
    have hq := tdiv_add_cases fundingScale_pos hsi
    have hw : seat.basePosition * (a - seat.lastFundingAccumulator) =
        seat.basePosition * (c - seat.lastFundingAccumulator) + seat.basePosition * (a - c) := by
      ring
    rw [hw] at hpr hpa
    obtain ⟨payment, settled, hset⟩ :
        ∃ payment settled, settleFunding seat c = .ok (payment, settled) := by
      rw [settleFunding_isOk_iff]
      unfold fundingProduct InI128 at *
      omega
    obtain ⟨hp, hse⟩ := settleFunding_eq_ok hset
    have hp' : InI128 settled.realizedPnl := by
      rw [hse, hp]
      unfold InI128 at *
      dsimp only
      omega
    have hl : settled.lastFundingAccumulator = c := by rw [hse]
    obtain ⟨payments, seat', hr⟩ := ih hp' (hl ▸ hs.2) (by
      rw [settleFunding_isOk_iff, fundingProduct, hse, hp]
      unfold InI128 at *
      dsimp only
      omega)
    exact ⟨_, seat', settleEach_cons hset hr⟩

/-- A seat whose position stays is settled along a sequence of accumulators that does not decrease.
The payments differ from the one payment for the whole way by at most one unit for each settlement
but the first, and come to no more than it in absolute value. If the one payment can be made, so
can all the others. -/
theorem settleEach_close {accs : List ℤ} (hpnl : InI128 seat.realizedPnl)
    (hsorted : (seat.lastFundingAccumulator :: (accs ++ [a])).Pairwise (· ≤ ·)) :
    (∀ payments seat', settleEach seat (accs ++ [a]) = .ok (payments, seat') →
      |(fundingProduct a seat).tdiv fundingScale - payments.sum| ≤ accs.length ∧
        |payments.sum| ≤ |(fundingProduct a seat).tdiv fundingScale|) ∧
    ∀ payment settled, settleFunding seat a = .ok (payment, settled) →
      payment = (fundingProduct a seat).tdiv fundingScale ∧
        ∃ payments seat', settleEach seat (accs ++ [a]) = .ok (payments, seat') := by
  refine ⟨fun payments seat' h => ?_, fun payment settled h => ?_⟩
  · have hc := sum_tdiv_of_same_sign fundingScale_pos
      (productParts_same_sign seat.basePosition hsorted)
    rw [sum_productParts, length_productParts, length_append, length_singleton,
      Nat.add_sub_cancel, ← settleEach_payments h] at hc
    exact hc
  · exact ⟨(settleFunding_eq_ok h).1, settleEach_isOk hpnl hsorted ⟨payment, settled, h⟩⟩

def longSeat : TraderSeat := { TraderSeat.empty with basePosition := 3 }

/-- The single payment is 4, and each of the four payments on the way is 1. -/
theorem settleEach_close_of_longSeat : ∃ payments seat',
    settleEach longSeat ([400000, 800000, 1200000] ++ [1600000]) = .ok (payments, seat') ∧
      |4 - payments.sum| ≤ 3 ∧ |payments.sum| ≤ 4 := by
  have hc := @settleEach_close longSeat 1600000 [400000, 800000, 1200000] (by decide) (by decide)
  obtain ⟨payments, seat', h⟩ := (hc.2 4 _ rfl).2
  exact ⟨payments, seat', h, hc.1 payments seat' h⟩

end Equinox.Risk
