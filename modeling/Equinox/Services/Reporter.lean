import Equinox.Market.Reports

/-! # The price reporter

Off chain, the reporter walks the posted price toward its target, each time by a
band that keeps a margin to the program's limit. The band is rounded down, so a
small price does not move at all.
-/

namespace Equinox

open Foundation SnapshotBytes

namespace Reporter

open Reports

/-- The program's limit less a margin. -/
def allowedMoveBps (elapsed : ℕ) : ℤ :=
  min (saturatingAdd (saturatingMul elapsed 10) 50) 1000 - 5

def nextPrice (previous target : I64) (elapsed : ℕ) : I64 :=
  if previous.val ≤ 0 then target
  else
    let band := (previous.val * allowedMoveBps elapsed).tdiv 10000
    .wrap (max (previous.val - band) (min target.val (previous.val + band)))

/-- The price after some posts toward a target, by the seconds before each. -/
def priceAfter (target : I64) (elapsed : ℕ → ℕ) (price : I64) : ℕ → I64
  | 0 => price
  | n + 1 => nextPrice (priceAfter target elapsed price n) target (elapsed n)

variable {p t : I64} {e : ℕ}

/-- The band around a price that a post stays in. -/
def band (p : ℤ) (e : ℕ) : ℤ := p * (min (10 * e + 45) 995 : ℕ) / 10000

theorem band_nonneg {q : ℤ} (hq : 0 < q) : 0 ≤ band q e :=
  Int.ediv_nonneg (mul_nonneg hq.le (Int.natCast_nonneg _)) (by norm_num)

theorem nextPrice_val (hp : 0 < p.val) : (nextPrice p t e).val =
    max (p.val - band p.val e) (min t.val (p.val + band p.val e)) := by
  have ha : allowedMoveBps e = (min (10 * e + 45) 995 : ℕ) := by
    have := maxReportMoveBps_eq e
    simp only [maxReportMoveBps] at this
    simp only [allowedMoveBps]
    omega
  have hpos : 0 ≤ p.val * (min (10 * e + 45) 995 : ℕ) := mul_nonneg hp.le (Int.natCast_nonneg _)
  have hb : band p.val e ≤ p.val := by
    have : p.val * (min (10 * e + 45) 995 : ℕ) ≤ p.val * 10000 :=
      mul_le_mul_of_nonneg_left (by omega) hp.le
    exact Int.ediv_le_of_le_mul (by norm_num) this
  have hb₀ := band_nonneg (e := e) hp
  have := p.property
  have := t.property
  rw [nextPrice, if_neg (not_le.2 hp), ha, Int.tdiv_eq_ediv_of_nonneg hpos]
  exact I64.wrap_val (by change _ ∧ max _ (min _ (_ + band _ _)) < _; omega)

theorem band_mul_le (hp : 0 < p.val) (e : ℕ) :
    band p.val e * 10000 ≤ maxReportMoveBps e * p.val := by
  have hl : (min (10 * e + 45) 995 : ℕ) ≤ maxReportMoveBps e := by
    rw [maxReportMoveBps_eq]
    omega
  calc band p.val e * 10000 ≤ p.val * (min (10 * e + 45) 995 : ℕ) :=
        Int.ediv_mul_le _ (by norm_num)
    _ ≤ p.val * maxReportMoveBps e := mul_le_mul_of_nonneg_left (by exact_mod_cast hl) hp.le
    _ = maxReportMoveBps e * p.val := mul_comm _ _

theorem band_pos {q : ℤ} (hq : 182 ≤ q) (he : 1 ≤ e) : 1 ≤ band q e := by
  have : (182 : ℤ) * 55 ≤ q * (min (10 * e + 45) 995 : ℕ) :=
    mul_le_mul hq (by omega) (by norm_num) (by omega)
  unfold band
  omega

theorem band_second (q : ℤ) : band q 1 = q * 55 / 10000 := by
  simp [band]

/-- A post of the reporter passes the program's limit. -/
theorem checkMove_nextPrice {report : PriceReport} {bytes : Bytes} {since : ℕ}
    (hb : Holds bytes p.val since)
    (hr : report.price = nextPrice p t (report.publishTimestamp - since)) :
    checkMove report bytes = .ok () := by
  have hp := hb.pos
  have hb₀ := band_nonneg (e := report.publishTimestamp - since) hp
  have hm := band_mul_le hp (report.publishTimestamp - since)
  have hv := nextPrice_val (t := t) (e := report.publishTimestamp - since) hp
  rw [← hr] at hv
  generalize hl : maxReportMoveBps (report.publishTimestamp - since) = limit at hm
  simp only [checkMove, hb.price, hb.authenticated, hb.time, hp, and_self, if_true, hl,
    require_eq_ok]
  have hn : (report.price.val - p.val).natAbs * 10000 ≤ limit * p.val.natAbs := by
    zify
    rw [abs_of_pos hp]
    have : |report.price.val - p.val| ≤ band p.val (report.publishTimestamp - since) := by
      rw [abs_le]
      omega
    linarith
  exact min_le_min_right _ hn

theorem nextPrice_closer (hp : 182 ≤ p.val) (he : 1 ≤ e) (hne : p ≠ t) :
    |(nextPrice p t e).val - t.val| < |p.val - t.val| := by
  have hb := band_pos hp he
  have hv := nextPrice_val (t := t) (e := e) (show 0 < p.val by omega)
  have hne' : p.val ≠ t.val := fun h => hne (Subtype.ext h)
  rcases lt_or_gt_of_ne hne' with hlt | hlt
  · rw [abs_of_nonpos (by omega), abs_of_neg (by omega)]
    omega
  · rw [abs_of_nonneg (by omega), abs_of_pos (by omega)]
    omega

/-- Where the reporter gets to its target from. -/
def Within (t p : I64) : Prop := p = t ∨ 182 ≤ p.val ∧ 181 ≤ t.val

theorem Within.nextPrice (h : Within t p) (hp : 0 < p.val) : Within t (nextPrice p t e) := by
  have hv := nextPrice_val (t := t) (e := e) hp
  have hb₀ := band_nonneg (e := e) hp
  by_cases heq : (Reporter.nextPrice p t e).val = t.val
  · exact .inl (Subtype.ext heq)
  · rcases h with rfl | h
    · omega
    · exact .inr ⟨by omega, h.2⟩

theorem Within.priceAfter (h : Within t p) (hp : 0 < p.val) (ht : 0 < t.val) (elapsed : ℕ → ℕ)
    (n : ℕ) : Within t (priceAfter t elapsed p n) ∧ 0 < (priceAfter t elapsed p n).val := by
  induction n with
  | zero => exact ⟨h, hp⟩
  | succ n ih =>
    have hw := ih.1.nextPrice (e := elapsed n) ih.2
    refine ⟨hw, ?_⟩
    change 0 < (Reporter.nextPrice (Reporter.priceAfter t elapsed p n) t (elapsed n)).val
    rcases hw with hw | hw
    · rwa [hw]
    · omega

/-- From a small price no post of one second moves, and from a larger one none gets below it. -/
theorem le_nextPrice_second (hp : 181 ≤ p.val) : 181 ≤ (nextPrice p t 1).val := by
  rw [nextPrice_val (by omega), band_second]
  omega

theorem nextPrice_second_stuck (hp : 0 < p.val) (hle : p.val ≤ 181) : nextPrice p t 1 = p := by
  have hv := nextPrice_val (t := t) (e := 1) hp
  rw [band_second] at hv
  exact Subtype.ext (by omega)

/-- Every post passes the program's limit, every post is strictly closer to the target, and some
post is at it, exactly if the reporter starts at its target or neither the price nor the target is
too small for a band of one second. -/
theorem reporter_reaches_iff (hp : 0 < p.val) (ht : 0 < t.val) :
    (∀ elapsed : ℕ → ℕ, (∀ n, 1 ≤ elapsed n) →
      (∀ n report bytes since, Holds bytes (priceAfter t elapsed p n).val since →
        report.price = nextPrice (priceAfter t elapsed p n) t (report.publishTimestamp - since) →
        checkMove report bytes = .ok ()) ∧
      (∀ n, priceAfter t elapsed p n ≠ t →
        |(priceAfter t elapsed p (n + 1)).val - t.val| < |(priceAfter t elapsed p n).val - t.val|) ∧
      ∃ n, priceAfter t elapsed p n = t) ↔ p = t ∨ 182 ≤ p.val ∧ 181 ≤ t.val := by
  constructor
  · intro h
    by_contra hw
    obtain ⟨-, hcloser, n, hn⟩ := h (fun _ => 1) fun _ => le_rfl
    by_cases hle : p.val ≤ 181
    · have hstep := hcloser 0 fun heq => hw (.inl heq)
      rw [priceAfter, priceAfter, priceAfter, nextPrice_second_stuck hp hle] at hstep
      exact lt_irrefl _ hstep
    · have hlow (n : ℕ) : 181 ≤ (priceAfter t (fun _ => 1) p n).val := by
        induction n with
        | zero => exact (not_le.1 hle).le
        | succ n ih => exact le_nextPrice_second ih
      have := hlow n
      rw [hn] at this
      exact hw (.inr ⟨not_le.1 hle, this⟩)
  · intro hw elapsed he
    have hall := Within.priceAfter hw hp ht elapsed
    have hcloser (n : ℕ) (hne : priceAfter t elapsed p n ≠ t) :
        |(priceAfter t elapsed p (n + 1)).val - t.val| <
          |(priceAfter t elapsed p n).val - t.val| := by
      rcases (hall n).1 with heq | hlarge
      · exact absurd heq hne
      · exact nextPrice_closer hlarge.1 (he n) hne
    refine ⟨fun n report bytes since hb hr => checkMove_nextPrice hb hr, hcloser, ?_⟩
    -- distances that only fall cannot fall for ever
    by_contra hnever
    rw [not_exists] at hnever
    have hfall : StrictAnti fun n => (|(priceAfter t elapsed p n).val - t.val|).toNat :=
      strictAnti_nat_of_succ_lt fun n => by
        have := hcloser n (hnever n)
        have := abs_nonneg ((priceAfter t elapsed p (n + 1)).val - t.val)
        omega
    exact not_strictAnti_of_wellFoundedLT _ hfall

theorem reporter_doubles_price :
    ∃ n, priceAfter 2000 (fun _ => 1) 1000 n = 2000 :=
  ((reporter_reaches_iff (by decide) (by decide)).2 (.inr (by decide)) (fun _ => 1)
    fun _ => le_rfl).2.2

/-- At a price of 100 and a target of 200 the program accepts the post of one second later, but the
price it posts is 100 again, and so are all the prices after it. -/
theorem reporter_never_arrives : ∃ (p t : I64) (first next : PriceReport), p ≠ t ∧
    first.price = p ∧
    next.price = nextPrice p t (next.publishTimestamp.val - first.publishTimestamp) ∧
    isOk ([first, next].forM reportPriceV3 (List.replicate 128 0)) = true ∧
    ∀ n, priceAfter t (fun _ => 1) p n = p := by
  refine ⟨100, 200, reportAt 100 1000,
    reportAt 100 1001, by decide, rfl, by decide, by decide +kernel, fun n => ?_⟩
  induction n with
  | zero => rfl
  | succ n ih =>
    rw [priceAfter, ih]
    exact nextPrice_second_stuck (by decide) (by decide)

end Reporter

end Equinox
