import GlyphMath.Decimal.Plain
import Mathlib.Tactic.Ring

/-!
# The double nearest a quotient

A positive real is given as a quotient of natural numbers that counts ticks.

* `nearestTicks` -- significand and scale of the double nearest a quotient, a tie going to the even
  significand.
* `IsCanonical` -- the pairs of significand and scale that doubles have.
* `Rounding.contains_congr` -- membership in the interval of a double depends on the quotient only.

Principal results:

* `nearestTicks_of_contains` -- every quotient in the interval of a double is rounded to it.
* `lt_scale_iff` -- from which quotients on a scale is exceeded.
-/

set_option autoImplicit false

namespace GlyphMath.Decimal

theorem twoTo_eq (n : Nat) : twoTo n = 2 ^ n := rfl

theorem ticksPerOne_eq : ticksPerOne = 2 ^ 1074 := twoTo_eq 1074

/-! ## Rounding half to even -/

/-- A natural number is the rounded quotient when it is at most a half away, and less than a half
if it is odd. -/
theorem roundHalfEven_eq {s a d : Nat} (hd : 0 < d) (hlow : 2 * (s * d) ≤ 2 * a + d)
    (hhigh : 2 * a ≤ 2 * (s * d) + d)
    (hodd : s % 2 = 1 → 2 * (s * d) < 2 * a + d ∧ 2 * a < 2 * (s * d) + d) :
    roundHalfEven a d = s := by
  have ha := Nat.div_add_mod a d
  have hr := Nat.mod_lt a hd
  unfold roundHalfEven
  dsimp only
  generalize a / d = q at *
  generalize a % d = r at *
  have hq : q = s ∨ q + 1 = s := by
    have h1 : q < s + 1 := by
      by_contra h
      have := Nat.mul_le_mul_left d (Nat.le_of_not_lt h)
      rw [Nat.mul_add, Nat.mul_one, Nat.mul_comm d s] at this
      omega
    have h2 : s < q + 2 := by
      by_contra h
      have := Nat.mul_le_mul_left d (Nat.le_of_not_lt h)
      rw [Nat.mul_add, Nat.mul_comm d s] at this
      omega
    omega
  rcases hq with rfl | rfl
  · rw [Nat.mul_comm d q] at ha
    split
    · rfl
    · split
      · omega
      · split
        · rfl
        · rename_i heven
          rw [beq_iff_eq] at heven
          omega
  · rw [Nat.mul_comm d q] at ha
    rw [Nat.add_mul, Nat.one_mul] at hlow hhigh hodd
    split
    · omega
    · split
      · rfl
      · split
        · rename_i heven
          rw [beq_iff_eq] at heven
          omega
        · rfl

theorem roundHalfEven_mul (a d : Nat) {c : Nat} (hc : 0 < c) :
    roundHalfEven (a * c) (d * c) = roundHalfEven a d := by
  have hmod : 2 * (a * c % (d * c)) = 2 * (a % d) * c := by
    rw [Nat.mul_mod_mul_right, Nat.mul_assoc]
  unfold roundHalfEven
  simp only [Nat.mul_div_mul_right _ _ hc, hmod, Nat.mul_lt_mul_right hc]

theorem div_le_roundHalfEven (a d : Nat) : a / d ≤ roundHalfEven a d := by
  unfold roundHalfEven
  dsimp only
  split
  · exact Nat.le_refl _
  · split
    · omega
    · split <;> omega

theorem roundHalfEven_le (a d : Nat) : roundHalfEven a d ≤ a / d + 1 := by
  unfold roundHalfEven
  dsimp only
  split
  · omega
  · split
    · exact Nat.le_refl _
    · split <;> omega

theorem two_mul_roundHalfEven_le (a d : Nat) : 2 * (roundHalfEven a d * d) ≤ 2 * a + d := by
  have ha := Nat.div_add_mod a d
  have hup : (a / d + 1) * d = a / d * d + d := by rw [Nat.add_mul, Nat.one_mul]
  rw [Nat.mul_comm d] at ha
  unfold roundHalfEven
  dsimp only
  split
  · omega
  · split
    · omega
    · split <;> omega

/-! ## The nearest double -/

/-- The significand and the scale of the double nearest `numerator / denominator` ticks.  A
significand that is rounded up to the next power of two is carried into the scale. -/
def nearestTicks (numerator denominator : Nat) : Nat × Nat :=
  let scale := (numerator / denominator).log2 - 52
  let significand := roundHalfEven numerator (denominator * 2 ^ scale)
  if significand = 2 ^ 53 then (2 ^ 52, scale + 1) else (significand, scale)

/-- The significands and scales of doubles: 53 bits, and fewer only at the smallest scale. -/
def IsCanonical (significand scale : Nat) : Prop :=
  significand < 2 ^ 53 ∧ (scale = 0 ∨ 2 ^ 52 ≤ significand)

theorem nearestTicks_mul (a d : Nat) {c : Nat} (hc : 0 < c) :
    nearestTicks (a * c) (d * c) = nearestTicks a d := by
  unfold nearestTicks
  dsimp only
  rw [Nat.mul_div_mul_right _ _ hc, Nat.mul_right_comm, roundHalfEven_mul _ _ hc]

theorem nearestTicks_congr {a d a' d' : Nat} (hd : 0 < d) (hd' : 0 < d')
    (h : a * d' = a' * d) : nearestTicks a d = nearestTicks a' d' := by
  rw [← nearestTicks_mul a d hd', ← nearestTicks_mul a' d' hd, h, Nat.mul_comm d d']

theorem significand_le (a d : Nat) :
    roundHalfEven a (d * 2 ^ ((a / d).log2 - 52)) ≤ 2 ^ 53 := by
  have hhigh := roundHalfEven_le a (d * 2 ^ ((a / d).log2 - 52))
  have hlt : a / d / 2 ^ ((a / d).log2 - 52) < 2 ^ 53 := by
    rw [Nat.div_lt_iff_lt_mul (Nat.two_pow_pos _), ← Nat.pow_add]
    exact Nat.lt_of_lt_of_le Nat.lt_log2_self (Nat.pow_le_pow_right (by decide) (by omega))
  rw [Nat.div_div_eq_div_mul] at hlt
  omega

theorem isCanonical_nearestTicks (a d : Nat) :
    IsCanonical (nearestTicks a d).1 (nearestTicks a d).2 := by
  have hle := significand_le a d
  have hlow := div_le_roundHalfEven a (d * 2 ^ ((a / d).log2 - 52))
  rw [← Nat.div_div_eq_div_mul] at hlow
  unfold nearestTicks IsCanonical
  dsimp only
  split
  · exact ⟨Nat.pow_lt_pow_right (by decide) (by decide), Or.inr (Nat.le_refl _)⟩
  · refine ⟨by omega, ?_⟩
    by_cases h : (a / d).log2 ≤ 52
    · left
      omega
    · right
      refine Nat.le_trans ?_ hlow
      rw [Nat.le_div_iff_mul_le (Nat.two_pow_pos _), ← Nat.pow_add,
        show 52 + ((a / d).log2 - 52) = (a / d).log2 by omega]
      exact Nat.log2_self_le (by rintro h0; rw [h0] at h; exact h (by decide))

/-! ## The interval of a double -/

/-- Membership depends on the quotient only. -/
theorem Rounding.contains_congr {r : Rounding} {a d a' d' : Nat} (hd : 0 < d) (hd' : 0 < d')
    (h : a * d' = a' * d) : r.contains a d = r.contains a' d' := by
  have hlow : r.low * d ≤ a ↔ r.low * d' ≤ a' := by
    rw [← Nat.mul_le_mul_right_iff hd', h, Nat.mul_right_comm, Nat.mul_le_mul_right_iff hd]
  have hhigh : a ≤ r.high * d ↔ a' ≤ r.high * d' := by
    rw [← Nat.mul_le_mul_right_iff hd', h, Nat.mul_right_comm, Nat.mul_le_mul_right_iff hd]
  have hlow' : r.low * d < a ↔ r.low * d' < a' := by
    rw [← Nat.mul_lt_mul_right hd', h, Nat.mul_right_comm, Nat.mul_lt_mul_right hd]
  have hhigh' : a < r.high * d ↔ a' < r.high * d' := by
    rw [← Nat.mul_lt_mul_right hd', h, Nat.mul_right_comm, Nat.mul_lt_mul_right hd]
  unfold Rounding.contains
  simp only [hlow, hhigh, hlow', hhigh']

/-- The interval of a double in units of its gap: half a gap to both sides, a quarter below a power
of two, and the ends only for an even significand. -/
theorem Rounding.bounds_of_contains {s k a d : Nat} (hs : 0 < s)
    (h : (Binary.rounding s k).contains (4 * a) d = true) :
    4 * (s * (2 ^ k * d)) ≤ 4 * a + (if s = 2 ^ 52 ∧ k ≠ 0 then 2 ^ k * d else 2 * (2 ^ k * d)) ∧
      4 * a ≤ 4 * (s * (2 ^ k * d)) + 2 * (2 ^ k * d) ∧
      (s % 2 = 1 → 4 * (s * (2 ^ k * d)) < 4 * a + 2 * (2 ^ k * d) ∧
        4 * a < 4 * (s * (2 ^ k * d)) + 2 * (2 ^ k * d)) := by
  have hvalue : 4 * s * twoTo k * d = 4 * (s * (2 ^ k * d)) := by rw [twoTo_eq]; ring
  have hgap : 2 * twoTo k * d = 2 * (2 ^ k * d) := by rw [twoTo_eq]; ring
  have hquarter : twoTo k * d = 2 ^ k * d := rfl
  have hbase : (s == twoTo 52 && k != 0) = true ↔ s = 2 ^ 52 ∧ k ≠ 0 := by
    simp [twoTo_eq]
  unfold Rounding.contains Binary.rounding at h
  dsimp only at h
  simp only [hbase, Nat.sub_mul, Nat.add_mul, hvalue, hgap] at h
  split at h <;> rename_i hclosed <;> rw [Bool.and_eq_true, decide_eq_true_iff,
    decide_eq_true_iff] at h <;> rw [beq_iff_eq] at hclosed
  · refine ⟨?_, h.2, fun ho => by omega⟩
    split at h <;> rename_i hb
    · rw [if_pos hb]
      rw [hquarter] at h
      omega
    · rw [if_neg hb]
      rw [hgap] at h
      omega
  · have hs : s ≠ 2 ^ 52 := by rintro rfl; exact hclosed (by decide)
    rw [if_neg fun hb => hs hb.1] at h ⊢
    rw [hgap] at h
    omega

theorem log2_sub_le {a d k : Nat} (hd : 0 < d) (h : a < 2 ^ 53 * (2 ^ k * d)) :
    (a / d).log2 - 52 ≤ k := by
  by_cases h0 : a / d = 0
  · rw [h0]
    exact Nat.zero_le k
  · have hlt : (a / d).log2 < 53 + k := by
      rw [Nat.log2_lt h0, Nat.div_lt_iff_lt_mul hd, Nat.pow_add, Nat.mul_assoc]
      exact h
    omega

theorem le_log2_sub {a d k : Nat} (hd : 0 < d) (h : 2 ^ 52 * (2 ^ k * d) ≤ a) :
    k ≤ (a / d).log2 - 52 := by
  have hdiv : 2 ^ (52 + k) ≤ a / d := by
    rw [Nat.le_div_iff_mul_le hd, Nat.pow_add, Nat.mul_assoc]
    exact h
  have hle : 52 + k ≤ (a / d).log2 :=
    (Nat.le_log2 (Nat.ne_of_gt (Nat.lt_of_lt_of_le (Nat.two_pow_pos _) hdiv))).2 hdiv
  omega

theorem log2_sub_eq {a d k : Nat} (hd : 0 < d) (hlow : 2 ^ 52 * (2 ^ k * d) ≤ a ∨ k = 0)
    (hhigh : a < 2 ^ 53 * (2 ^ k * d)) : (a / d).log2 - 52 = k := by
  refine Nat.le_antisymm (log2_sub_le hd hhigh) ?_
  rcases hlow with hlow | rfl
  · exact le_log2_sub hd hlow
  · exact Nat.zero_le _

/-- **A scale is exceeded** from halfway between its greatest double and the next power of two on.
The tie goes to the power, whose significand is even. -/
theorem lt_scale_iff {a d k : Nat} (hd : 0 < d) :
    k < (nearestTicks a d).2 ↔ (2 ^ 54 - 1) * (2 ^ k * d) ≤ 2 * a := by
  have hunit : 0 < 2 ^ k * d := Nat.mul_pos (Nat.two_pow_pos k) hd
  unfold nearestTicks
  dsimp only
  constructor
  · intro h
    by_contra hlt
    have hscale : (a / d).log2 - 52 ≤ k := log2_sub_le hd (by omega)
    split at h
    · rename_i hcarry
      have heq : (a / d).log2 - 52 = k := by omega
      have hround := two_mul_roundHalfEven_le a (d * 2 ^ k)
      rw [heq] at hcarry
      rw [hcarry, Nat.mul_comm d] at hround
      omega
    · omega
  · intro h
    by_cases hhigh : a < 2 ^ 53 * (2 ^ k * d)
    · have hround : roundHalfEven a (2 ^ k * d) = 2 ^ 53 :=
        roundHalfEven_eq hunit (by omega) (by omega) (fun ho => absurd ho (by decide))
      rw [log2_sub_eq hd (Or.inl (by omega)) hhigh, Nat.mul_comm d, hround, if_pos rfl]
      exact Nat.lt_succ_self k
    · have hnext : 2 ^ 52 * (2 ^ (k + 1) * d) ≤ a := by
        have htwice : 2 ^ (k + 1) * d = 2 * (2 ^ k * d) := by ring
        omega
      have hscale := le_log2_sub hd hnext
      split <;> dsimp only <;> omega

/-- **The interval of a double is what rounds to it.** -/
theorem nearestTicks_of_contains {s k a d : Nat} (hd : 0 < d) (hs : 0 < s)
    (hc : IsCanonical s k) (h : (Binary.rounding s k).contains (4 * a) d = true) :
    nearestTicks a d = (s, k) := by
  obtain ⟨hlow, hhigh, hodd⟩ := Rounding.bounds_of_contains hs h
  have hu : 0 < 2 ^ k * d := Nat.mul_pos (Nat.two_pow_pos _) hd
  have hmax : (s + 1) * (2 ^ k * d) ≤ 2 ^ 53 * (2 ^ k * d) := Nat.mul_le_mul_right _ hc.1
  rw [Nat.add_mul, Nat.one_mul] at hmax
  by_cases hscale : 2 ^ 52 * (2 ^ k * d) ≤ a ∨ k = 0
  · have hround : roundHalfEven a (2 ^ k * d) = s :=
      roundHalfEven_eq hu (by split at hlow <;> omega) (by omega) (fun ho => by
        have := hodd ho
        omega)
    unfold nearestTicks
    dsimp only
    rw [log2_sub_eq hd hscale (by omega), Nat.mul_comm d, hround,
      if_neg (Nat.ne_of_lt hc.1)]
  · -- Below a power of two the gaps are half as wide, and the value is carried up to it.
    obtain ⟨j, rfl⟩ : ∃ j, k = j + 1 := ⟨k - 1, by omega⟩
    have htwice : 2 ^ (j + 1) * d = 2 * (2 ^ j * d) := by ring
    have hs : s = 2 ^ 52 := by
      by_contra hne
      have hbase : (2 ^ 52 + 1) * (2 ^ (j + 1) * d) ≤ s * (2 ^ (j + 1) * d) :=
        Nat.mul_le_mul_right _ (by have := hc.2; omega)
      rw [if_neg fun hb => hne hb.1] at hlow
      omega
    subst hs
    rw [if_pos ⟨rfl, by omega⟩] at hlow
    rw [htwice] at hlow hhigh hscale
    have hround : roundHalfEven a (2 ^ j * d) = 2 ^ 53 :=
      roundHalfEven_eq (Nat.mul_pos (Nat.two_pow_pos _) hd) (by omega) (by omega)
        (fun ho => absurd ho (by decide))
    unfold nearestTicks
    dsimp only
    rw [log2_sub_eq (k := j) hd (Or.inl (by omega)) (by omega), Nat.mul_comm d, hround, if_pos rfl]

theorem rounding_bounds {s : Nat} (k : Nat) (hs : 0 < s) :
    0 < (Binary.rounding s k).low ∧
      (Binary.rounding s k).low < (Binary.rounding s k).value ∧
      (Binary.rounding s k).value < (Binary.rounding s k).high := by
  have hgap : 0 < twoTo k := Nat.two_pow_pos k
  have hle : twoTo k ≤ s * twoTo k := Nat.le_mul_of_pos_left _ hs
  unfold Binary.rounding
  dsimp only
  rw [Nat.mul_assoc]
  split <;> omega

theorem Rounding.contains_value {s : Nat} (k : Nat) {f : Nat} (hs : 0 < s) (hf : 0 < f) :
    (Binary.rounding s k).contains ((Binary.rounding s k).value * f) f = true := by
  obtain ⟨-, hlow, hhigh⟩ := rounding_bounds k hs
  have hlow := Nat.mul_lt_mul_of_pos_right hlow hf
  have hhigh := Nat.mul_lt_mul_of_pos_right hhigh hf
  unfold Rounding.contains
  split <;> rw [Bool.and_eq_true, decide_eq_true_iff, decide_eq_true_iff]
  · exact ⟨Nat.le_of_lt hlow, Nat.le_of_lt hhigh⟩
  · exact ⟨hlow, hhigh⟩

theorem Rounding.contains_zero {s : Nat} (k : Nat) {f : Nat} (hs : 0 < s) (hf : 0 < f) :
    (Binary.rounding s k).contains 0 f = false := by
  have hlow := Nat.mul_pos (rounding_bounds k hs).1 hf
  unfold Rounding.contains
  split <;> rw [Bool.and_eq_false_iff, decide_eq_false_iff_not] <;> left <;> omega

theorem nearestTicks_exact {s k : Nat} (hs : 0 < s) (hc : IsCanonical s k) :
    nearestTicks (s * 2 ^ k) 1 = (s, k) := by
  refine nearestTicks_of_contains Nat.one_pos hs hc ?_
  have hvalue : 4 * (s * 2 ^ k) = (Binary.rounding s k).value * 1 := by
    rw [Nat.mul_one, ← Nat.mul_assoc]
    rfl
  rw [hvalue]
  exact Rounding.contains_value k hs Nat.one_pos

end GlyphMath.Decimal
