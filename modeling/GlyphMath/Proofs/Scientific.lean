import GlyphMath.Formula.Lexer
import GlyphMath.Proofs.Double

/-!
# Reading decimal numbers

The model of doubles rounds a quotient from its integer part and two further bits, and reads small
numbers the short way, as one product or quotient of exact doubles.

* `extended`, `extended_shiftRight` -- a quotient rounded down with its two further bits, and that
  halving it keeps them right.
* `roundWithAccuracy_quotient` -- the rounding of the model is `nearestTicks`.
* `mul_finite`, `div_finite` -- products and quotients of doubles are rounded so.
* `ofScientific_eq` -- so are numbers in scientific form, the short way and the long way.
* `leastInfinite` -- halfway between the greatest finite double and the next power of two.

Principal results:

* `nearest_of_contains` -- a decimal number in the interval of a double is read as that double.
* `isInf_nearest_iff` -- a decimal number is read as infinite from `leastInfinite` on.
-/

set_option autoImplicit false

namespace GlyphMath.Decimal

open Float.Model Float.Model.UnpackedFloat

/-! ## Rounding with two further bits -/

/-- The quotient rounded down, its next bit, and whether anything is left after that. -/
def extended (a d : Nat) : ExtendedMantissa := ⟨a / d, 2 * a / d % 2 != 0, 2 * a % d != 0⟩

theorem two_mul_div (a d : Nat) (hd : 0 < d) :
    2 * a / d = 2 * (a / d) + 2 * (a % d) / d := by
  conv => lhs; rw [← Nat.div_add_mod a d]
  rw [Nat.mul_add, Nat.mul_left_comm, Nat.mul_add_div hd]

theorem double_of_lt {r d : Nat} (h : 2 * r < d) : 2 * r / d = 0 ∧ 2 * r % d = 2 * r :=
  ⟨Nat.div_eq_of_lt h, Nat.mod_eq_of_lt h⟩

theorem double_of_le {r d : Nat} (hr : r < d) (h : d ≤ 2 * r) :
    2 * r / d = 1 ∧ 2 * r % d = 2 * r - d := by
  have hdiv : 2 * r / d = 1 := Nat.div_eq_of_lt_le (by omega) (by omega)
  have := Nat.div_add_mod (2 * r) d
  rw [hdiv] at this
  omega

theorem extended_eq (a : Nat) {d : Nat} (hd : 0 < d) :
    ExtendedMantissa.ofMantissaAndAccuracy (a / d) (accuracyOfFraction (a % d) d) =
      extended a d := by
  have hr := Nat.mod_lt a hd
  have hdiv := two_mul_div a d hd
  have hmod : 2 * a % d = 2 * (a % d) % d := by rw [Nat.mul_mod_mod]
  unfold extended accuracyOfFraction
  rw [hdiv, hmod, Nat.mul_add_mod]
  generalize a % d = r at *
  split
  · subst r
    simp [ExtendedMantissa.ofMantissaAndAccuracy]
  · rcases Nat.lt_trichotomy (2 * r) d with h | h | h
    · rw [Nat.compare_eq_lt.2 h, (double_of_lt h).1, (double_of_lt h).2]
      simp [ExtendedMantissa.ofMantissaAndAccuracy]
      omega
    · rw [Nat.compare_eq_eq.2 h, (double_of_le hr (by omega)).1, (double_of_le hr (by omega)).2]
      simp [ExtendedMantissa.ofMantissaAndAccuracy]
      omega
    · rw [Nat.compare_eq_gt.2 h, (double_of_le hr (by omega)).1, (double_of_le hr (by omega)).2]
      simp [ExtendedMantissa.ofMantissaAndAccuracy]
      omega

theorem extended_roundedMantissa (a : Nat) {d : Nat} (hd : 0 < d) :
    (extended a d).roundedMantissa = roundHalfEven a d := by
  have hr := Nat.mod_lt a hd
  rw [← extended_eq a hd]
  unfold roundHalfEven accuracyOfFraction
  dsimp only
  split
  · rename_i h
    rw [h, if_pos (by omega)]
    rfl
  · rcases Nat.lt_trichotomy (2 * (a % d)) d with h | h | h
    · rw [Nat.compare_eq_lt.2 h, if_pos h]
      rfl
    · rw [Nat.compare_eq_eq.2 h, if_neg (by omega), if_neg (by omega)]
      show a / d + a / d % 2 = _
      split <;> rename_i heven <;> rw [beq_iff_eq] at heven <;> omega
    · rw [Nat.compare_eq_gt.2 h, if_neg (by omega), if_pos h]
      rfl

theorem extended_shiftRightOne (a : Nat) {d : Nat} (hd : 0 < d) :
    (extended a d).shiftRightOne = extended a (d * 2) := by
  have hdiv := two_mul_div a d hd
  have hhalf : 2 * a / (d * 2) = a / d := by
    rw [Nat.mul_comm, Nat.mul_div_mul_right _ _ (by decide)]
  have hrest : 2 * a % (d * 2) = a % d * 2 := by rw [Nat.mul_comm, Nat.mul_mod_mul_right]
  have hmod : 2 * a % d = 2 * (a % d) % d := by rw [Nat.mul_mod_mod]
  have hr := Nat.mod_lt a hd
  unfold extended ExtendedMantissa.shiftRightOne
  dsimp only
  rw [hhalf, hrest, Nat.div_div_eq_div_mul, hdiv, hmod, Nat.mul_add_mod]
  generalize a % d = r at *
  congr 1
  rcases Nat.lt_or_ge (2 * r) d with h | h
  · rw [(double_of_lt h).1, (double_of_lt h).2, Bool.eq_iff_iff]
    simp
  · rw [(double_of_le hr h).1, (double_of_le hr h).2, Bool.eq_iff_iff]
    simp
    omega

theorem extended_shiftRight (a : Nat) {d : Nat} (hd : 0 < d) (n : Nat) :
    extended a d >>> n = extended a (d * 2 ^ n) := by
  induction n with
  | zero => rw [Nat.pow_zero, Nat.mul_one]; rfl
  | succ n ih =>
    show (extended a d >>> n).shiftRightOne = _
    rw [ih, extended_shiftRightOne a (Nat.mul_pos hd (Nat.two_pow_pos _)), Nat.pow_succ,
      Nat.mul_assoc]

/-! ## Rounding to a double -/

theorem targetExponent_eq (m k : Nat) :
    Format.binary64.targetExponent (totalExponent m ((k : Int) - 1074)) =
      ((m.log2 + k - 52 : Nat) : Int) - 1074 := by
  simp only [Format.targetExponent, totalExponent, mantissaBits_eq, Format.minExponent]
  norm_num
  omega

theorem extended_mul (a d : Nat) {c : Nat} (hc : 0 < c) :
    extended (a * c) (d * c) = extended a d := by
  have hmod : (2 * a * c % (d * c) != 0) = (2 * a % d != 0) := by
    rw [Nat.mul_mod_mul_right, Bool.eq_iff_iff]
    simp
    omega
  unfold extended
  rw [← Nat.mul_assoc, Nat.mul_div_mul_right _ _ hc, Nat.mul_div_mul_right _ _ hc, hmod]

/-- The first shift keeps the quotient and moves it to the scale of the nearest double. -/
theorem shiftToTargetExponent_quotient (a : Nat) {d k : Nat} (hd : 0 < d)
    (hk : 52 ≤ (a / d).log2 ∨ k = 0) :
    shiftToTargetExponent Format.binary64 (a / d) ((k : Int) - 1074)
        (accuracyOfFraction (a % d) d) =
      (extended (a * 2 ^ k) (d * 2 ^ ((a / d).log2 + k - 52)),
        (((a / d).log2 + k - 52 : Nat) : Int) - 1074) := by
  unfold shiftToTargetExponent shiftToExponent
  rw [targetExponent_eq, extended_eq a hd]
  generalize ht : (a / d).log2 + k - 52 = t
  have hle : k ≤ t := by omega
  have hshift : ((t : Int) - 1074 - ((k : Int) - 1074)).toNat = t - k := by omega
  have hscale : d * 2 ^ t = d * 2 ^ (t - k) * 2 ^ k := by
    rw [Nat.mul_assoc, ← Nat.pow_add, Nat.sub_add_cancel hle]
  dsimp only
  rw [hshift, extended_shiftRight a hd, hscale, extended_mul _ _ (Nat.two_pow_pos k)]
  congr 1
  omega

/-- The second shift carries a significand that was rounded up to `2^53`. -/
theorem shiftToTargetExponent_exact {m : Nat} (k : Nat) (hm : m ≤ 2 ^ 53) :
    shiftToTargetExponent Format.binary64 m ((k : Int) - 1074) .exact =
      if m = 2 ^ 53 then (⟨2 ^ 52, false, false⟩, ((k + 1 : Nat) : Int) - 1074)
      else (⟨m, false, false⟩, (k : Int) - 1074) := by
  unfold shiftToTargetExponent shiftToExponent
  rw [targetExponent_eq]
  dsimp only
  split
  · subst m
    rw [Nat.log2_two_pow, show (((53 + k - 52 : Nat) : Int) - 1074 - ((k : Int) - 1074)).toNat = 1
      by omega]
    show (_, _) = (_, _)
    congr 1
    push_cast
    omega
  · have hlog : m.log2 ≤ 52 := by
      by_cases h0 : m = 0
      · rw [h0]
        decide
      · have := (Nat.log2_lt h0).2 (show m < 2 ^ 53 by omega)
        omega
    rw [show (((m.log2 + k - 52 : Nat) : Int) - 1074 - ((k : Int) - 1074)).toNat = 0 by omega]
    show (_, _) = (_, _)
    congr 1
    omega

theorem log2_mul_div {a d k : Nat} (hd : 0 < d) (h : a / d ≠ 0 ∨ k = 0) :
    (a * 2 ^ k / d).log2 = (a / d).log2 + k := by
  rcases h with h | rfl
  · have hpos : 0 < a * 2 ^ k / d := by
      refine Nat.lt_of_lt_of_le (Nat.pos_of_ne_zero h) (Nat.div_le_div_right ?_)
      exact Nat.le_mul_of_pos_right _ (Nat.two_pow_pos _)
    rw [Nat.log2_eq_iff (Nat.ne_of_gt hpos), Nat.le_div_iff_mul_le hd, Nat.div_lt_iff_lt_mul hd]
    have hlow := Nat.log2_self_le h
    have hhigh : a / d < 2 ^ ((a / d).log2 + 1) := Nat.lt_log2_self
    rw [Nat.le_div_iff_mul_le hd] at hlow
    rw [Nat.div_lt_iff_lt_mul hd] at hhigh
    rw [show (a / d).log2 + k + 1 = (a / d).log2 + 1 + k by omega, Nat.pow_add, Nat.pow_add,
      Nat.mul_right_comm, Nat.mul_right_comm _ _ d]
    exact ⟨Nat.mul_le_mul_right _ hlow, Nat.mul_lt_mul_of_pos_right hhigh (Nat.two_pow_pos _)⟩
  · rw [Nat.pow_zero, Nat.mul_one, Nat.add_zero]

/-- **The rounding of the model of doubles is the rounding to the nearest double**, given as many
bits of the quotient as a double has. -/
theorem roundWithAccuracy_quotient (a : Nat) {d k : Nat} (hd : 0 < d)
    (hk : 52 ≤ (a / d).log2 ∨ k = 0) :
    roundWithAccuracy Format.binary64 .positive (a / d) ((k : Int) - 1074)
        (accuracyOfFraction (a % d) d) = ofTicks (nearestTicks (a * 2 ^ k) d) := by
  have hlog : (a * 2 ^ k / d).log2 = (a / d).log2 + k := log2_mul_div hd (hk.imp_left fun h h0 => by
    rw [h0] at h
    exact absurd h (by decide))
  have hle := significand_le (a * 2 ^ k) d
  unfold roundWithAccuracy nearestTicks
  rw [shiftToTargetExponent_quotient a hd hk]
  dsimp only
  rw [extended_roundedMantissa _ (Nat.mul_pos hd (Nat.two_pow_pos _)), ← hlog]
  generalize roundHalfEven (a * 2 ^ k) (d * 2 ^ ((a * 2 ^ k / d).log2 - 52)) = m at *
  rw [shiftToTargetExponent_exact _ hle]
  by_cases hm : m = 2 ^ 53
  · rw [if_pos hm, if_pos hm]
    rfl
  · rw [if_neg hm, if_neg hm]
    rfl

/-! ## Products and quotients -/

theorem mul_finite {m n j : Nat} {e f : Int} (hm : 0 < m) (hn : 0 < n)
    (hj : e + f = (j : Int) - 1074) (hbits : 52 ≤ (m * n).log2 ∨ j = 0) :
    mul Format.binary64 (.finite .positive m e hm) (.finite .positive n f hn) =
      ofTicks (nearestTicks (m * n * 2 ^ j) 1) := by
  have h := roundWithAccuracy_quotient (m * n) (d := 1) (k := j) Nat.one_pos
    (by rwa [Nat.div_one])
  rw [Nat.div_one, Nat.mod_one] at h
  rw [← h, ← hj]
  rfl

theorem div_finite {m n j : Nat} {e f : Int} (hm : 0 < m) (hn : 0 < n)
    (hj : e - f = (j : Int) - 1074) :
    div Format.binary64 (.finite .positive m e hm) (.finite .positive n f hn) =
      ofTicks (nearestTicks (m * 2 ^ j) n) := by
  have htarget : Format.binary64.targetExponent (totalExponent m e - totalExponent n f) =
      max ((m.log2 : Int) - n.log2 + (j - 1074) - 53) (-1074) := by
    simp only [Format.targetExponent, totalExponent, mantissaBits_eq, Format.minExponent]
    norm_num
    omega
  show roundWithAccuracy Format.binary64 .positive (_ / n) _ (accuracyOfFraction (_ % n) n) = _
  rw [htarget, hj]
  obtain ⟨k, hk⟩ : ∃ k : Nat, min ((j : Int) - 1074)
      (max ((m.log2 : Int) - n.log2 + (j - 1074) - 53) (-1074)) = (k : Int) - 1074 :=
    ⟨(min ((j : Int) - 1074) (max ((m.log2 : Int) - n.log2 + (j - 1074) - 53) (-1074)) +
      1074).toNat, by omega⟩
  have hle : k ≤ j := by omega
  rw [hk, show ((j : Int) - 1074 - ((k : Int) - 1074)).toNat = j - k by omega, Nat.shiftLeft_eq,
    roundWithAccuracy_quotient _ hn, Nat.mul_assoc, ← Nat.pow_add, Nat.sub_add_cancel hle]
  by_cases hk0 : k = 0
  · exact Or.inr hk0
  · left
    have hfits : n * 2 ^ 52 ≤ m * 2 ^ (j - k) :=
      calc n * 2 ^ 52 ≤ 2 ^ (n.log2 + 1) * 2 ^ 52 :=
            Nat.mul_le_mul_right _ (Nat.le_of_lt Nat.lt_log2_self)
        _ = 2 ^ (n.log2 + 53) := by rw [← Nat.pow_add]
        _ ≤ 2 ^ (m.log2 + (j - k)) := Nat.pow_le_pow_right (by decide) (by omega)
        _ = 2 ^ m.log2 * 2 ^ (j - k) := Nat.pow_add _ _ _
        _ ≤ m * 2 ^ (j - k) := Nat.mul_le_mul_right _ (Nat.log2_self_le (Nat.ne_of_gt hm))
    have hdiv : 2 ^ 52 ≤ m * 2 ^ (j - k) / n := by
      rwa [Nat.le_div_iff_mul_le hn, Nat.mul_comm]
    exact (Nat.le_log2 (by omega)).2 hdiv

/-! ## Numbers in scientific form -/

/-- `m * 10^e`, or `m / 10^e` where the flag is set, as a quotient that counts ticks. -/
def scientificTicks (m : Nat) (small : Bool) (e : Nat) : Nat × Nat :=
  if small then (m * ticksPerOne, 10 ^ e) else (m * 10 ^ e * ticksPerOne, 1)

theorem ofScientific_natCast {m e : Nat} (hm : 0 < m) (he : e ≤ 2048) :
    UnpackedFloat.ofScientific Format.binary64 m (e : Int) =
      ofTicks (nearestTicks (m * 10 ^ e * ticksPerOne) 1) := by
  have hpos : 0 < m <<< 53 := by
    rw [Nat.shiftLeft_eq]
    exact Nat.mul_pos hm (Nat.two_pow_pos _)
  have hten : 0 < 10 ^ e := Nat.pow_pos (by decide)
  have hbits : 52 ≤ (m <<< 53 * 10 ^ e).log2 := by
    have hle : 2 ^ 52 ≤ m <<< 53 * 10 ^ e :=
      calc 2 ^ 52 ≤ 1 * 2 ^ 53 * 1 := by decide
        _ ≤ m * 2 ^ 53 * 10 ^ e := Nat.mul_le_mul (Nat.mul_le_mul_right _ hm) hten
        _ = m <<< 53 * 10 ^ e := by rw [Nat.shiftLeft_eq]
    exact (Nat.le_log2 (by omega)).2 hle
  have hmul := mul_finite (j := 1021) (e := -53) (f := 0) hpos hten (by decide) (Or.inl hbits)
  have hvalue : m <<< 53 * 10 ^ e * 2 ^ 1021 = m * 10 ^ e * ticksPerOne := by
    rw [Nat.shiftLeft_eq, ticksPerOne_eq, show 1074 = 53 + 1021 from rfl, Nat.pow_add,
      Nat.mul_right_comm m, Nat.mul_assoc (m * 10 ^ e)]
  have hlimit : (2 : Int) ^ Format.binary64.exponentBits = 2048 := by decide
  unfold UnpackedFloat.ofScientific
  rw [hlimit, dif_neg (Nat.ne_of_gt hm), if_neg (by omega), if_neg (by omega), if_pos (by omega),
    ← hvalue]
  exact hmul

theorem ofScientific_neg {m e : Nat} (hm : 0 < m) (he0 : 0 < e) (he : e ≤ 2048 + m.log2) :
    UnpackedFloat.ofScientific Format.binary64 m (-(e : Int)) =
      ofTicks (nearestTicks (m * ticksPerOne) (10 ^ e)) := by
  have hlimit : (2 : Int) ^ Format.binary64.exponentBits = 2048 := by decide
  unfold UnpackedFloat.ofScientific
  rw [hlimit, dif_neg (Nat.ne_of_gt hm), if_neg (by omega), if_neg (by omega), if_neg (by omega)]
  refine Eq.trans (div_finite (j := 1074) _ _ (by omega)) ?_
  rw [Int.neg_neg, Int.toNat_natCast, ← ticksPerOne_eq]

/-! ## Small numbers -/

/-- The doubles that have all their bits. -/
def IsFull (p : Nat × Nat) : Prop := 2 ^ 52 ≤ p.1 ∧ p.1 < 2 ^ 53 ∧ p.2 ≤ 2045

theorem IsFull.unpack {p : Nat × Nat} (hp : IsFull p) :
    (ofPair p).toModel.unpack =
      .finite .positive p.1 ((p.2 : Int) - 1074) (Nat.lt_of_lt_of_le (Nat.two_pow_pos 52) hp.1) := by
  rw [unpack_ofPair ⟨hp.2.1, Or.inr hp.1⟩ hp.2.2, ofTicks_pos]

theorem ofPair_mul {p q : Nat × Nat} (hp : IsFull p) (hq : IsFull q) (h : 1074 ≤ p.2 + q.2) :
    ofPair p * ofPair q =
      ofPair (nearestTicks (p.1 * q.1 * 2 ^ (p.2 + q.2 - 1074)) 1) := by
  have hbits : 52 ≤ (p.1 * q.1).log2 := by
    have hle : 2 ^ 52 ≤ p.1 * q.1 :=
      calc 2 ^ 52 ≤ 2 ^ 52 * 2 ^ 52 := by decide
        _ ≤ p.1 * q.1 := Nat.mul_le_mul hp.1 hq.1
    exact (Nat.le_log2 (by omega)).2 hle
  show Float.ofModel (.pack (UnpackedFloat.mul Format.binary64 (ofPair p).toModel.unpack
    (ofPair q).toModel.unpack)) = _
  rw [hp.unpack, hq.unpack, mul_finite (j := p.2 + q.2 - 1074) _ _ (by omega) (Or.inl hbits)]
  rfl

theorem ofPair_div {p q : Nat × Nat} (hp : IsFull p) (hq : IsFull q) (h : q.2 ≤ p.2 + 1074) :
    ofPair p / ofPair q =
      ofPair (nearestTicks (p.1 * 2 ^ (p.2 + 1074 - q.2)) q.1) := by
  show Float.ofModel (.pack (UnpackedFloat.div Format.binary64 (ofPair p).toModel.unpack
    (ofPair q).toModel.unpack)) = _
  rw [hp.unpack, hq.unpack, div_finite (j := p.2 + 1074 - q.2) _ _ (by omega)]
  rfl

/-- The pair of a natural number that a double has all bits of. -/
structure IsExact (n : Nat) (p : Nat × Nat) : Prop where
  full : IsFull p
  value : p.1 * 2 ^ p.2 = n * ticksPerOne
  low : 1022 ≤ p.2
  high : p.2 ≤ 1200

theorem isExact_of_lt {m : Nat} (hm : 0 < m) (hlt : m < 2 ^ 53) :
    IsExact m (m * 2 ^ (52 - m.log2), 1022 + m.log2) := by
  have hlog : m.log2 < 53 := (Nat.log2_lt (Nat.ne_of_gt hm)).2 hlt
  have hlow := Nat.log2_self_le (Nat.ne_of_gt hm)
  have hhigh : m < 2 ^ (m.log2 + 1) := Nat.lt_log2_self
  generalize m.log2 = l at *
  refine ⟨⟨?_, ?_, by dsimp only; omega⟩, ?_, by dsimp only; omega, by dsimp only; omega⟩
  · calc 2 ^ 52 = 2 ^ l * 2 ^ (52 - l) := by
          rw [← Nat.pow_add, Nat.add_sub_cancel' (by omega)]
      _ ≤ m * 2 ^ (52 - l) := Nat.mul_le_mul_right _ hlow
  · calc m * 2 ^ (52 - l) < 2 ^ (l + 1) * 2 ^ (52 - l) :=
          Nat.mul_lt_mul_of_pos_right hhigh (Nat.two_pow_pos _)
      _ = 2 ^ 53 := by rw [← Nat.pow_add, show l + 1 + (52 - l) = 53 by omega]
  · show m * 2 ^ (52 - l) * 2 ^ (1022 + l) = _
    rw [Nat.mul_assoc, ← Nat.pow_add, show 52 - l + (1022 + l) = 1074 by omega, ← ticksPerOne_eq]

theorem toFloat_eq {m : Nat} (hm : 0 < m) (hlt : m < 2 ^ 53) :
    m.toUInt64.toFloat = ofPair (m * 2 ^ (52 - m.log2), 1022 + m.log2) := by
  have hexact := isExact_of_lt hm hlt
  have hlog : m.log2 < 53 := (Nat.log2_lt (Nat.ne_of_gt hm)).2 hlt
  have hn : m.toUInt64.toNat = m := by
    show m % 2 ^ 64 = m
    omega
  have htarget : Format.binary64.targetExponent (totalExponent m 0) = (m.log2 : Int) - 52 := by
    simp only [Format.targetExponent, totalExponent, mantissaBits_eq, Format.minExponent]
    norm_num
    omega
  have hround := roundWithAccuracy_quotient (m * 2 ^ (52 - m.log2)) (k := 1022 + m.log2)
    Nat.one_pos (by
      rw [Nat.div_one]
      have hfull : 2 ^ 52 ≤ m * 2 ^ (52 - m.log2) := hexact.full.1
      exact Or.inl ((Nat.le_log2 (by omega)).2 hfull))
  rw [nearestTicks_exact (Nat.lt_of_lt_of_le (Nat.two_pow_pos 52) hexact.full.1)
    ⟨hexact.full.2.1, Or.inr hexact.full.1⟩, Nat.div_one, Nat.mod_one] at hround
  show Float.ofModel (.pack (UnpackedFloat.normalize Format.binary64 (m.toUInt64.toNat : Int) 0
    .positive)) = _
  unfold UnpackedFloat.normalize ofPair
  rw [hn, Int.compare_eq_gt.2 (by omega)]
  dsimp only
  rw [← hround]
  unfold UnpackedFloat.round decreaseExponent
  dsimp only
  rw [Int.toNat_natCast, htarget, Nat.shiftLeft_eq,
    show (0 - ((m.log2 : Int) - 52)).toNat = 52 - m.log2 by omega,
    show (0 : Int) - ((52 - m.log2 : Nat) : Int) = ((1022 + m.log2 : Nat) : Int) - 1074 by omega]
  rfl

instance (p : Nat × Nat) : Decidable (IsFull p) :=
  inferInstanceAs (Decidable (_ ∧ _ ∧ _))

/-- The table of powers of ten is exact. -/
theorem powersOfTen_eq : ∀ i : Fin Float.exactlyRepresentablePowersOfTen.size,
    let p := nearestTicks (10 ^ i.val * ticksPerOne) 1
    Float.exactlyRepresentablePowersOfTen[i] = ofPair p ∧ IsFull p ∧
      p.1 * 2 ^ p.2 = 10 ^ i.val * ticksPerOne ∧ 1022 ≤ p.2 ∧ p.2 ≤ 1200 := by
  decide +kernel

theorem powerOfTen_eq {e : Nat} (he : e < Float.exactlyRepresentablePowersOfTen.size) :
    ∃ p, Float.exactlyRepresentablePowersOfTen[e] = ofPair p ∧ IsExact (10 ^ e) p := by
  obtain ⟨heq, hfull, hvalue, hlow, hhigh⟩ := powersOfTen_eq ⟨e, he⟩
  exact ⟨_, heq, hfull, hvalue, hlow, hhigh⟩

/-- The short way through exact doubles gives the nearest double, as the long way does. -/
theorem ofScientific_short {m e : Nat} (small : Bool) {p q : Nat × Nat} (hp : IsExact (10 ^ e) p)
    (hq : IsExact m q) :
    (if small then ofPair q / ofPair p else ofPair q * ofPair p) =
      ofPair (nearestTicks (scientificTicks m small e).1 (scientificTicks m small e).2) := by
  have hlow := hp.low
  have hlow' := hq.low
  have hhigh := hp.high
  have hten : 0 < 10 ^ e := Nat.pow_pos (by decide)
  have hpos : 0 < p.1 := Nat.lt_of_lt_of_le (Nat.two_pow_pos 52) hp.full.1
  have hpv := hp.value
  have hqv := hq.value
  cases small with
  | true =>
    rw [if_pos rfl, ofPair_div hq.full hp.full (by omega)]
    refine congrArg ofPair (nearestTicks_congr hpos hten ?_)
    refine Nat.eq_of_mul_eq_mul_right (Nat.two_pow_pos p.2) ?_
    show q.1 * 2 ^ (q.2 + 1074 - p.2) * 10 ^ e * 2 ^ p.2 = m * ticksPerOne * p.1 * 2 ^ p.2
    calc q.1 * 2 ^ (q.2 + 1074 - p.2) * 10 ^ e * 2 ^ p.2
        = q.1 * (2 ^ (q.2 + 1074 - p.2) * 2 ^ p.2) * 10 ^ e := by ring
      _ = q.1 * 2 ^ q.2 * (10 ^ e * ticksPerOne) := by
          rw [← Nat.pow_add, Nat.sub_add_cancel (by omega), Nat.pow_add, ← ticksPerOne_eq]
          ring
      _ = m * ticksPerOne * p.1 * 2 ^ p.2 := by rw [hqv, ← hpv, Nat.mul_assoc _ p.1]
  | false =>
    rw [if_neg (by decide), ofPair_mul hq.full hp.full (by omega)]
    refine congrArg ofPair (congrArg (nearestTicks · 1) ?_)
    refine Nat.eq_of_mul_eq_mul_right (Nat.two_pow_pos 1074 : 0 < ticksPerOne) ?_
    show q.1 * p.1 * 2 ^ (q.2 + p.2 - 1074) * ticksPerOne = m * 10 ^ e * ticksPerOne * ticksPerOne
    calc q.1 * p.1 * 2 ^ (q.2 + p.2 - 1074) * ticksPerOne
        = q.1 * 2 ^ q.2 * (p.1 * 2 ^ p.2) := by
          rw [ticksPerOne_eq, Nat.mul_assoc, ← Nat.pow_add, Nat.sub_add_cancel (by omega),
            Nat.pow_add, Nat.mul_mul_mul_comm]
      _ = m * 10 ^ e * ticksPerOne * ticksPerOne := by
          rw [hqv, hpv, Nat.mul_mul_mul_comm, Nat.mul_assoc (m * 10 ^ e)]

/-- **Reading a number in scientific form gives the double nearest to it.**  Exponents far outside
the range of doubles are left out. -/
theorem ofScientific_eq {m e : Nat} (small : Bool) (hm : 0 < m) (hlarge : small = false → e ≤ 2048)
    (hsmall : small = true → e ≤ 2048 + m.log2) :
    Float.ofScientific m small e =
      ofPair (nearestTicks (scientificTicks m small e).1 (scientificTicks m small e).2) := by
  unfold Float.ofScientific
  split
  · rename_i h
    have he : e < Float.exactlyRepresentablePowersOfTen.size := Nat.lt_succ_of_le h.2
    obtain ⟨p, hp, hexact⟩ := powerOfTen_eq he
    rw [← ofScientific_short small hexact (isExact_of_lt hm h.1), ← toFloat_eq hm h.1, ← hp]
  · dsimp only
    refine congrArg (fun u => Float.ofModel (.pack u)) ?_
    cases small with
    | true =>
      show UnpackedFloat.ofScientific Format.binary64 m (Int.negOfNat e) = _
      cases e with
      | zero =>
        rw [scientificTicks, if_pos rfl, Nat.pow_zero]
        have h := ofScientific_natCast (e := 0) hm (by decide)
        rwa [Nat.pow_zero, Nat.mul_one] at h
      | succ e => exact ofScientific_neg hm (Nat.succ_pos e) (hsmall rfl)
    | false => exact ofScientific_natCast hm (hlarge rfl)

/-! ## The nearest double -/

/-- `n * 10^e` as a quotient that counts ticks. -/
def decimalTicks (n : Nat) (e : Int) : Nat × Nat :=
  (n * 10 ^ e.toNat * ticksPerOne, 10 ^ (-e).toNat)

theorem lt_tenTo_length (n : Nat) : n < 10 ^ (Nat.toDigits 10 n).length :=
  (Nat.length_toDigits_le_iff (by decide) Nat.length_toDigits_pos).1 (Nat.le_refl _)

theorem tenTo_length_le {n : Nat} (hn : 0 < n) : 10 ^ ((Nat.toDigits 10 n).length - 1) ≤ n := by
  by_contra h
  by_cases hone : (Nat.toDigits 10 n).length - 1 = 0
  · rw [hone] at h
    exact h hn
  · have := (Nat.length_toDigits_le_iff (by decide) (by omega)).2 (Nat.lt_of_not_le h)
    omega

theorem length_toDigits_le_log2 (n : Nat) : (Nat.toDigits 10 n).length ≤ n.log2 + 1 :=
  (Nat.length_toDigits_le_iff (by decide) (Nat.succ_pos _)).2
    (Nat.lt_of_lt_of_le Nat.lt_log2_self (Nat.pow_le_pow_left (by decide) _))

theorem nearest_eq {n : Nat} {e : Int} (hn : 0 < n)
    (hhigh : ((Nat.toDigits 10 n).length : Int) + e ≤ 400)
    (hlow : -400 ≤ ((Nat.toDigits 10 n).length : Int) + e) :
    nearest n e = ofPair (nearestTicks (decimalTicks n e).1 (decimalTicks n e).2) := by
  have hlog := length_toDigits_le_log2 n
  unfold nearest
  rw [if_neg (Nat.ne_of_gt hn)]
  dsimp only
  rw [if_neg (by omega), if_neg (by omega)]
  split
  · rename_i he
    rw [ofScientific_eq false hn (fun _ => by omega) (fun h => by cases h)]
    unfold scientificTicks decimalTicks
    rw [if_neg (by decide), show (-e).toNat = 0 by omega, Nat.pow_zero]
  · rename_i he
    rw [ofScientific_eq true hn (fun h => by cases h) (fun _ => by omega)]
    unfold scientificTicks decimalTicks
    rw [if_pos rfl, show e.toNat = 0 by omega, Nat.pow_zero, Nat.mul_one]

theorem nearest_of_long {n : Nat} {e : Int} (hn : 0 < n)
    (h : 400 < ((Nat.toDigits 10 n).length : Int) + e) : nearest n e = infinity := by
  unfold nearest
  rw [if_neg (Nat.ne_of_gt hn)]
  dsimp only
  rw [if_pos h]

theorem nearest_of_short {n : Nat} {e : Int}
    (h : ((Nat.toDigits 10 n).length : Int) + e < -400) : nearest n e = 0.0 := by
  unfold nearest
  split
  · rfl
  · dsimp only
    rw [if_neg (by omega), if_pos h]

/-- Every number that is read is a finite double without a sign, or the positive infinity. -/
theorem ofFloat_nearest (n : Nat) (e : Int) :
    (∃ s k, Binary.ofFloat (nearest n e) = .finite false s k) ∨
      Binary.ofFloat (nearest n e) = .infinite false := by
  have hzero : Binary.ofFloat 0.0 = .finite false 0 0 := by decide +kernel
  have hinfinity : Binary.ofFloat infinity = .infinite false := by decide +kernel
  rcases Nat.eq_zero_or_pos n with rfl | hn
  · rw [nearest, if_pos rfl]
    exact Or.inl ⟨0, 0, hzero⟩
  · by_cases hhigh : ((Nat.toDigits 10 n).length : Int) + e ≤ 400
    · by_cases hlow : -400 ≤ ((Nat.toDigits 10 n).length : Int) + e
      · rw [nearest_eq hn hhigh hlow, ofFloat_ofPair (isCanonical_nearestTicks _ _)]
        split
        · exact Or.inl ⟨_, _, rfl⟩
        · exact Or.inr rfl
      · rw [nearest_of_short (by omega)]
        exact Or.inl ⟨0, 0, hzero⟩
    · rw [nearest_of_long hn (by omega)]
      exact Or.inr hinfinity

theorem length_le_of_lt {n : Nat} {e : Int} (hn : 0 < n)
    (h : (decimalTicks n e).1 < 2 ^ 2098 * (decimalTicks n e).2) :
    ((Nat.toDigits 10 n).length : Int) + e ≤ 400 := by
  have hle := tenTo_length_le hn
  have hlength : 0 < (Nat.toDigits 10 n).length := Nat.length_toDigits_pos
  by_contra hgt
  have hlarge : 10 ^ 400 * 10 ^ (-e).toNat ≤ n * 10 ^ e.toNat :=
    calc 10 ^ 400 * 10 ^ (-e).toNat = 10 ^ (400 + (-e).toNat) := (Nat.pow_add _ _ _).symm
      _ ≤ 10 ^ ((Nat.toDigits 10 n).length - 1 + e.toNat) :=
          Nat.pow_le_pow_right (by decide) (by omega)
      _ = 10 ^ ((Nat.toDigits 10 n).length - 1) * 10 ^ e.toNat := Nat.pow_add _ _ _
      _ ≤ n * 10 ^ e.toNat := Nat.mul_le_mul_right _ hle
  refine Nat.lt_irrefl _ (Nat.lt_of_le_of_lt ?_ h)
  calc 2 ^ 2098 * 10 ^ (-e).toNat ≤ 10 ^ 400 * ticksPerOne * 10 ^ (-e).toNat :=
        Nat.mul_le_mul_right _ (by decide +kernel)
    _ = 10 ^ 400 * 10 ^ (-e).toNat * ticksPerOne := Nat.mul_right_comm _ _ _
    _ ≤ n * 10 ^ e.toNat * ticksPerOne := Nat.mul_le_mul_right _ hlarge

theorem le_length_of_le {n : Nat} {e : Int} (hn : 0 < n)
    (h : (decimalTicks n e).2 ≤ 2 * (decimalTicks n e).1) :
    -400 ≤ ((Nat.toDigits 10 n).length : Int) + e := by
  have hlt := lt_tenTo_length n
  by_contra hgt
  have hsmall : n * 10 ^ e.toNat * 10 ^ 400 ≤ 10 ^ (-e).toNat :=
    calc n * 10 ^ e.toNat * 10 ^ 400
        ≤ 10 ^ (Nat.toDigits 10 n).length * 10 ^ e.toNat * 10 ^ 400 :=
          Nat.mul_le_mul_right _ (Nat.mul_le_mul_right _ (Nat.le_of_lt hlt))
      _ = 10 ^ ((Nat.toDigits 10 n).length + e.toNat + 400) := by
          rw [Nat.pow_add, Nat.pow_add]
      _ ≤ 10 ^ (-e).toNat := Nat.pow_le_pow_right (by decide) (by omega)
  have hpos : 0 < n * 10 ^ e.toNat := Nat.mul_pos hn (Nat.pow_pos (by decide))
  refine Nat.lt_irrefl _ (Nat.lt_of_le_of_lt (Nat.le_trans hsmall h) ?_)
  calc 2 * (n * 10 ^ e.toNat * ticksPerOne) = n * 10 ^ e.toNat * (2 * ticksPerOne) :=
        Nat.mul_left_comm _ _ _
    _ < n * 10 ^ e.toNat * 10 ^ 400 := Nat.mul_lt_mul_of_pos_left (by decide +kernel) hpos

/-- **A decimal number in the interval of a double is read as that double.** -/
theorem nearest_of_contains {n : Nat} {e : Int} {s k : Nat} (hn : 0 < n) (hs : 0 < s)
    (hc : IsCanonical s k) (hk : k ≤ 2045)
    (h : (Binary.rounding s k).contains (4 * (decimalTicks n e).1) (decimalTicks n e).2 = true) :
    nearest n e = ofPair (s, k) := by
  have hd : 0 < (decimalTicks n e).2 := Nat.pow_pos (by decide)
  obtain ⟨hlow, hhigh, -⟩ := Rounding.bounds_of_contains hs h
  have hgap : (decimalTicks n e).2 ≤ 2 ^ k * (decimalTicks n e).2 :=
    Nat.le_mul_of_pos_left _ (Nat.two_pow_pos k)
  have hsmall : 2 ^ k * (decimalTicks n e).2 ≤ s * (2 ^ k * (decimalTicks n e).2) :=
    Nat.le_mul_of_pos_left _ hs
  have hlarge : (s + 1) * (2 ^ k * (decimalTicks n e).2) ≤ 2 ^ 2098 * (decimalTicks n e).2 :=
    calc (s + 1) * (2 ^ k * (decimalTicks n e).2)
        ≤ 2 ^ 53 * (2 ^ 2045 * (decimalTicks n e).2) :=
          Nat.mul_le_mul hc.1
            (Nat.mul_le_mul_right _ (Nat.pow_le_pow_right (by decide) hk))
      _ = 2 ^ 2098 * (decimalTicks n e).2 := by rw [← Nat.mul_assoc, ← Nat.pow_add]
  rw [Nat.add_mul, Nat.one_mul] at hlarge
  rw [nearest_eq hn (length_le_of_lt hn (by omega)) (le_length_of_le hn ?_),
    nearestTicks_of_contains hd hs hc h]
  split at hlow <;> omega

/-! ## Out of range -/

/-- Halfway between the greatest finite double and the next power of two. -/
def leastInfinite : Nat := (2 ^ 54 - 1) * 2 ^ 970

theorem leastInfinite_le_iff {n : Nat} {e : Int} :
    leastInfinite * 10 ^ (-e).toNat ≤ n * 10 ^ e.toNat ↔
      (2 ^ 54 - 1) * (2 ^ 2045 * (decimalTicks n e).2) ≤ 2 * (decimalTicks n e).1 := by
  have hleft : (2 ^ 54 - 1) * (2 ^ 2045 * (decimalTicks n e).2) =
      leastInfinite * 10 ^ (-e).toNat * 2 ^ 1075 := by
    have hpow : 2 ^ 2045 = 2 ^ 970 * 2 ^ 1075 := by rw [← Nat.pow_add]
    rw [decimalTicks, leastInfinite, hpow]
    ring
  have hright : 2 * (decimalTicks n e).1 = n * 10 ^ e.toNat * 2 ^ 1075 := by
    rw [decimalTicks, ticksPerOne_eq, Nat.pow_succ 2 1074]
    ring
  rw [hleft, hright, Nat.mul_le_mul_right_iff (Nat.two_pow_pos 1075)]

theorem isInf_ofPair_nearestTicks (a : Nat) {d : Nat} (hd : 0 < d) :
    (ofPair (nearestTicks a d)).isInf = true ↔ (2 ^ 54 - 1) * (2 ^ 2045 * d) ≤ 2 * a := by
  have hdouble := ofFloat_ofPair (isCanonical_nearestTicks a d)
  rw [← lt_scale_iff hd]
  split at hdouble
  · rename_i hscale
    rw [isInf_of_finite hdouble]
    exact iff_of_false Bool.false_ne_true (Nat.not_lt.2 hscale)
  · rename_i hscale
    exact iff_of_true (isInf_of_infinite hdouble) (Nat.lt_of_not_le hscale)

/-- **A decimal number is read as infinite** from halfway between the greatest finite double and the
next power of two on. -/
theorem isInf_nearest_iff (n : Nat) (e : Int) :
    (nearest n e).isInf = true ↔ leastInfinite * 10 ^ (-e).toNat ≤ n * 10 ^ e.toNat := by
  have hd : 0 < (decimalTicks n e).2 := Nat.pow_pos (by decide)
  have hunit : (decimalTicks n e).2 ≤ (2 ^ 54 - 1) * (2 ^ 2045 * (decimalTicks n e).2) :=
    Nat.le_trans (Nat.le_mul_of_pos_left _ (Nat.two_pow_pos 2045))
      (Nat.le_mul_of_pos_left _ (by decide))
  have hzero : (0.0 : Float).isInf = false := by decide +kernel
  have hinfinity : infinity.isInf = true := by decide +kernel
  rw [leastInfinite_le_iff]
  rcases Nat.eq_zero_or_pos n with rfl | hn
  · have hnone : (decimalTicks 0 e).1 = 0 := by rw [decimalTicks, Nat.zero_mul, Nat.zero_mul]
    rw [nearest, if_pos rfl, hzero, hnone]
    exact iff_of_false Bool.false_ne_true (Nat.not_le.2 (Nat.lt_of_lt_of_le hd hunit))
  · by_cases hhigh : ((Nat.toDigits 10 n).length : Int) + e ≤ 400
    · by_cases hlow : -400 ≤ ((Nat.toDigits 10 n).length : Int) + e
      · rw [nearest_eq hn hhigh hlow, isInf_ofPair_nearestTicks _ hd]
      · -- less than half a tick
        have hsmall := mt (le_length_of_le hn) hlow
        rw [nearest_of_short (by omega), hzero]
        exact iff_of_false Bool.false_ne_true fun h => hsmall (Nat.le_trans hunit h)
    · have hlarge : 2 ^ 2098 * (decimalTicks n e).2 ≤ (decimalTicks n e).1 :=
        Nat.le_of_not_lt (mt (length_le_of_lt hn) hhigh)
      have hbound : (2 ^ 54 - 1) * (2 ^ 2045 * (decimalTicks n e).2) ≤ 2 * (decimalTicks n e).1 :=
        calc (2 ^ 54 - 1) * (2 ^ 2045 * (decimalTicks n e).2)
            ≤ 2 ^ 54 * (2 ^ 2045 * (decimalTicks n e).2) :=
              Nat.mul_le_mul_right _ (Nat.sub_le _ _)
          _ = 2 * (2 ^ 2098 * (decimalTicks n e).2) := by
              rw [← Nat.mul_assoc, ← Nat.mul_assoc, ← Nat.pow_add, ← Nat.pow_succ']
          _ ≤ 2 * (decimalTicks n e).1 := Nat.mul_le_mul_left 2 hlarge
      rw [nearest_of_long hn (by omega)]
      exact iff_of_true hinfinity hbound

end GlyphMath.Decimal
