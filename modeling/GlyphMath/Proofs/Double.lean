import GlyphMath.Proofs.Rounding

/-!
# Bits of doubles

The model of doubles unpacks a bit pattern into a sign, a mantissa and an exponent of two; `Binary`
reads the same fields off as a significand and a scale in ticks.

* `Binary.unpacked`, `unpack_toModel` -- both agree for every double.
* `ofPair` -- the double of a significand and a scale.
* `ofPair_toBits`, `ofFloat_ofPair` -- its bits, and that it is an infinity beyond the range.

Principal result:

* `eq_ofPair` -- a finite double without a sign is the double of its significand and scale.
-/

set_option autoImplicit false

namespace GlyphMath.Decimal

open Float.Model Float.Model.UnpackedFloat

/-! ## The three fields of the bits -/

/-- The bits of a significand, the leading one included. -/
theorem mantissaBits_eq : Format.binary64.mantissaBits = 53 := rfl

theorem toNat_packComponents (s : Sign) (e : BitVec 11) (m : BitVec 52) :
    BitVec.toNat (packComponents Format.binary64 s e m) =
      s.toBitVec.toNat * 2 ^ 63 + e.toNat * 2 ^ 52 + m.toNat := by
  show (s.toBitVec ++ e ++ m).toNat = _
  rw [BitVec.toNat_append, ← Nat.shiftLeft_add_eq_or_of_lt m.isLt, BitVec.toNat_append,
    ← Nat.shiftLeft_add_eq_or_of_lt e.isLt, Nat.shiftLeft_eq, Nat.shiftLeft_eq]
  ring

theorem toNat_unpackMantissa (b : BitVec 64) :
    (@unpackMantissa Format.binary64 b).toNat = b.toNat % 2 ^ 52 := by
  show (b.toNat >>> 0) % 2 ^ 52 = _
  rw [Nat.shiftRight_zero]

theorem toNat_unpackExponent (b : BitVec 64) :
    (@unpackExponent Format.binary64 b).toNat = b.toNat / 2 ^ 52 % 2 ^ 11 := by
  show (b.toNat >>> 52) % 2 ^ 11 = _
  rw [Nat.shiftRight_eq_div_pow]

theorem toNat_unpackSign (b : BitVec 64) :
    (@unpackSign Format.binary64 b).toNat = b.toNat / 2 ^ 63 := by
  have := b.isLt
  show (b.toNat >>> 63) % 2 ^ 1 = _
  rw [Nat.shiftRight_eq_div_pow, Nat.mod_eq_of_lt (by omega)]

/-- What a double denotes, as the model of doubles unpacks it. -/
def Binary.unpacked : Binary → UnpackedFloat
  | .nan => .notANumber
  | .infinite negative => .infinity (if negative then .negative else .positive)
  | .finite negative significand scale =>
    if h : significand = 0 then .zero (if negative then .negative else .positive)
    else .finite (if negative then .negative else .positive) significand (scale - 1074)
      (Nat.pos_of_ne_zero h)

theorem append_one (m : BitVec 52) : (1#1 ++ m).toNat = 2 ^ 52 + m.toNat := by
  rw [BitVec.toNat_append, ← Nat.shiftLeft_add_eq_or_of_lt m.isLt]
  rfl

theorem unpack_toModel (x : Float) : x.toModel.unpack = (Binary.ofFloat x).unpacked := by
  have hlt := x.toBits.toBitVec.isLt
  have hfraction := toNat_unpackMantissa x.toBits.toBitVec
  have hfield := toNat_unpackExponent x.toBits.toBitVec
  have hsign := toNat_unpackSign x.toBits.toBitVec
  have hs : Sign.ofBitVec (@unpackSign Format.binary64 x.toBits.toBitVec) =
      if isSignSet x then .negative else .positive := by
    have hiff : @unpackSign Format.binary64 x.toBits.toBitVec = 0#1 ↔ ¬ isSignSet x = true := by
      unfold isSignSet
      rw [← BitVec.toNat_inj, hsign, twoTo_eq, decide_eq_true_eq]
      show x.toBits.toNat / 2 ^ 63 = 0 ↔ _
      omega
    unfold Sign.ofBitVec
    simp only [hiff]
    split <;> simp_all
  have hones : @unpackExponent Format.binary64 x.toBits.toBitVec = -1#_ ↔
      x.toBits.toNat / twoTo 52 % twoTo 11 = 2047 := by
    rw [← BitVec.toNat_inj, hfield]
    exact Iff.rfl
  have hzeros : @unpackExponent Format.binary64 x.toBits.toBitVec = 0#_ ↔
      x.toBits.toNat / twoTo 52 % twoTo 11 = 0 := by
    rw [← BitVec.toNat_inj, hfield]
    exact Iff.rfl
  have hzero : @unpackMantissa Format.binary64 x.toBits.toBitVec = 0#_ ↔
      x.toBits.toNat % twoTo 52 = 0 := by
    rw [← BitVec.toNat_inj, hfraction]
    exact Iff.rfl
  show UnpackedFloat.unpack Format.binary64 x.toBits.toBitVec = _
  unfold UnpackedFloat.unpack Binary.ofFloat
  dsimp only
  rw [hs]
  by_cases hone : x.toBits.toNat / twoTo 52 % twoTo 11 = 2047
  · rw [if_pos (hones.2 hone), if_pos (beq_iff_eq.2 hone)]
    by_cases hz : x.toBits.toNat % twoTo 52 = 0
    · rw [if_pos (hzero.2 hz), if_pos (beq_iff_eq.2 hz)]
      rfl
    · rw [if_neg (mt hzero.1 hz), if_neg (mt beq_iff_eq.1 hz)]
      rfl
  · rw [if_neg (mt hones.1 hone), if_neg (mt beq_iff_eq.1 hone)]
    by_cases h0 : x.toBits.toNat / twoTo 52 % twoTo 11 = 0
    · rw [if_pos (hzeros.2 h0), if_pos (beq_iff_eq.2 h0)]
      unfold Binary.unpacked
      dsimp only
      by_cases hz : x.toBits.toNat % twoTo 52 = 0
      · rw [dif_pos (hzero.2 hz), dif_pos hz]
      · rw [dif_neg (mt hzero.1 hz), dif_neg hz, UnpackedFloat.finite.injEq]
        refine ⟨rfl, hfraction, ?_⟩
        have hbits : x.toBits.toBitVec.toNat / 2 ^ 52 % 2 ^ 11 = 0 := h0
        rw [hfield, hbits]
        rfl
    · rw [if_neg (mt hzeros.1 h0), if_neg (mt beq_iff_eq.1 h0)]
      have hbits : x.toBits.toBitVec.toNat / 2 ^ 52 % 2 ^ 11 ≠ 0 := h0
      have hpos : twoTo 52 + x.toBits.toNat % twoTo 52 ≠ 0 := by rw [twoTo_eq]; omega
      have hbias : ((Format.binary64.exponentBias : Int) + (52 : Nat)) = 1075 := by decide
      unfold Binary.unpacked
      dsimp only
      rw [dif_neg hpos, UnpackedFloat.finite.injEq]
      refine ⟨rfl, ?_, ?_⟩
      · rw [append_one, hfraction]
        rfl
      · rw [hfield, hbias]
        show ((x.toBits.toBitVec.toNat / 2 ^ 52 % 2 ^ 11 : Nat) : Int) - 1075 =
          ((x.toBits.toBitVec.toNat / 2 ^ 52 % 2 ^ 11 - 1 : Nat) : Int) - 1074
        omega

theorem isInf_of_finite {x : Float} {negative : Bool} {s k : Nat}
    (h : Binary.ofFloat x = .finite negative s k) : x.isInf = false := by
  show x.toModel.unpack.isInf = false
  rw [unpack_toModel, h]
  unfold Binary.unpacked
  dsimp only
  by_cases hs : s = 0
  · rw [dif_pos hs]
    rfl
  · rw [dif_neg hs]
    rfl

theorem isInf_of_infinite {x : Float} {negative : Bool}
    (h : Binary.ofFloat x = .infinite negative) : x.isInf = true := by
  show x.toModel.unpack.isInf = true
  rw [unpack_toModel, h]
  rfl

/-! ## Bits and significands -/

/-- A significand and a scale as an unpacked double. -/
def ofTicks (p : Nat × Nat) : UnpackedFloat := (Binary.finite false p.1 p.2).unpacked

/-- The double of a significand and a scale. -/
def ofPair (p : Nat × Nat) : Float := .ofModel (.pack (ofTicks p))

theorem eq_of_toBits {x y : Float} (h : x.toBits.toNat = y.toBits.toNat) : x = y := by
  obtain ⟨⟨bx, hx⟩⟩ := x
  obtain ⟨⟨b, hy⟩⟩ := y
  have hb : bx = b := UInt64.toNat_inj.1 h
  subst hb
  rfl

theorem twoTo_fields :
    twoTo 11 = 2048 ∧ twoTo 52 = 4503599627370496 ∧ twoTo 63 = 9223372036854775808 := by
  decide

theorem isCanonical_of_finite {x : Float} {negative : Bool} {s k : Nat}
    (h : Binary.ofFloat x = .finite negative s k) :
    isSignSet x = negative ∧ IsCanonical s k ∧ k ≤ 2045 := by
  obtain ⟨h11, h52, -⟩ := twoTo_fields
  unfold Binary.ofFloat at h
  unfold IsCanonical
  simp only [h11, h52, beq_iff_eq] at h
  split at h
  · split at h <;> cases h
  · split at h <;>
    · rw [Binary.finite.injEq] at h
      refine ⟨h.1, ?_⟩
      omega

theorem toBits_of_finite {x : Float} {s k : Nat} (h : Binary.ofFloat x = .finite false s k) :
    x.toBits.toNat = k * 2 ^ 52 + s := by
  obtain ⟨h11, h52, h63⟩ := twoTo_fields
  have hlt : x.toBits.toNat < 2 ^ 64 := x.toBits.toNat_lt
  unfold Binary.ofFloat isSignSet at h
  simp only [h11, h52, h63, beq_iff_eq] at h
  split at h
  · split at h <;> cases h
  · split at h <;>
    · rw [Binary.finite.injEq, decide_eq_false_iff_not] at h
      omega

theorem ofFloat_of_toBits {x : Float} {s k : Nat} (hc : IsCanonical s k) (hk : k ≤ 2045)
    (h : x.toBits.toNat = k * 2 ^ 52 + s) : Binary.ofFloat x = .finite false s k := by
  obtain ⟨hs, hk0⟩ := hc
  obtain ⟨h11, h52, h63⟩ := twoTo_fields
  have hsign : isSignSet x = false := by
    unfold isSignSet
    rw [h, h63, decide_eq_false_iff_not]
    omega
  unfold Binary.ofFloat
  simp only [hsign, h11, h52, beq_iff_eq, h]
  rw [if_neg (by omega)]
  split <;>
  · rw [Binary.finite.injEq]
    refine ⟨rfl, ?_, ?_⟩ <;> omega

theorem ofTicks_pos {s : Nat} (k : Nat) (hs : 0 < s) :
    ofTicks (s, k) = .finite .positive s ((k : Int) - 1074) hs := by
  unfold ofTicks Binary.unpacked
  exact dif_neg (Nat.ne_of_gt hs)

theorem ofPair_toBits {s k : Nat} (hc : IsCanonical s k) (hk : k ≤ 2045) :
    (ofPair (s, k)).toBits.toNat = k * 2 ^ 52 + s := by
  obtain ⟨hs, hk0⟩ := hc
  show BitVec.toNat (UnpackedFloat.pack Format.binary64 (ofTicks (s, k))) = _
  rcases Nat.eq_zero_or_pos s with rfl | hpos
  · have hk0 : k = 0 := by omega
    subst hk0
    rfl
  · have hbiased : ((k : Int) - 1074 + Format.binary64.exponentBias + (52 : Nat)).toNat = k + 1 := by
      rw [show Format.binary64.exponentBias = 1023 from rfl]
      omega
    rw [ofTicks_pos k hpos]
    unfold UnpackedFloat.pack
    dsimp only
    rw [hbiased, if_neg (by omega)]
    split
    · rename_i hlog
      have hlow : 2 ^ 52 ≤ s := (Nat.le_log2 (Nat.ne_of_gt hpos)).1 (by
        rw [mantissaBits_eq] at hlog
        omega)
      rw [toNat_packComponents]
      show 0 * 2 ^ 63 + (k + 1) % 2 ^ 11 * 2 ^ 52 + s % 2 ^ 52 = _
      omega
    · rename_i hlog
      have hlow : s < 2 ^ 52 := by
        by_contra hge
        have := (Nat.le_log2 (Nat.ne_of_gt hpos)).2 (Nat.le_of_not_lt hge)
        have := (Nat.log2_lt (Nat.ne_of_gt hpos)).2 hs
        exact hlog (by rw [mantissaBits_eq]; omega)
      rw [toNat_packComponents]
      show 0 * 2 ^ 63 + 0 * 2 ^ 52 + s % 2 ^ 52 = _
      omega

theorem ofPair_infinite {s k : Nat} (hc : IsCanonical s k) (hk : 2045 < k) :
    Binary.ofFloat (ofPair (s, k)) = .infinite false := by
  have hpos : 0 < s := by
    obtain ⟨-, hk0⟩ := hc
    omega
  have hbiased : ((k : Int) - 1074 + Format.binary64.exponentBias + (52 : Nat)).toNat = k + 1 := by
    rw [show Format.binary64.exponentBias = 1023 from rfl]
    omega
  have hpack : UnpackedFloat.pack Format.binary64 (ofTicks (s, k)) =
      packedInfinity Format.binary64 .positive := by
    rw [ofTicks_pos k hpos]
    unfold UnpackedFloat.pack
    dsimp only
    rw [hbiased, if_pos (by omega)]
  have hbits : (ofPair (s, k)).toBits = 0x7FF0000000000000 := congrArg UInt64.ofBitVec hpack
  unfold Binary.ofFloat isSignSet
  rw [hbits]
  decide

theorem ofFloat_ofPair {p : Nat × Nat} (hc : IsCanonical p.1 p.2) :
    Binary.ofFloat (ofPair p) =
      if p.2 ≤ 2045 then .finite false p.1 p.2 else .infinite false := by
  split
  · rename_i hk
    exact ofFloat_of_toBits hc hk (ofPair_toBits hc hk)
  · rename_i hk
    exact ofPair_infinite hc (Nat.lt_of_not_le hk)

theorem unpack_ofPair {p : Nat × Nat} (hc : IsCanonical p.1 p.2) (hk : p.2 ≤ 2045) :
    (ofPair p).toModel.unpack = ofTicks p := by
  rw [unpack_toModel, ofFloat_ofPair hc, if_pos hk]
  rfl

theorem eq_ofPair {x : Float} {s k : Nat} (h : Binary.ofFloat x = .finite false s k) :
    x = ofPair (s, k) := by
  obtain ⟨-, hc, hk⟩ := isCanonical_of_finite h
  exact eq_of_toBits (by rw [toBits_of_finite h, ofPair_toBits hc hk])

theorem ofFloat_abs {x : Float} {negative : Bool} {s k : Nat}
    (h : Binary.ofFloat x = .finite negative s k) :
    Binary.ofFloat x.abs = .finite false s k := by
  obtain ⟨-, hc, hk⟩ := isCanonical_of_finite h
  have habs : x.toModel.unpack.abs = ofTicks (s, k) := by
    rw [unpack_toModel, h]
    unfold ofTicks Binary.unpacked
    dsimp only
    by_cases hs : s = 0
    · rw [dif_pos hs, dif_pos hs]
      rfl
    · rw [dif_neg hs, dif_neg hs]
      rfl
  have hx : x.abs = ofPair (s, k) := by
    show Float.ofModel (.pack x.toModel.unpack.abs) = _
    rw [habs]
    rfl
  rw [hx, ofFloat_ofPair hc, if_pos hk]

end GlyphMath.Decimal
