import GlyphMath.Proofs.Order
import GlyphMath.Proofs.PlainText

/-!
# Every double reads back from its plain text

* `read?_positional` -- digits with a point are read as the double that is nearest to their number.
* `eq_nan`, `eq_of_ofFloat` -- a double is known from what it denotes.
* `neg_abs` -- a negative number is its magnitude negated.
* `plain_range` -- the characters of a plain text.

Principal result:

* `read?_plain` -- the plain text of a double is read as the double, the infinities and what is no
  number included.
-/

set_option autoImplicit false

namespace GlyphMath.Decimal

open Float.Model Float.Model.UnpackedFloat

/-! ## Reading digits -/

theorem readWord?_digit {c : Char} (hc : isDigit c = true) (text : List Char) :
    readWord? (c :: text) = none := by
  have hlower : c.toLower = c := by
    have hcode := isDigit_iff.1 hc
    have hupper : ¬ ('A'.val ≤ c.val ∧ c.val ≤ 'Z'.val) := by
      rintro ⟨hupper, -⟩
      have hupper : 65 ≤ c.toNat := UInt32.le_iff_toNat_le.1 hupper
      omega
    exact dif_neg hupper
  have hne : c.toLower ≠ 'i' ∧ c.toLower ≠ 'n' := by
    rw [hlower]
    constructor <;>
    · rintro rfl
      exact absurd hc (by decide)
  simp [readWord?, hne.1, hne.2]

/-- Digits with a point are read as the double nearest to the number that they stand for. -/
theorem readUnsigned?_positional {text : List Char} {n places : Nat}
    (h : Positional text n places) : readUnsigned? text = some (nearest n (-(places : Int))) := by
  unfold readUnsigned? spanDigits
  cases h with
  | whole hne hds =>
    have hsplit := takeWhile_digits hds [] (by simp)
    rw [List.append_nil] at hsplit
    rw [hsplit.1, hsplit.2]
    simp [exponentPart?, hne]
  | @fraction ds fs hne hds hfs =>
    have hsplit := takeWhile_digits hds ('.' :: fs) (by simp; decide)
    have hrest := takeWhile_digits hfs [] (by simp)
    rw [List.append_nil] at hrest
    rw [hsplit.1, hsplit.2]
    simp [exponentPart?, hne, hrest.1, hrest.2]

theorem read?_positional {text : List Char} {n places : Nat} (h : Positional text n places) :
    readMagnitude? text = some (nearest n (-(places : Int))) ∧
      read? text = readMagnitude? text := by
  obtain ⟨c, rest, rfl, hc⟩ : ∃ c rest, text = c :: rest ∧ isDigit c = true := by
    cases h with
    | @whole ds hne hds =>
      obtain ⟨c, rest, rfl⟩ := List.exists_cons_of_ne_nil hne
      exact ⟨c, rest, rfl, hds c (by simp)⟩
    | @fraction ds fs hne hds hfs =>
      obtain ⟨c, rest, rfl⟩ := List.exists_cons_of_ne_nil hne
      exact ⟨c, _, rfl, hds c (by simp)⟩
  constructor
  · rw [readMagnitude?, readWord?_digit hc]
    exact readUnsigned?_positional h
  · unfold read?
    split
    · rename_i heq
      cases heq
      exact absurd hc (by decide)
    · rename_i heq
      cases heq
      exact absurd hc (by decide)
    · rfl

/-! ## Doubles and what they denote -/

/-- Doubles that denote the same number are the same. -/
theorem eq_of_ofFloat {x y : Float} (h : Binary.ofFloat x = Binary.ofFloat y)
    (hx : Binary.ofFloat x ≠ .nan) : x = y := by
  rw [← totalKey_inj, totalKey_eq hx, h, ← totalKey_eq (h ▸ hx)]

theorem eq_nan {x : Float} (h : Binary.ofFloat x = .nan) : x = 0.0 / 0.0 := by
  have hunpack : UnpackedFloat.unpack Format.binary64 x.toModel.toBits.toBitVec = .notANumber := by
    have hunpack := unpack_toModel x
    rw [h] at hunpack
    exact hunpack
  -- the model of doubles has no other bits for it
  have hbits : x.toModel.toBits.toBitVec = packedNaN Format.binary64 := by
    unfold UnpackedFloat.unpack at hunpack
    dsimp only at hunpack
    by_cases hexponent : @unpackExponent Format.binary64 x.toModel.toBits.toBitVec = -1#_
    · rw [if_pos hexponent] at hunpack
      by_cases hmantissa : @unpackMantissa Format.binary64 x.toModel.toBits.toBitVec = 0#_
      · rw [if_pos hmantissa] at hunpack
        cases hunpack
      · exact x.toModel.valid.eq_packedNaN hexponent hmantissa
    · rw [if_neg hexponent] at hunpack
      by_cases hsmall : @unpackExponent Format.binary64 x.toModel.toBits.toBitVec = 0#_
      · rw [if_pos hsmall] at hunpack
        by_cases hmantissa : @unpackMantissa Format.binary64 x.toModel.toBits.toBitVec = 0#_
        · rw [dif_pos hmantissa] at hunpack
          cases hunpack
        · rw [dif_neg hmantissa] at hunpack
          cases hunpack
      · rw [if_neg hsmall] at hunpack
        cases hunpack
  refine eq_of_toBits ?_
  show x.toModel.toBits.toBitVec.toNat = _
  rw [hbits]
  rfl

theorem toNat_pack_negative {m : Nat} (e : Int) (hm : 0 < m) :
    (UnpackedFloat.pack Format.binary64 (.finite .negative m e hm)).toNat =
      2 ^ 63 + (UnpackedFloat.pack Format.binary64 (.finite .positive m e hm)).toNat := by
  have hsign : Sign.negative.toBitVec.toNat = 1 ∧ Sign.positive.toBitVec.toNat = 0 := ⟨rfl, rfl⟩
  unfold UnpackedFloat.pack
  dsimp only
  split
  · rfl
  · split <;> rw [toNat_packComponents, toNat_packComponents, hsign.1, hsign.2] <;> omega

theorem toBits_neg_ofPair {s k : Nat} (hc : IsCanonical s k) (hk : k ≤ 2045) :
    (-ofPair (s, k)).toBits.toNat = 2 ^ 63 + (k * 2 ^ 52 + s) := by
  have hneg : (-ofPair (s, k)).toBits.toNat =
      (UnpackedFloat.pack Format.binary64 (ofTicks (s, k)).neg).toNat := by
    rw [← unpack_ofPair hc hk]
    rfl
  have hpack : (UnpackedFloat.pack Format.binary64 (ofTicks (s, k)).neg).toNat =
      2 ^ 63 + (UnpackedFloat.pack Format.binary64 (ofTicks (s, k))).toNat := by
    rcases Nat.eq_zero_or_pos s with rfl | hs
    · have hzero : ofTicks (0, k) = .zero .positive := by
        unfold ofTicks Binary.unpacked
        rfl
      rw [hzero]
      decide
    · rw [ofTicks_pos k hs]
      exact toNat_pack_negative _ hs
  rw [hneg, hpack, ← ofPair_toBits hc hk]
  rfl

theorem neg_abs {x : Float} {s k : Nat} (h : Binary.ofFloat x = .finite true s k) :
    -x.abs = x := by
  obtain ⟨hset, hc, hk⟩ := isCanonical_of_finite h
  obtain ⟨negative, magnitude, hkey, hsign, hbits⟩ := bits_eq (x := x) (by simp [h])
  rw [hset] at hsign
  subst hsign
  rw [h, Binary.key, signedKey, signedKey, if_pos rfl] at hkey
  rw [eq_ofPair (ofFloat_abs h)]
  refine eq_of_toBits ?_
  rw [toBits_neg_ofPair hc hk, hbits, if_pos rfl]
  simp only [if_true] at hkey
  omega

/-- **Every double reads back from its plain text.** -/
theorem read?_plain (x : Float) : read? (plain x) = some x := by
  cases h : Binary.ofFloat x with
  | nan =>
    rw [eq_nan h]
    decide +kernel
  | infinite negative =>
    cases negative with
    | false =>
      have hx : x = infinity := eq_of_ofFloat (by rw [h]; decide +kernel) (by simp [h])
      rw [hx]
      decide +kernel
    | true =>
      have hx : x = -infinity := eq_of_ofFloat (by rw [h]; decide +kernel) (by simp [h])
      rw [hx]
      decide +kernel
  | finite negative s k =>
    cases negative with
    | false =>
      obtain ⟨n, places, htext, hvalue⟩ := plain_positional h
      obtain ⟨hmagnitude, hread⟩ := read?_positional htext
      rw [hread, hmagnitude, hvalue]
    | true =>
      obtain ⟨n, places, htext, hvalue⟩ := plain_positional (ofFloat_abs h)
      rw [plain_of_negative h, read?, (read?_positional htext).1, hvalue, Option.map_some,
        neg_abs h]

/-! ## The characters of a plain text -/

/-- The characters of a plain text lie between the minus sign and the end of ASCII. -/
theorem plain_range {x : Float} {c : Char} (h : c ∈ plain x) : 0x2D ≤ c.toNat ∧ c.toNat ≤ 0x7E := by
  have hdigit {d : Char} (hd : isDigit d = true) : 0x2D ≤ d.toNat ∧ d.toNat ≤ 0x7E := by
    have := isDigit_iff.1 hd
    omega
  have hpositional {text : List Char} {n places : Nat} (htext : Positional text n places) :
      ∀ d ∈ text, 0x2D ≤ d.toNat ∧ d.toNat ≤ 0x7E := by
    intro d hd
    cases htext with
    | whole _ hds => exact hdigit (hds d hd)
    | fraction _ hds hfs =>
      rcases List.mem_append.1 hd with hd | hd
      · exact hdigit (hds d hd)
      · rcases List.mem_cons.1 hd with rfl | hd
        · decide
        · exact hdigit (hfs d hd)
  have hwords : ∀ d ∈ nanText ++ infinityText true ++ infinityText false,
      0x2D ≤ d.toNat ∧ d.toNat ≤ 0x7E := by
    have hall : (nanText ++ infinityText true ++ infinityText false).all
        (fun d => decide (0x2D ≤ d.toNat ∧ d.toNat ≤ 0x7E)) = true := by decide
    intro d hd
    exact of_decide_eq_true (List.all_eq_true.1 hall d hd)
  cases hx : Binary.ofFloat x with
  | nan =>
    rw [plain, hx] at h
    exact hwords c (by simp [h])
  | infinite negative =>
    rw [plain, hx] at h
    cases negative <;> exact hwords c (by simp [h])
  | finite negative s k =>
    cases negative with
    | false =>
      obtain ⟨n, places, htext, -⟩ := plain_positional hx
      exact hpositional htext c h
    | true =>
      obtain ⟨n, places, htext, -⟩ := plain_positional (ofFloat_abs hx)
      rw [plain_of_negative hx] at h
      rcases List.mem_cons.1 h with rfl | h
      · decide
      · exact hpositional htext c h

end GlyphMath.Decimal
