import GlyphMath.Proofs.RoundTrip

/-!
# Which trees are stored exactly

* `Numeral.digits`, `Numeral.power` -- a numeral as a whole number times a power of ten.
* `Numeral.IsShort` -- the whole number and the power of ten are doubles.
* `scaled?_of_short` -- the reader of documents finds the double nearest a short numeral: it rounds
  once.
* `nearest_numeral` -- the numeral of a double is nearest to it.

Principal result:

* `ofJson_toJson_iff` -- a parsed tree is read from its document as it was exactly where each of its
  numbers is read from its text as it was, and so it is where their numerals are short.

The numeral of a double has up to seventeen digits.  Beyond `2^53`, or beyond the twenty-second
power of ten, the reader rounds the digits or the power and then rounds once more, and may end at a
neighbour of the double, as in `ofJson_misses_number`.
-/

set_option autoImplicit false

namespace GlyphMath

open Decimal

namespace Json

/-! ## Numerals as powers of ten -/

namespace Numeral

def digits (n : Numeral) : List Char := n.whole ++ n.fraction.getD []

/-- The power of ten that the last digit of a numeral counts. -/
def power (n : Numeral) : Int :=
  (match n.exponent with
    | none => 0
    | some e => if e.negative then -(digitsValue e.digits : Int) else digitsValue e.digits) -
    (n.fraction.getD []).length

/-- The digits and the power of ten of a numeral are doubles. -/
structure IsShort (n : Numeral) : Prop where
  digits : digitsValue n.digits < 2 ^ 53
  power : n.power.natAbs ≤ 22

instance (n : Numeral) : Decidable n.IsShort :=
  decidable_of_iff (digitsValue n.digits < 2 ^ 53 ∧ n.power.natAbs ≤ 22)
    ⟨fun h => ⟨h.1, h.2⟩, fun h => ⟨h.digits, h.power⟩⟩

end Numeral

theorem significand_of_lt {n : Numeral} (h : digitsValue n.digits < 2 ^ 53) :
    n.significand = (digitsValue n.digits, -((n.fraction.getD []).length : Int)) := by
  have hbound : digitsValue n.digits < significandBound :=
    Nat.lt_trans h (by decide +kernel)
  have hdigits : digitsValue n.digits =
      (n.fraction.getD []).foldl (fun n c => 10 * n + digitValue c) (digitsValue n.whole) := by
    rw [Numeral.digits, digitsValue, List.foldl_append]
    rfl
  have hwhole : digitsValue n.whole < significandBound := by
    have := le_foldl_digits (digitsValue n.whole) (n.fraction.getD [])
    omega
  unfold Numeral.significand
  rw [show accumulate 0 n.whole = (digitsValue n.whole, 0) from accumulate_of_lt hwhole]
  dsimp only
  rw [accumulate_of_lt (by rwa [← hdigits]), ← hdigits]
  simp

/-! ## Reading short numerals -/

theorem scaleDown_of_le {x : Float} {power : Nat} (h : power ≤ greatestPower) :
    scaleDown x power = x / powerOfTen power := by
  unfold scaleDown
  rw [dif_pos h]

theorem nearestTicks_of_exact {n : Nat} {p : Nat × Nat} (h : IsExact n p) :
    nearestTicks (n * ticksPerOne) 1 = p := by
  rw [← h.value]
  exact nearestTicks_exact (Nat.lt_of_lt_of_le (Nat.two_pow_pos 52) h.full.1)
    ⟨h.full.2.1, Or.inr h.full.1⟩

theorem ofNat_exact {m : Nat} (hm : 0 < m) (hlt : m < 2 ^ 53) :
    ∃ q, Float.ofNat m = ofPair q ∧ IsExact m q := by
  refine ⟨_, ?_, isExact_of_lt hm hlt⟩
  have hscientific := ofScientific_eq false (e := 0) hm (fun _ => by omega) nofun
  rw [scientificTicks, if_neg Bool.false_ne_true, Nat.pow_zero, Nat.mul_one,
    nearestTicks_of_exact (isExact_of_lt hm hlt)] at hscientific
  exact hscientific

theorem powerOfTen_exact {power : Nat} (h : power ≤ 22) :
    ∃ p, powerOfTen power = ofPair p ∧ IsExact (10 ^ power) p := by
  obtain ⟨p, -, hexact⟩ := powerOfTen_eq (e := power) (Nat.lt_succ_of_le h)
  refine ⟨p, ?_, hexact⟩
  rw [powerOfTen, ofScientific_eq false Nat.one_pos (fun _ => by omega) nofun, scientificTicks,
    if_neg Bool.false_ne_true, Nat.one_mul, nearestTicks_of_exact hexact]

/-- The double nearest a short numeral, by one operation on doubles. -/
theorem nearest_of_short {m : Nat} {power : Int} {q p : Nat × Nat} (hm : 0 < m)
    (hlt : m < 2 ^ 53) (hpower : power.natAbs ≤ 22) (hq : IsExact m q)
    (hp : IsExact (10 ^ power.natAbs) p) :
    nearest m power = if power < 0 then ofPair q / ofPair p else ofPair q * ofPair p := by
  have hlog : m.log2 < 53 := (Nat.log2_lt (Nat.ne_of_gt hm)).2 hlt
  have hlength := length_toDigits_le_log2 m
  have hpos : 0 < (Nat.toDigits 10 m).length := Nat.length_toDigits_pos
  have hshort := ofScientific_short (decide (power < 0)) hp hq
  rw [nearest_eq hm (by omega) (by omega)]
  by_cases hneg : power < 0
  · rw [if_pos hneg]
    rw [decide_eq_true hneg, if_pos rfl, scientificTicks, if_pos rfl] at hshort
    rw [hshort, decimalTicks, show power.toNat = 0 by omega, Nat.pow_zero, Nat.mul_one,
      show (-power).toNat = power.natAbs by omega]
  · rw [if_neg hneg]
    rw [decide_eq_false hneg, if_neg Bool.false_ne_true, scientificTicks,
      if_neg Bool.false_ne_true] at hshort
    rw [hshort, decimalTicks, show power.toNat = power.natAbs by omega,
      show (-power).toNat = 0 by omega, Nat.pow_zero]

/-- **A short numeral is rounded once**: what is read is the double nearest to it. -/
theorem scaled?_of_short {m : Nat} {power : Int} (hm : 0 < m) (hlt : m < 2 ^ 53)
    (hpower : power.natAbs ≤ 22) (hfinite : (nearest m power).isInf = false) :
    scaled? m power = some (nearest m power) := by
  obtain ⟨q, hofNat, hq⟩ := ofNat_exact hm hlt
  obtain ⟨p, hten, hp⟩ := powerOfTen_exact hpower
  have hnearest := nearest_of_short hm hlt hpower hq hp
  unfold scaled?
  dsimp only
  split
  · rename_i hneg
    rw [if_pos hneg] at hnearest
    rw [scaleDown_of_le (by unfold greatestPower; omega),
      show (-power).toNat = power.natAbs by omega, hofNat, hten, hnearest]
  · rename_i hneg
    rw [if_neg hneg] at hnearest
    rw [if_pos (by unfold greatestPower; omega), show power.toNat = power.natAbs by omega, hofNat,
      hten, ← hnearest, if_neg (by simp [hfinite])]

/-! ## The numerals of doubles -/

/-- The numeral of digits stands for them. -/
theorem numeralOf_value (negative : Bool) {d : Digits} (hd : AreDigits d.digits) :
    ∃ z : Nat, digitsValue (numeralOf negative d).digits = digitsValue d.digits * 10 ^ z ∧
      (numeralOf negative d).power + z = d.point - d.digits.length := by
  obtain ⟨ds, point⟩ := d
  have hlength : 0 < ds.length := List.length_pos_iff.2 hd.1
  unfold numeralOf
  dsimp only
  split
  · split
    · rename_i hpoint
      refine ⟨0, ?_, ?_⟩
      · have hzero : digitsValue ('0' :: List.replicate (-point).toNat '0') = 0 := by
          rw [← List.replicate_succ, digitsValue_zeros]
        show digitsValue ('0' :: List.replicate (-point).toNat '0' ++ ds) = _
        rw [digitsValue_append, hzero, Nat.mul_zero, Nat.zero_add, Nat.pow_zero, Nat.mul_one]
      · simp [Numeral.power]
        omega
    · split
      · rename_i hpoint hfits
        refine ⟨point.toNat - ds.length + 1, ?_, ?_⟩
        · have hzeros : ds ++ List.replicate (point.toNat - ds.length) '0' ++ ['0'] =
              ds ++ List.replicate (point.toNat - ds.length + 1) '0' := by
            rw [List.append_assoc, List.replicate_succ']
          rw [Numeral.digits, Option.getD_some, hzeros, digitsValue_append_zeros]
        · simp [Numeral.power]
          omega
      · refine ⟨0, ?_, ?_⟩
        · simp [Numeral.digits]
        · simp [Numeral.power]
          omega
  · refine ⟨0, ?_, ?_⟩
    · by_cases hone : ds.length ≤ 1
      · simp [Numeral.digits, hone, List.take_of_length_le hone]
      · rw [Numeral.digits, if_neg hone, Option.getD_some, List.take_append_drop, Nat.pow_zero,
          Nat.mul_one]
    · have hexponent : (if decide (point - 1 < 0) then
            -(digitsValue (natDigits (point - 1).natAbs) : Int)
          else digitsValue (natDigits (point - 1).natAbs)) = point - 1 := by
        rw [digitsValue_natDigits]
        split <;> rename_i hnegative
        · have := of_decide_eq_true hnegative
          omega
        · have := of_decide_eq_false (Bool.eq_false_iff.2 hnegative)
          omega
      rw [Numeral.power]
      dsimp only
      rw [hexponent]
      by_cases hone : ds.length ≤ 1
      · rw [if_pos hone, Option.getD_none, List.length_nil]
        omega
      · rw [if_neg hone, Option.getD_some, List.length_drop]
        omega

/-- The digits of a multiple of a power of ten, without the zeros at its end. -/
theorem ofMultiple_value (count : Nat) (grid : Int) :
    ∃ z : Nat, count = digitsValue (Digits.ofMultiple count grid).digits * 10 ^ z ∧
      (Digits.ofMultiple count grid).point - (Digits.ofMultiple count grid).digits.length =
        z + grid := by
  obtain ⟨z, hz⟩ := dropTrailingZeros_append (natDigits count)
  have hlength := congrArg List.length hz
  rw [List.length_append, List.length_replicate] at hlength
  refine ⟨z, ?_, ?_⟩
  · rw [Digits.ofMultiple, ← digitsValue_append_zeros, ← hz, digitsValue_natDigits]
  · simp only [Digits.ofMultiple]
    omega

/-- **The numeral of a double is nearest to it.** -/
theorem nearest_numeral {s k : Nat} (hs : 0 < s) (hc : IsCanonical s k) (hk : k ≤ 2045) :
    nearest (digitsValue (numeralOf false (shortest .even s k)).digits)
      (numeralOf false (shortest .even s k)).power = ofPair (s, k) := by
  obtain ⟨count, grid, hdigits, hcount, hin⟩ := shortest_contains .even k hs
  have hleading := leading_shortest .even k hs
  rw [hdigits] at hleading ⊢
  obtain ⟨z, hvalue, hpower⟩ := numeralOf_value false hleading.digits
  obtain ⟨z', hcount', hpower'⟩ := ofMultiple_value count grid
  generalize digitsValue (Digits.ofMultiple count grid).digits = d at hvalue hcount'
  generalize (numeralOf false (Digits.ofMultiple count grid)).power = e at *
  have hten : ∀ m, 0 < 10 ^ m := fun m => Nat.pow_pos (by decide)
  have hd : 0 < d := by
    rcases Nat.eq_zero_or_pos d with rfl | hd
    · omega
    · exact hd
  rw [hvalue]
  refine nearest_of_contains (Nat.mul_pos hd (hten z)) hs hc hk ?_
  rw [← hin]
  refine Rounding.contains_congr (hten _) (hten _) ?_
  show 4 * (d * 10 ^ z * 10 ^ e.toNat * ticksPerOne) * 10 ^ (-grid).toNat =
    count * (10 ^ grid.toNat * (4 * ticksPerOne)) * 10 ^ (-e).toNat
  calc 4 * (d * 10 ^ z * 10 ^ e.toNat * ticksPerOne) * 10 ^ (-grid).toNat
      = d * (4 * ticksPerOne) * 10 ^ (z + e.toNat + (-grid).toNat) := by ring
    _ = d * (4 * ticksPerOne) * 10 ^ (z' + grid.toNat + (-e).toNat) := by
        rw [show z + e.toNat + (-grid).toNat = z' + grid.toNat + (-e).toNat by omega]
    _ = count * (10 ^ grid.toNat * (4 * ticksPerOne)) * 10 ^ (-e).toNat := by
        rw [hcount']
        ring

/-! ## Reading doubles again -/

/-- The numeral of a double has a point or an exponent. -/
theorem isPlain_numeralOf (negative : Bool) (d : Digits) :
    (numeralOf negative d).isPlain = false := by
  unfold numeralOf Numeral.isPlain
  split
  · split
    · rfl
    · split <;> rfl
  · exact Bool.and_false _

/-- A double that is read again is what its numeral is read as. -/
theorem reread?_of_numeral {x : Float} {n : Numeral} (h : floatNumeral? x = some n)
    (hplain : n.isPlain = false) : reread? x = n.float? := by
  have hscalar : (Number.float x).scalar = .number n := by
    rw [Number.scalar, Number.numeral?, h]
  rw [reread?_eq, hscalar]
  dsimp only
  rw [Numeral.number?]
  simp only [hplain, Bool.false_and, Bool.false_eq_true, if_false]
  cases n.float? <;> rfl

theorem float?_of_short {n : Numeral} (h : n.IsShort) (hsign : n.negative = false)
    (hexponent : ∀ e ∈ n.exponent, digitsValue e.digits ≤ greatestExponent)
    (hpos : 0 < digitsValue n.digits)
    (hfinite : (nearest (digitsValue n.digits) n.power).isInf = false) :
    n.float? = some (nearest (digitsValue n.digits) n.power) := by
  have hscaled := scaled?_of_short hpos h.digits h.power hfinite
  have hmagnitude : n.magnitude? = scaled? (digitsValue n.digits) n.power := by
    unfold Numeral.magnitude?
    rw [significand_of_lt h.digits]
    dsimp only
    split
    · rename_i hnone
      rw [Numeral.power, hnone, Int.zero_sub]
    · rename_i e hsome
      rw [if_neg (Nat.not_lt.2 (hexponent e hsome)), Numeral.power, hsome]
      congr 1
      dsimp only
      split <;> omega
  rw [Numeral.float?, hmagnitude, hscaled, hsign]
  rfl

theorem exponent_numeralOf (negative : Bool) (d : Digits) :
    ∀ e ∈ (numeralOf negative d).exponent, digitsValue e.digits = (d.point - 1).natAbs := by
  unfold numeralOf
  split
  · split
    · exact nofun
    · split <;> exact nofun
  · rintro e ⟨⟩
    exact digitsValue_natDigits _

/-- Digits without a zero at the front make a number of as many digits. -/
theorem Leading.le_digitsValue {ds : List Char} (h : Leading ds) :
    10 ^ (ds.length - 1) ≤ digitsValue ds := by
  obtain ⟨c, cs, rfl⟩ := List.exists_cons_of_ne_nil h.digits.1
  have hdigit := isDigit_iff.1 (h.digits.2 c List.mem_cons_self)
  have hzero : c.toNat ≠ '0'.toNat := fun heq => h.first c rfl (Char.toNat_inj.1 heq)
  have hone : 1 ≤ digitsValue [c] := by
    show 1 ≤ 10 * 0 + (c.toNat - '0'.toNat)
    have : '0'.toNat = 48 := rfl
    omega
  rw [← List.singleton_append, digitsValue_append, List.length_append, List.length_singleton,
    Nat.add_sub_cancel_left]
  exact Nat.le_add_right_of_le (Nat.le_mul_of_pos_right _ hone)

theorem negative_numeralOf (negative : Bool) (d : Digits) :
    (numeralOf negative d).negative = negative := by
  unfold numeralOf
  split
  · split
    · rfl
    · split <;> rfl
  · rfl

theorem numeralOf_pos (negative : Bool) {d : Digits} (hd : Leading d.digits) :
    0 < digitsValue (numeralOf negative d).digits := by
  obtain ⟨z, hvalue, -⟩ := numeralOf_value negative hd.digits
  have hle := Leading.le_digitsValue hd
  have hten : ∀ m, 0 < 10 ^ m := fun m => Nat.pow_pos (by decide)
  rw [hvalue]
  exact Nat.mul_pos (Nat.lt_of_lt_of_le (hten _) hle) (hten z)

theorem exponent_le_of_short {negative : Bool} {d : Digits} (hd : Leading d.digits)
    (h : (numeralOf negative d).IsShort) :
    ∀ e ∈ (numeralOf negative d).exponent, digitsValue e.digits ≤ greatestExponent := by
  intro e he
  obtain ⟨z, hvalue, hpower⟩ := numeralOf_value negative hd.digits
  have hdigits := h.digits
  have hshort := h.power
  have hle := Leading.le_digitsValue hd
  have hpow : 10 ^ (d.digits.length - 1 + z) < 10 ^ 16 :=
    calc 10 ^ (d.digits.length - 1 + z) = 10 ^ (d.digits.length - 1) * 10 ^ z := Nat.pow_add _ _ _
      _ ≤ digitsValue d.digits * 10 ^ z := Nat.mul_le_mul_right _ hle
      _ < 2 ^ 53 := by rwa [← hvalue]
      _ < 10 ^ 16 := by decide
  have hbound := (Nat.pow_lt_pow_iff_right (by decide)).1 hpow
  rw [exponent_numeralOf negative d e he, greatestExponent, show twoTo 31 = 2147483648 from rfl]
  omega

/-- **A double with a short numeral is read again.** -/
theorem reread?_of_short {x : Float} {s k : Nat} (hx : Binary.ofFloat x = .finite false s k)
    (hshort : ∀ n ∈ floatNumeral? x, n.IsShort) : reread? x = some x := by
  obtain ⟨-, hc, hk⟩ := isCanonical_of_finite hx
  have hpair := eq_ofPair hx
  have hfinite := isInf_of_finite hx
  unfold floatNumeral? at hshort
  rw [hx] at hshort
  rcases Nat.eq_zero_or_pos s with rfl | hs
  · have hzero : k = 0 := hc.2.resolve_right (Nat.not_le_of_lt (Nat.two_pow_pos 52))
    rw [hpair, hzero]
    decide +kernel
  · have hne : ¬ (s == 0) = true := by simpa using Nat.ne_of_gt hs
    have hnumeral : floatNumeral? x = some (numeralOf false (shortest .even s k)) := by
      unfold floatNumeral?
      rw [hx]
      dsimp only
      rw [if_neg hne]
    have hn := hshort _ (by dsimp only; rw [if_neg hne]; rfl)
    have hleading := leading_shortest .even k hs
    have hnearest := nearest_numeral hs hc hk
    rw [← hpair] at hnearest
    rw [reread?_of_numeral hnumeral (isPlain_numeralOf _ _),
      float?_of_short hn (negative_numeralOf _ _)
        (exponent_le_of_short hleading hn) (numeralOf_pos _ hleading) (by rwa [hnearest]),
      hnearest]

end Json

/-! ## Trees -/

namespace Expr

/-- Two parts make a whole exactly where they are its parts. -/
theorem bind_map_eq_some_iff {α β γ : Type} {x : Option α} {y : Option β} {g : α → β → γ} {a : α}
    {b : β} (hg : ∀ {a' b'}, g a' b' = g a b → a' = a ∧ b' = b) :
    (x.bind fun a => y.map (g a)) = some (g a b) ↔ x = some a ∧ y = some b := by
  constructor
  · intro h
    obtain ⟨a', hx, h⟩ := Option.bind_eq_some_iff.1 h
    obtain ⟨b', hy, h⟩ := Option.map_eq_some_iff.1 h
    obtain ⟨ha, hb⟩ := hg h
    rw [hx, hy, ha, hb]
    exact ⟨rfl, rfl⟩
  · rintro ⟨rfl, rfl⟩
    rfl

mutual

theorem mapNumbers?_eq_self_iff {f : Float → Option Float} : ∀ {t : Expr},
    t.mapNumbers? f = some t ↔ ∀ v, Formula.Token.number v ∈ Formula.yield t → f v = some v
  | .number v => by simp [mapNumbers?, Formula.yield]
  | .variable name => by simp [mapNumbers?, Formula.yield]
  | .sum terms => by
    have hterms := @mapAll?_eq_self_iff f terms
    simpa [mapNumbers?, Formula.yield] using hterms
  | .product factors => by
    have hfactors := @mapAll?_eq_self_iff f factors
    simpa [mapNumbers?, Formula.yield] using hfactors
  | .quotient a b => by
    rw [mapNumbers?, bind_map_eq_some_iff fun h => by simpa using h, mapNumbers?_eq_self_iff,
      mapNumbers?_eq_self_iff]
    simp only [Formula.yield, List.mem_append, or_imp, forall_and]
  | .power a b => by
    rw [mapNumbers?, bind_map_eq_some_iff fun h => by simpa using h, mapNumbers?_eq_self_iff,
      mapNumbers?_eq_self_iff]
    simp only [Formula.yield, List.mem_append, or_imp, forall_and]
  | .call name args => by
    have hargs := @mapAll?_eq_self_iff f args
    simpa [mapNumbers?, Formula.yield] using hargs

theorem mapAll?_eq_self_iff {f : Float → Option Float} : ∀ {es : List Expr},
    mapAll? f es = some es ↔ ∀ v, Formula.Token.number v ∈ Formula.yieldAll es → f v = some v
  | [] => by simp [mapAll?, Formula.yieldAll]
  | e :: es => by
    rw [mapAll?, bind_map_eq_some_iff fun h => by simpa using h, mapNumbers?_eq_self_iff,
      mapAll?_eq_self_iff]
    simp only [Formula.yieldAll, List.mem_append, or_imp, forall_and]

end

theorem reread_eq_self_iff {t : Expr} :
    t.reread = .ok t ↔
      ∀ v, Formula.Token.number v ∈ Formula.yield t → Json.reread? v = some v := by
  rw [← mapNumbers?_eq_self_iff, reread]
  cases t.mapNumbers? Json.reread? <;> simp

/-- **Storing a tree.**  A parsed tree is read from its document as it was exactly where each of its
numbers is read from its text as it was.  So it is where their numerals are short. -/
theorem ofJson_toJson_iff {text : String} {t : Expr} (h : Formula.parse text = .ok t) :
    (ofJson t.toJson = .ok t ↔
      ∀ v, Formula.Token.number v ∈ Formula.yield t → Json.reread? v = some v) ∧
    ((∀ v, Formula.Token.number v ∈ Formula.yield t →
        ∀ n ∈ Json.floatNumeral? v, n.IsShort) → ofJson t.toJson = .ok t) := by
  have hread : ofJson t.toJson = t.reread :=
    (storable_of_parse h).ofJson_ofList (Json.ofText?_compact _)
  have hiff : ofJson t.toJson = .ok t ↔
      ∀ v, Formula.Token.number v ∈ Formula.yield t → Json.reread? v = some v := by
    rw [hread, reread_eq_self_iff]
  refine ⟨hiff, fun hshort => hiff.2 fun v hv => ?_⟩
  obtain ⟨s, k, hfinite⟩ := (Formula.sound_of_parse h).2 (.number v) hv
  exact Json.reread?_of_short hfinite (hshort v hv)

/-- The tree of `0.1 * x ^ 1000000 - 12345.678 * 0.00000000000000012`. -/
def shortTree : Expr :=
  .call "sub" [.product [.number 0.1, .power (.variable "x") (.number 1000000)],
    .product [.number 12345.678, .number 0.00000000000000012]]

theorem ofJson_toJson_iff_short :
    Formula.parse "0.1 * x ^ 1000000 - 12345.678 * 0.00000000000000012" = .ok shortTree ∧
      ofJson shortTree.toJson = .ok shortTree := by
  have h : Formula.parse "0.1 * x ^ 1000000 - 12345.678 * 0.00000000000000012" =
      .ok shortTree := by
    decide +kernel
  refine ⟨h, (ofJson_toJson_iff h).2 fun v hv => ?_⟩
  simp only [shortTree, Formula.yield, Formula.yieldAll, List.cons_append, List.nil_append,
    List.append_nil, List.mem_cons, Formula.Token.number.injEq, List.not_mem_nil, or_false,
    reduceCtorEq, false_or] at hv
  rcases hv with rfl | rfl | rfl | rfl <;> decide +kernel

/-- A literal of sixteen digits that is read from its document as the next double. -/
theorem ofJson_misses_number :
    Formula.parse "9.063509719739367" = .ok (.number 9.063509719739367) ∧
      ofJson (Expr.number 9.063509719739367).toJson = .ok (.number 9.063509719739368) ∧
        Expr.number 9.063509719739368 ≠ .number 9.063509719739367 := by
  decide +kernel

end Expr

end GlyphMath
