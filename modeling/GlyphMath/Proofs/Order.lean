import GlyphMath.Proofs.Double

/-!
# Doubles in order

* `Binary.key` -- the place of a double that is a number in the total order.
* `totalKey_eq` -- the total order of the bits is that of the places.
* `key_lt_of_compare` -- a smaller number has a smaller place.
* `totalKey_inj` -- different doubles have different places.
* `not_le_iff` -- when a double is not at most another one.

Principal result:

* `totalKey_lt` -- the total order of doubles agrees with their order as numbers.
-/

set_option autoImplicit false

namespace GlyphMath.Decimal

open Float.Model Float.Model.UnpackedFloat

/-- A place with a sign, where the negative ones count downwards from `-1`. -/
def signedKey (negative : Bool) (magnitude : Nat) : Int :=
  if negative then -(magnitude : Int) - 1 else magnitude

/-- The place of a double that is a number in the total order. -/
def Binary.key : Binary → Int
  | .nan => 0
  | .infinite negative => signedKey negative (2047 * 2 ^ 52)
  | .finite negative significand scale => signedKey negative (scale * 2 ^ 52 + significand)

/-- The bits of a double that is a number, but for the sign. -/
theorem bits_eq {x : Float} (h : Binary.ofFloat x ≠ .nan) :
    ∃ negative magnitude, (Binary.ofFloat x).key = signedKey negative magnitude ∧
      isSignSet x = negative ∧
        x.toBits.toNat = (if negative then 2 ^ 63 else 0) + magnitude := by
  obtain ⟨h11, h52, h63⟩ := twoTo_fields
  have hlt : x.toBits.toNat < 2 ^ 64 := x.toBits.toNat_lt
  have hsign : x.toBits.toNat / 2 ^ 63 = if isSignSet x then 1 else 0 := by
    unfold isSignSet
    rw [h63]
    split <;> rename_i hset <;> simp at hset <;> omega
  cases hx : Binary.ofFloat x with
  | nan => exact absurd hx h
  | infinite negative =>
    refine ⟨negative, 2047 * 2 ^ 52, rfl, ?_⟩
    unfold Binary.ofFloat at hx
    simp only [h11, h52, beq_iff_eq] at hx
    split at hx
    · split at hx
      · rw [Binary.infinite.injEq] at hx
        rw [hx] at hsign
        refine ⟨hx, ?_⟩
        cases negative <;> simp at hsign ⊢ <;> omega
      · cases hx
    · split at hx <;> cases hx
  | finite negative s k =>
    refine ⟨negative, k * 2 ^ 52 + s, rfl, ?_⟩
    unfold Binary.ofFloat at hx
    simp only [h11, h52, beq_iff_eq] at hx
    split at hx
    · split at hx <;> cases hx
    · split at hx
      all_goals
        rw [Binary.finite.injEq] at hx
        rw [hx.1] at hsign
        refine ⟨hx.1, ?_⟩
        cases negative <;> simp at hsign ⊢ <;> omega

/-- **The total order of the bits** is that of the places of the numbers. -/
theorem totalKey_eq {x : Float} (h : Binary.ofFloat x ≠ .nan) :
    totalKey x = (Binary.ofFloat x).key := by
  obtain ⟨negative, magnitude, hkey, hsign, hbits⟩ := bits_eq h
  obtain ⟨-, -, h63⟩ := twoTo_fields
  unfold totalKey
  rw [hkey, signedKey, hsign, hbits, h63]
  cases negative <;> simp

/-- What is known of the fields of a double. -/
def Binary.IsProper : Binary → Prop
  | .finite _ significand scale => IsCanonical significand scale ∧ scale ≤ 2045
  | _ => True

theorem isProper_ofFloat (x : Float) : (Binary.ofFloat x).IsProper := by
  cases h : Binary.ofFloat x with
  | nan => trivial
  | infinite negative => trivial
  | finite negative s k => exact (isCanonical_of_finite h).2

/-- Of two numbers with a sign in common the one of the smaller scale, or of the smaller
significand at the same scale, is the smaller one but for the sign. -/
theorem magnitude_lt {s k s' k' : Nat} (h : IsCanonical s k) (h' : IsCanonical s' k')
    (hlt : (compare ((k : Int) - 1074) ((k' : Int) - 1074)).then (compare s s') = .lt) :
    k * 2 ^ 52 + s < k' * 2 ^ 52 + s' := by
  obtain ⟨hs, hk⟩ := h
  obtain ⟨hs', hk'⟩ := h'
  rw [Ordering.then_eq_lt] at hlt
  rcases hlt with hscale | ⟨hscale, hsignificand⟩
  · rw [Int.compare_eq_lt] at hscale
    omega
  · rw [Int.compare_eq_eq] at hscale
    rw [Nat.compare_eq_lt] at hsignificand
    omega

theorem compare_notANumber (u : UnpackedFloat) : u.compare .notANumber = none := by
  cases u <;> rfl

theorem unpacked_finite (negative : Bool) {s : Nat} (k : Nat) (hs : 0 < s) :
    (Binary.finite negative s k).unpacked =
      .finite (if negative then .negative else .positive) s ((k : Int) - 1074) hs :=
  dif_neg (Nat.ne_of_gt hs)

theorem signedKey_mixed (m m' : Nat) : signedKey true m < signedKey false m' := by
  simp only [signedKey, if_true, Bool.false_eq_true, if_false]
  omega

theorem signedKey_positive {m m' : Nat} (h : m < m') : signedKey false m < signedKey false m' := by
  simp only [signedKey, Bool.false_eq_true, if_false]
  omega

theorem signedKey_negative {m m' : Nat} (h : m' < m) : signedKey true m < signedKey true m' := by
  simp only [signedKey, if_true]
  omega

/-- The places of finite numbers lie between those of the infinities. -/
theorem place_lt_infinite {s k : Nat} (h : IsCanonical s k) (hk : k ≤ 2045) :
    k * 2 ^ 52 + s < 2047 * 2 ^ 52 := by
  have := h.1
  omega

theorem place_nought_lt {s k : Nat} (k' : Nat) (h : IsCanonical 0 k) (hs : 0 < s) :
    k * 2 ^ 52 + 0 < k' * 2 ^ 52 + s := by
  have := h.2
  omega

section

variable {negative negative' : Bool} {s k s' k' : Nat}

theorem key_lt_of_finite (hs : IsCanonical s k) (hs' : IsCanonical s' k')
    (h : (Binary.finite negative s k).unpacked.compare (Binary.finite negative' s' k').unpacked =
      some .lt) : (Binary.finite negative s k).key < (Binary.finite negative' s' k').key := by
  rcases Nat.eq_zero_or_pos s with rfl | hpos <;> rcases Nat.eq_zero_or_pos s' with rfl | hpos'
  · cases negative <;> cases negative' <;> cases h
  · rw [unpacked_finite _ _ hpos'] at h
    have hplace := place_nought_lt k' hs hpos'
    cases negative <;> cases negative'
    · exact signedKey_positive hplace
    · cases h
    · exact signedKey_mixed _ _
    · cases h
  · rw [unpacked_finite _ _ hpos] at h
    have hplace := place_nought_lt k hs' hpos
    cases negative <;> cases negative'
    · cases h
    · cases h
    · exact signedKey_mixed _ _
    · exact signedKey_negative hplace
  · rw [unpacked_finite _ _ hpos, unpacked_finite _ _ hpos'] at h
    cases negative <;> cases negative'
    · exact signedKey_positive (magnitude_lt hs hs' (Option.some.inj h))
    · cases h
    · exact signedKey_mixed _ _
    · have hswap : ((compare ((k : Int) - 1074) ((k' : Int) - 1074)).then (compare s s')).swap =
          .lt := Option.some.inj h
      rw [Ordering.swap_then, Int.compare_swap, Nat.compare_swap] at hswap
      exact signedKey_negative (magnitude_lt hs' hs hswap)

/-- No number is greater than infinity, and none is smaller than its negative. -/
theorem compare_infinite :
    (Binary.infinite false).unpacked.compare (Binary.finite negative s k).unpacked ≠ some .lt ∧
      (Binary.finite negative s k).unpacked.compare (Binary.infinite true).unpacked ≠ some .lt := by
  rcases Nat.eq_zero_or_pos s with rfl | hpos
  · exact ⟨nofun, nofun⟩
  · rw [unpacked_finite _ _ hpos]
    exact ⟨nofun, nofun⟩

end

/-- A smaller number has a smaller place. -/
theorem key_lt_of_compare {a b : Binary} (ha : a.IsProper) (hb : b.IsProper)
    (h : a.unpacked.compare b.unpacked = some .lt) : a.key < b.key := by
  cases a with
  | nan => cases h
  | infinite negative =>
    cases b with
    | nan =>
      rw [Binary.unpacked, Binary.unpacked, compare_notANumber] at h
      cases h
    | infinite negative' => cases negative <;> cases negative' <;> first | decide | cases h
    | finite negative' s' k' =>
      cases negative with
      | false => exact absurd h compare_infinite.1
      | true =>
        cases negative' with
        | false => exact signedKey_mixed _ _
        | true => exact signedKey_negative (place_lt_infinite hb.1 hb.2)
  | finite negative s k =>
    cases b with
    | nan =>
      rw [Binary.unpacked.eq_1, compare_notANumber] at h
      cases h
    | infinite negative' =>
      cases negative' with
      | true => exact absurd h compare_infinite.2
      | false =>
        cases negative with
        | false => exact signedKey_positive (place_lt_infinite ha.1 ha.2)
        | true => exact signedKey_mixed _ _
    | finite negative' s' k' => exact key_lt_of_finite ha.1 hb.1 h

theorem lt_iff_compare {x y : Float} :
    x < y ↔ x.toModel.unpack.compare y.toModel.unpack = some .lt := by
  show Float.lt x y = true ↔ _
  unfold Float.lt
  rw [decide_eq_true_iff]
  show Float.Model.lt _ _ = true ↔ _
  unfold Float.Model.lt UnpackedFloat.lt
  rw [beq_iff_eq]

/-- **The total order of doubles agrees with their order as numbers.** -/
theorem totalKey_lt {x y : Float} (h : x < y) : totalKey x < totalKey y := by
  rw [lt_iff_compare, unpack_toModel, unpack_toModel] at h
  have hx : Binary.ofFloat x ≠ .nan := by
    intro hnan
    rw [hnan] at h
    cases h
  have hy : Binary.ofFloat y ≠ .nan := by
    intro hnan
    rw [hnan, Binary.unpacked.eq_1, compare_notANumber] at h
    cases h
  rw [totalKey_eq hx, totalKey_eq hy]
  exact key_lt_of_compare (isProper_ofFloat x) (isProper_ofFloat y) h

theorem totalKey_inj {x y : Float} : totalKey x = totalKey y ↔ x = y := by
  obtain ⟨-, -, h63⟩ := twoTo_fields
  constructor
  · intro h
    unfold totalKey isSignSet at h
    simp only [h63, decide_eq_true_eq] at h
    apply eq_of_toBits
    split at h <;> split at h <;> omega
  · rintro rfl
    rfl

/-! ## At most -/

theorem compare_swap (u v : UnpackedFloat) : v.compare u = (u.compare v).map Ordering.swap := by
  cases u with
  | notANumber => exact compare_notANumber v
  | infinity s =>
    cases v with
    | notANumber => rfl
    | infinity s' => cases s <;> cases s' <;> rfl
    | zero s' => cases s <;> rfl
    | finite s' m e h => cases s <;> rfl
  | zero s =>
    cases v with
    | notANumber => rfl
    | infinity s' => cases s' <;> rfl
    | zero s' => rfl
    | finite s' m e h => cases s' <;> rfl
  | finite s m e h =>
    cases v with
    | notANumber => rfl
    | infinity s' => cases s' <;> rfl
    | zero s' => cases s <;> rfl
    | finite s' m' e' h' =>
      have hswap : (compare e' e).then (compare m' m) =
          ((compare e e').then (compare m m')).swap := by
        rw [Ordering.swap_then, Int.compare_swap, Nat.compare_swap]
      cases s <;> cases s'
      · exact congrArg some (congrArg Ordering.swap hswap)
      · rfl
      · rfl
      · exact congrArg some hswap

theorem isNaN_iff {u : UnpackedFloat} : u.isNaN = true ↔ u = .notANumber := by
  cases u with
  | notANumber => exact ⟨fun _ => rfl, fun _ => rfl⟩
  | infinity | zero | finite =>
    constructor
    · intro h
      exact absurd h Bool.false_ne_true
    · intro h
      cases h

theorem exists_compare {u v : UnpackedFloat} (hu : u ≠ .notANumber) (hv : v ≠ .notANumber) :
    ∃ o, u.compare v = some o := by
  cases u with
  | notANumber => exact absurd rfl hu
  | infinity s =>
    cases v with
    | notANumber => exact absurd rfl hv
    | infinity s' => exact ⟨_, rfl⟩
    | zero s' => cases s <;> exact ⟨_, rfl⟩
    | finite s' m e h => cases s <;> exact ⟨_, rfl⟩
  | zero s =>
    cases v with
    | notANumber => exact absurd rfl hv
    | infinity s' => cases s' <;> exact ⟨_, rfl⟩
    | zero s' => exact ⟨_, rfl⟩
    | finite s' m e h => cases s' <;> exact ⟨_, rfl⟩
  | finite s m e h =>
    cases v with
    | notANumber => exact absurd rfl hv
    | infinity s' => cases s' <;> exact ⟨_, rfl⟩
    | zero s' => cases s <;> exact ⟨_, rfl⟩
    | finite s' m' e' h' => cases s <;> cases s' <;> exact ⟨_, rfl⟩

/-- Only what is no number cannot be compared. -/
theorem compare_eq_none {u v : UnpackedFloat} :
    u.compare v = none ↔ u.isNaN = true ∨ v.isNaN = true := by
  rw [isNaN_iff, isNaN_iff]
  constructor
  · intro h
    by_contra hnumbers
    obtain ⟨hu, hv⟩ := not_or.1 hnumbers
    obtain ⟨o, ho⟩ := exists_compare hu hv
    rw [ho] at h
    cases h
  · rintro (rfl | rfl)
    · rfl
    · exact compare_notANumber u

theorem le_iff_compare {x y : Float} :
    x ≤ y ↔ (x.toModel.unpack.compare y.toModel.unpack).any (·.isLE) = true := by
  show Float.le x y = true ↔ _
  unfold Float.le
  rw [decide_eq_true_iff]
  show Float.Model.le _ _ = true ↔ _
  unfold Float.Model.le UnpackedFloat.le
  exact Iff.rfl

/-- **A double is at most another one** unless it is greater or one of them is no number. -/
theorem not_le_iff {x y : Float} :
    ¬ x ≤ y ↔ y < x ∨ x.isNaN = true ∨ y.isNaN = true := by
  have hnan : x.isNaN = true ∨ y.isNaN = true ↔
      x.toModel.unpack.compare y.toModel.unpack = none := compare_eq_none.symm
  rw [le_iff_compare, lt_iff_compare, hnan, compare_swap x.toModel.unpack]
  cases x.toModel.unpack.compare y.toModel.unpack with
  | none => simp
  | some o => cases o <;> decide

end GlyphMath.Decimal
