import GlyphMath.Proofs.Scientific

/-!
# The plain text of a double reads back

* `AreDigits`, `Leading` -- digits, and digits that do not start with a zero.
* `Positional` -- digits, perhaps with a point and further digits, and the number they stand for.
* `positional_ofMultiple` -- the digits of a multiple of a power of ten, written out, stand for that
  multiple.
* `shortest_contains` -- the digits chosen for a double lie in its interval.

Principal result:

* `literalValue_plain` -- the text of a finite double without a sign is a literal, and reading it
  gives the double again.
-/

set_option autoImplicit false

namespace GlyphMath.Decimal

open GlyphMath.Formula

/-! ## Digits -/

theorem digitsValue_eq (ds : List Char) : digitsValue ds = Nat.ofDigitChars 10 ds 0 := rfl

theorem digitsValue_append (ds es : List Char) :
    digitsValue (ds ++ es) = 10 ^ es.length * digitsValue ds + digitsValue es := by
  rw [digitsValue_eq, digitsValue_eq, digitsValue_eq, Nat.ofDigitChars_append,
    Nat.ofDigitChars_eq_ofDigitChars_zero]

theorem digitsValue_zeros (n : Nat) : digitsValue (List.replicate n '0') = 0 := by
  rw [digitsValue_eq, Nat.ofDigitChars_replicate_zero, Nat.mul_zero]

theorem digitsValue_append_zeros (ds : List Char) (n : Nat) :
    digitsValue (ds ++ List.replicate n '0') = digitsValue ds * 10 ^ n := by
  rw [digitsValue_append, digitsValue_zeros, List.length_replicate, Nat.add_zero, Nat.mul_comm]

theorem digitsValue_natDigits (n : Nat) : digitsValue (natDigits n) = n :=
  Nat.ofDigitChars_ten_toDigits

theorem isDigit_iff {c : Char} : isDigit c = true ↔ 48 ≤ c.toNat ∧ c.toNat ≤ 57 := by
  unfold isDigit
  rw [Bool.and_eq_true, decide_eq_true_iff, decide_eq_true_iff, Char.le_def, Char.le_def,
    UInt32.le_iff_toNat_le, UInt32.le_iff_toNat_le]
  rfl

theorem isDigit_natDigits {n : Nat} {c : Char} (h : c ∈ natDigits n) : isDigit c = true :=
  isDigit_iff.2 (Char.isDigit_iff_toNat.1 (Nat.isDigit_of_mem_toDigits (by decide) (by decide) h))

theorem isDigit_zeros {n : Nat} {c : Char} (h : c ∈ List.replicate n '0') : isDigit c = true := by
  rw [(List.mem_replicate.1 h).2]
  decide

theorem dropTrailingZeros_append (ds : List Char) :
    ∃ n, ds = dropTrailingZeros ds ++ List.replicate n '0' := by
  have hzeros : ∀ c ∈ ds.reverse.takeWhile (· == '0'), c = '0' := fun c hc =>
    eq_of_beq (List.all_eq_true.1 List.all_takeWhile c hc)
  refine ⟨(ds.reverse.takeWhile (· == '0')).length, ?_⟩
  rw [← List.reverse_replicate, ← List.eq_replicate_of_mem hzeros, dropTrailingZeros,
    ← List.reverse_append, List.takeWhile_append_dropWhile, List.reverse_reverse]

/-- At least one digit, and nothing else. -/
def AreDigits (ds : List Char) : Prop := ds ≠ [] ∧ ∀ c ∈ ds, isDigit c = true

/-- Digits that do not start with a zero. -/
structure Leading (ds : List Char) : Prop where
  digits : AreDigits ds
  first : ∀ c ∈ ds.head?, c ≠ '0'

theorem areDigits_natDigits (n : Nat) : AreDigits (natDigits n) :=
  ⟨Nat.toDigits_ne_nil, fun _ => isDigit_natDigits⟩

theorem areDigits_zero : AreDigits ['0'] := ⟨List.cons_ne_nil _ _, fun _ => isDigit_zeros (n := 1)⟩

theorem digitChar_ne_zero : ∀ n < 10, 0 < n → Nat.digitChar n ≠ '0' := by decide

theorem leading_natDigits {n : Nat} (hn : 0 < n) : Leading (natDigits n) := by
  refine ⟨areDigits_natDigits n, ?_⟩
  induction n using Nat.strongRecOn with
  | ind n ih =>
    intro c hc
    rw [natDigits, Nat.toDigits_eq_if (by decide)] at hc
    split at hc
    · rename_i hlt
      cases hc
      exact digitChar_ne_zero n hlt hn
    · rw [List.head?_append, List.head?_eq_some_head Nat.toDigits_ne_nil, Option.some_or,
        ← List.head?_eq_some_head] at hc
      exact ih (n / 10) (by omega) (by omega) c hc

theorem Leading.dropTrailingZeros {ds : List Char} (h : Leading ds) :
    Leading (dropTrailingZeros ds) := by
  obtain ⟨z, hz⟩ := dropTrailingZeros_append ds
  have hne : Decimal.dropTrailingZeros ds ≠ [] := by
    intro hnil
    rw [hnil, List.nil_append] at hz
    cases z with
    | zero => exact h.digits.1 hz
    | succ z => exact h.first '0' (by rw [hz]; rfl) rfl
  refine ⟨⟨hne, fun c hc => h.digits.2 c ?_⟩, fun c hc => h.first c ?_⟩
  · rw [hz]
    exact List.mem_append_left _ hc
  · rw [hz, List.head?_append, List.head?_eq_some_head hne, Option.some_or,
      ← List.head?_eq_some_head]
    exact hc

/-! ## Numbers without an exponent -/

/-- `Positional text n places`: the text is digits, perhaps with a point and further digits, and
stands for `n / 10^places`. -/
inductive Positional : List Char → Nat → Nat → Prop where
  | whole {ds : List Char} (hne : ds ≠ []) (hds : ∀ c ∈ ds, isDigit c = true) :
      Positional ds (digitsValue ds) 0
  | fraction {ds fs : List Char} (hne : ds ≠ []) (hds : ∀ c ∈ ds, isDigit c = true)
      (hfs : ∀ c ∈ fs, isDigit c = true) :
      Positional (ds ++ '.' :: fs) (digitsValue (ds ++ fs)) fs.length

theorem positional_digits {ds : List Char} (hne : ds ≠ []) (hdigits : ∀ c ∈ ds, isDigit c = true)
    (z : Nat) (grid : Int) :
    ∃ n places, Positional (Digits.positional ⟨ds, (ds.length + z : Nat) + grid⟩) n places ∧
      n * 10 ^ (-grid).toNat = digitsValue ds * 10 ^ z * 10 ^ grid.toNat * 10 ^ places := by
  unfold Digits.positional
  dsimp only
  split
  · refine ⟨_, _, .fraction (List.cons_ne_nil '0' []) (fun _ => isDigit_zeros (n := 1)) ?_, ?_⟩
    · intro c hmem
      exact (List.mem_append.1 hmem).elim isDigit_zeros (hdigits c)
    · have hzero : digitsValue ('0' :: (List.replicate (-(((ds.length + z : Nat) : Int) + grid)).toNat
          '0' ++ ds)) = digitsValue ds := by
        rw [← List.cons_append, ← List.replicate_succ, digitsValue_append, digitsValue_zeros,
          Nat.mul_zero, Nat.zero_add]
      rw [List.length_append, List.length_replicate]
      refine Eq.trans (congrArg (· * _) hzero) ?_
      rw [Nat.mul_assoc, Nat.mul_assoc, ← Nat.pow_add, ← Nat.pow_add]
      congr 2
      omega
  · split
    · refine ⟨_, _, .whole ?_ ?_, ?_⟩
      · exact fun h => hne (List.append_eq_nil_iff.1 h).1
      · intro c hmem
        exact (List.mem_append.1 hmem).elim (hdigits c) isDigit_zeros
      · rw [digitsValue_append_zeros, Nat.mul_assoc, Nat.mul_assoc, Nat.mul_assoc, ← Nat.pow_add,
          ← Nat.pow_add, ← Nat.pow_add]
        congr 2
        omega
    · refine ⟨_, _, .fraction ?_ ?_ ?_, ?_⟩
      · intro h
        rw [List.take_eq_nil_iff] at h
        exact h.elim (by omega) hne
      · exact fun c hmem => hdigits c (List.mem_of_mem_take hmem)
      · exact fun c hmem => hdigits c (List.mem_of_mem_drop hmem)
      · rw [List.take_append_drop, List.length_drop, Nat.mul_assoc, Nat.mul_assoc, ← Nat.pow_add,
          ← Nat.pow_add]
        congr 2
        omega

/-- **A multiple of a power of ten, written out, stands for that multiple.** -/
theorem positional_ofMultiple {count : Nat} (hc : 0 < count) (grid : Int) :
    ∃ n places, Positional (Digits.ofMultiple count grid).positional n places ∧
      n * 10 ^ (-grid).toNat = count * 10 ^ grid.toNat * 10 ^ places := by
  obtain ⟨z, hz⟩ := dropTrailingZeros_append (natDigits count)
  have hvalue : count = digitsValue (dropTrailingZeros (natDigits count)) * 10 ^ z := by
    rw [← digitsValue_append_zeros, ← hz, digitsValue_natDigits]
  have hlength := congrArg List.length hz
  rw [List.length_append, List.length_replicate] at hlength
  have hleading := (leading_natDigits hc).dropTrailingZeros
  have h := positional_digits hleading.digits.1 hleading.digits.2 z grid
  rwa [← hvalue, ← hlength] at h

/-! ## The digits chosen for a double -/

/-- A multiple of a power of ten as a quotient that counts quarter ticks. -/
theorem candidate_contains {tie : Tie} {r : Rounding} {grid : Int} {count : Nat}
    (h : candidate tie r grid = some count) :
    r.contains (count * (tenTo grid.toNat * (4 * ticksPerOne))) (tenTo (-grid).toNat) = true := by
  unfold candidate at h
  dsimp only at h
  split at h
  · cases h
  · rename_i hbelow _
    cases h
    exact hbelow
  · rename_i _ habove
    cases h
    exact habove
  · rename_i hbelow habove
    split at h
    · cases h
      exact hbelow
    · split at h
      · cases h
        exact habove
      · split at h
        · cases h
          exact habove
        · split at h <;> cases h
          · exact hbelow
          · exact habove

/-- Every double has an exact decimal representation. -/
theorem quarterTicks_dvd : 4 * ticksPerOne ∣ tenTo 1076 := by
  decide +kernel

/-- **The digits chosen for a double lie in its interval.** -/
theorem shortest_contains (tie : Tie) {s : Nat} (k : Nat) (hs : 0 < s) :
    ∃ count grid, shortest tie s k = Digits.ofMultiple count grid ∧ 0 < count ∧
      (Binary.rounding s k).contains (count * (tenTo grid.toNat * (4 * ticksPerOne)))
        (tenTo (-grid).toNat) = true := by
  have hpos : ∀ {count grid}, (Binary.rounding s k).contains
      (count * (tenTo grid.toNat * (4 * ticksPerOne))) (tenTo (-grid).toNat) = true → 0 < count := by
    intro count grid h
    rcases Nat.eq_zero_or_pos count with rfl | hcount
    · have hzero := Rounding.contains_zero k hs (f := tenTo (-grid).toNat) (Nat.pow_pos (by decide))
      rw [Nat.zero_mul, hzero] at h
      cases h
    · exact hcount
  unfold shortest
  dsimp only
  split
  · rename_i count grid h
    obtain ⟨g, -, hg⟩ := List.exists_of_findSome?_eq_some h
    obtain ⟨c, hc, heq⟩ := Option.map_eq_some_iff.1 hg
    obtain ⟨rfl, rfl⟩ := Prod.mk.inj heq
    have hin := candidate_contains hc
    exact ⟨_, _, rfl, hpos hin, hin⟩
  · have hexact : (Binary.rounding s k).contains
        ((Binary.rounding s k).value * tenTo 1076 / (4 * ticksPerOne) *
          (tenTo (-1076 : Int).toNat * (4 * ticksPerOne))) (tenTo (- -1076 : Int).toNat) = true := by
      rw [show tenTo (-1076 : Int).toNat = 1 from rfl, Nat.one_mul,
        Nat.div_mul_cancel (Dvd.dvd.mul_left quarterTicks_dvd _)]
      exact Rounding.contains_value k hs (Nat.pow_pos (by decide))
    exact ⟨_, _, rfl, hpos hexact, hexact⟩

/-- **The digits chosen for a double** do not start with a zero. -/
theorem leading_shortest (tie : Tie) {s : Nat} (k : Nat) (hs : 0 < s) :
    Leading (shortest tie s k).digits := by
  obtain ⟨count, grid, hdigits, hcount, -⟩ := shortest_contains tie k hs
  rw [hdigits]
  exact (leading_natDigits hcount).dropTrailingZeros

/-! ## Reading the text -/

theorem takeWhile_digits {ds : List Char} (hds : ∀ c ∈ ds, isDigit c = true) (rest : List Char)
    (hrest : ∀ c ∈ rest.head?, isDigit c = false) :
    (ds ++ rest).takeWhile isDigit = ds ∧ (ds ++ rest).dropWhile isDigit = rest := by
  have hstop : rest.takeWhile isDigit = [] ∧ rest.dropWhile isDigit = rest := by
    cases rest with
    | nil => exact ⟨rfl, rfl⟩
    | cons c rest =>
      have hc := hrest c rfl
      simp [hc]
  rw [List.takeWhile_append_of_pos hds, List.dropWhile_append_of_pos hds, hstop.1, hstop.2,
    List.append_nil]
  exact ⟨rfl, rfl⟩

theorem literalValue_whole {ds : List Char} (hds : ∀ c ∈ ds, isDigit c = true) :
    literalValue ds = nearest (digitsValue ds) 0 := by
  have hsplit := takeWhile_digits hds [] (by simp)
  rw [List.append_nil] at hsplit
  unfold literalValue
  dsimp only
  rw [hsplit.1, hsplit.2, List.drop_nil, List.append_nil]
  rfl

theorem literalValue_fraction {ds : List Char} (hds : ∀ c ∈ ds, isDigit c = true)
    (fs : List Char) :
    literalValue (ds ++ '.' :: fs) = nearest (digitsValue (ds ++ fs)) (-(fs.length : Int)) := by
  have hsplit := takeWhile_digits hds ('.' :: fs) (by simp; decide)
  unfold literalValue
  dsimp only
  rw [hsplit.1, hsplit.2, List.drop_one, List.tail_cons]

theorem literalValue_positional {text : List Char} {n places : Nat}
    (h : Positional text n places) : literalValue text = nearest n (-(places : Int)) := by
  cases h with
  | whole hne hds => exact literalValue_whole hds
  | fraction hne hds => exact literalValue_fraction hds _

theorem nearest_zero (e : Int) : nearest 0 e = ofPair (0, 0) := by
  unfold nearest
  rw [if_pos rfl]
  decide +kernel

theorem nearest_shortest (tie : Tie) {s k : Nat} (hs : 0 < s) (hc : IsCanonical s k)
    (hk : k ≤ 2045) :
    ∃ n places, Positional (shortest tie s k).positional n places ∧
      nearest n (-(places : Int)) = ofPair (s, k) := by
  obtain ⟨count, grid, hdigits, hcount, hin⟩ := shortest_contains tie k hs
  obtain ⟨n, places, htext, hvalue⟩ := positional_ofMultiple hcount grid
  have hten : ∀ m, 0 < 10 ^ m := fun m => Nat.pow_pos (by decide)
  have hn : 0 < n := by
    rcases Nat.eq_zero_or_pos n with rfl | hn
    · have := Nat.mul_pos (Nat.mul_pos hcount (hten grid.toNat)) (hten places)
      omega
    · exact hn
  refine ⟨n, places, hdigits ▸ htext, nearest_of_contains hn hs hc hk ?_⟩
  rw [← hin]
  refine Rounding.contains_congr (hten _) (hten _) ?_
  show 4 * (n * 10 ^ (-(places : Int)).toNat * ticksPerOne) * 10 ^ (-grid).toNat =
    count * (10 ^ grid.toNat * (4 * ticksPerOne)) * 10 ^ (- -(places : Int)).toNat
  rw [Int.neg_neg, Int.toNat_natCast, show (-(places : Int)).toNat = 0 by omega, Nat.pow_zero,
    Nat.mul_one]
  calc 4 * (n * ticksPerOne) * 10 ^ (-grid).toNat
      = n * 10 ^ (-grid).toNat * (4 * ticksPerOne) := by ring
    _ = count * (10 ^ grid.toNat * (4 * ticksPerOne)) * 10 ^ places := by
        rw [hvalue]
        ring

/-- The text of a finite double without a sign is a literal, and what it stands for is nearest to
the double. -/
theorem plain_positional {x : Float} {s k : Nat} (h : Binary.ofFloat x = .finite false s k) :
    ∃ n places, Positional (plain x) n places ∧ nearest n (-(places : Int)) = x := by
  obtain ⟨-, hc, hk⟩ := isCanonical_of_finite h
  have hx := eq_ofPair h
  unfold plain
  rw [h]
  dsimp only
  rw [show signText false = [] from rfl, List.nil_append]
  rcases Nat.eq_zero_or_pos s with rfl | hs
  · rw [if_pos (by decide)]
    refine ⟨_, _, .whole (List.cons_ne_nil '0' []) (fun _ => isDigit_zeros (n := 1)), ?_⟩
    have hk0 : k = 0 := hc.2.resolve_right (Nat.not_le_of_lt (Nat.two_pow_pos 52))
    rw [show digitsValue ['0'] = 0 from rfl, nearest_zero, hx, hk0]
  · rw [if_neg (by simpa using Nat.ne_of_gt hs), hx]
    exact nearest_shortest .upward hs hc hk

theorem plain_of_negative {x : Float} {s k : Nat} (h : Binary.ofFloat x = .finite true s k) :
    plain x = '-' :: plain x.abs := by
  unfold plain
  rw [h, ofFloat_abs h]
  rfl

/-- **Reading the text of a double gives the double.** -/
theorem literalValue_plain {x : Float} {s k : Nat} (h : Binary.ofFloat x = .finite false s k) :
    literalValue (plain x) = x := by
  obtain ⟨n, places, htext, hvalue⟩ := plain_positional h
  rw [literalValue_positional htext, hvalue]

end GlyphMath.Decimal
