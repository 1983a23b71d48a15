import GlyphMath.Json.Number
import GlyphMath.Json.Token
import GlyphMath.Json.Writer
import GlyphMath.Proofs.PlainText

/-!
# The numbers of a document as they are written

* `Numeral.text` -- a numeral written out, and `Numeral.IsWritten`, that its digits are digits.
* `SpellsNumeral` -- the texts of a numeral, which differ in their exponents.
* `Ends` -- text that a number before it cannot run into.
* `numeralOf`, `floatNumeral?`, `Number.numeral?` -- the numerals that digits, doubles and numbers
  are written as.

Principal results:

* `scanNumeral_append`, `spellsNumeral_of_scan` -- the texts that are scanned as a numeral.
* `numberText_eq` -- a number is its numeral written out, or the word for no value.
-/

set_option autoImplicit false

namespace GlyphMath.Json

open GlyphMath.Decimal

/-! ## Numerals -/

def fractionText : Option (List Char) → List Char
  | none => []
  | some ds => '.' :: ds

def exponentText : Option ExponentText → List Char
  | none => []
  | some e => 'e' :: (if e.negative then '-' else '+') :: e.digits

namespace Numeral

/-- A numeral written out. -/
def text (n : Numeral) : List Char :=
  signText n.negative ++ (n.whole ++ (fractionText n.fraction ++ exponentText n.exponent))

/-- The digits of a numeral are digits where they have to be. -/
structure IsWritten (n : Numeral) : Prop where
  whole : n.whole = ['0'] ∨ Leading n.whole
  fraction : ∀ ds ∈ n.fraction, AreDigits ds
  exponent : ∀ e ∈ n.exponent, AreDigits e.digits

end Numeral

/-- The signs of an exponent: a plus may be left out. -/
def exponentSigns (negative : Bool) : List (List Char) := if negative then [['-']] else [['+'], []]

inductive SpellsExponent : List Char → Option ExponentText → Prop where
  | none : SpellsExponent [] none
  | some {letter : Char} {sign : List Char} {e : ExponentText}
      (hletter : letter = 'e' ∨ letter = 'E') (hsign : sign ∈ exponentSigns e.negative)
      (hdigits : AreDigits e.digits) :
      SpellsExponent (letter :: (sign ++ e.digits)) (some e)

inductive SpellsNumeral : List Char → Numeral → Prop where
  | mk {n : Numeral} {exponent : List Char} (whole : n.whole = ['0'] ∨ Leading n.whole)
      (fraction : ∀ ds ∈ n.fraction, AreDigits ds) (spelled : SpellsExponent exponent n.exponent) :
      SpellsNumeral (signText n.negative ++ (n.whole ++ (fractionText n.fraction ++ exponent))) n

theorem spellsExponent_text {exponent : Option ExponentText}
    (h : ∀ e ∈ exponent, AreDigits e.digits) : SpellsExponent (exponentText exponent) exponent := by
  cases exponent with
  | none => exact .none
  | some e =>
    have hsign : [if e.negative then '-' else '+'] ∈ exponentSigns e.negative := by
      cases e.negative <;> decide
    exact .some (Or.inl rfl) hsign (h _ rfl)

theorem spellsNumeral_text {n : Numeral} (hn : n.IsWritten) : SpellsNumeral n.text n :=
  .mk hn.whole hn.fraction (spellsExponent_text hn.exponent)

theorem areDigits_whole {ds : List Char} (h : ds = ['0'] ∨ Leading ds) : AreDigits ds := by
  rcases h with rfl | hleading
  · exact areDigits_zero
  · exact hleading.digits

/-- A numeral starts with a digit or a sign. -/
theorem SpellsNumeral.cons {word : List Char} {n : Numeral} (h : SpellsNumeral word n) :
    ∃ c rest, word = c :: rest ∧ (isDigit c = true ∨ c = '-') := by
  obtain ⟨whole, -, -⟩ := h
  cases n.negative with
  | true => exact ⟨'-', _, rfl, Or.inr rfl⟩
  | false =>
    obtain ⟨hne, hdigits⟩ := areDigits_whole whole
    obtain ⟨c, ds, hds⟩ := List.exists_cons_of_ne_nil hne
    refine ⟨c, _, by rw [hds]; rfl, Or.inl (hdigits c ?_)⟩
    rw [hds]
    exact List.mem_cons_self

/-! ## Scanning numerals -/

/-- Text that starts with a blank, a comma or a closing bracket, if with anything. -/
def Ends (rest : List Char) : Prop :=
  ∀ c ∈ rest.head?, isBlank c = true ∨ c = ',' ∨ c = ']' ∨ c = '\x7d'

theorem Ends.head {rest : List Char} (h : Ends rest) :
    ∀ c ∈ rest.head?, isDigit c = false ∧ c ≠ '.' ∧ (c == 'e' || c == 'E') = false := by
  intro c hc
  have hcases := h c hc
  simp only [isBlank, Bool.or_eq_true, beq_iff_eq] at hcases
  rcases hcases with (((rfl | rfl) | rfl) | rfl) | rfl | rfl | rfl <;> decide

theorem scanDigits_append {ds : List Char} (hds : AreDigits ds) (rest : List Char)
    (hrest : ∀ c ∈ rest.head?, isDigit c = false) : scanDigits (ds ++ rest) = some (ds, rest) := by
  have hspan := takeWhile_digits hds.2 rest hrest
  unfold scanDigits spanDigits
  rw [hspan.1, hspan.2]
  exact if_neg (by simpa using hds.1)

theorem scanWhole_append {ds : List Char} (hds : ds = ['0'] ∨ Leading ds) (rest : List Char)
    (hrest : ∀ c ∈ rest.head?, isDigit c = false) : scanWhole (ds ++ rest) = some (ds, rest) := by
  rcases hds with rfl | hds
  · cases rest with
    | nil => rfl
    | cons c rest => simp [scanWhole, hrest c rfl]
  · obtain ⟨d, ds, rfl⟩ := List.exists_cons_of_ne_nil hds.digits.1
    rw [← scanDigits_append hds.digits rest hrest, List.cons_append]
    exact scanWhole.eq_3 _ (fun h => hds.first d rfl (List.cons.inj h).1)
      (fun c rest h => hds.first d rfl (List.cons.inj h).1)

theorem scanFraction_append {fraction : Option (List Char)}
    (hfraction : ∀ ds ∈ fraction, AreDigits ds) (rest : List Char)
    (hrest : ∀ c ∈ rest.head?, isDigit c = false ∧ c ≠ '.') :
    scanFraction (fractionText fraction ++ rest) = some (fraction, rest) := by
  cases fraction with
  | none =>
    refine scanFraction.eq_2 _ fun tail h => ?_
    obtain rfl : rest = '.' :: tail := h
    exact (hrest '.' rfl).2 rfl
  | some ds =>
    have hscan := scanDigits_append (hfraction ds rfl) rest fun c hc => (hrest c hc).1
    simp [fractionText, scanFraction, hscan]

theorem scanExponentDigits_append {e : ExponentText} {sign : List Char}
    (hsign : sign ∈ exponentSigns e.negative) (hdigits : AreDigits e.digits) (rest : List Char)
    (hrest : ∀ c ∈ rest.head?, isDigit c = false) :
    scanExponentDigits (sign ++ (e.digits ++ rest)) = some (e, rest) := by
  obtain ⟨negative, ds⟩ := e
  have hscan := scanDigits_append hdigits rest hrest
  dsimp only at hsign hscan ⊢
  cases negative with
  | true =>
    obtain rfl : sign = ['-'] := List.mem_singleton.1 hsign
    simp [scanExponentDigits, hscan]
  | false =>
    rcases List.mem_cons.1 hsign with rfl | hsign
    · simp [scanExponentDigits, hscan]
    · obtain rfl : sign = [] := List.mem_singleton.1 hsign
      obtain ⟨d, ds, rfl⟩ := List.exists_cons_of_ne_nil hdigits.1
      have hd : isDigit d = true := hdigits.2 d List.mem_cons_self
      rw [List.nil_append, scanExponentDigits.eq_3, hscan]
      · rfl
      · rintro tail h
        rw [(List.cons.inj h).1] at hd
        exact absurd hd (by decide)
      · rintro tail h
        rw [(List.cons.inj h).1] at hd
        exact absurd hd (by decide)

theorem scanExponent_append {word : List Char} {exponent : Option ExponentText}
    (h : SpellsExponent word exponent) (rest : List Char)
    (hrest : ∀ c ∈ rest.head?, isDigit c = false ∧ (c == 'e' || c == 'E') = false) :
    scanExponent (word ++ rest) = some (exponent, rest) := by
  cases h with
  | none =>
    cases rest with
    | nil => rfl
    | cons c rest =>
      show (if c == 'e' || c == 'E' then _ else some (none, c :: rest)) = _
      rw [(hrest c rfl).2]
      rfl
  | some hletter hsign hdigits =>
    have hscan := scanExponentDigits_append hsign hdigits rest fun c hc => (hrest c hc).1
    rcases hletter with rfl | rfl <;> simp [scanExponent, hscan]

theorem SpellsExponent.head {word : List Char} {exponent : Option ExponentText}
    (h : SpellsExponent word exponent) {rest : List Char} (hrest : Ends rest) :
    ∀ c ∈ (word ++ rest).head?, isDigit c = false ∧ c ≠ '.' := by
  cases h with
  | none => exact fun c hc => ⟨(hrest.head c hc).1, (hrest.head c hc).2.1⟩
  | some hletter =>
    intro c hc
    cases hc
    rcases hletter with rfl | rfl <;> decide

theorem fractionText_head (fraction : Option (List Char)) {rest : List Char}
    (hrest : ∀ c ∈ rest.head?, isDigit c = false ∧ c ≠ '.') :
    ∀ c ∈ (fractionText fraction ++ rest).head?, isDigit c = false := by
  cases fraction with
  | none => exact fun c hc => (hrest c hc).1
  | some ds =>
    intro c hc
    cases hc
    decide

/-- **A text of a numeral is scanned as that numeral**, whatever it is followed by that ends it. -/
theorem scanNumeral_append {word : List Char} {n : Numeral} (h : SpellsNumeral word n)
    {rest : List Char} (hrest : Ends rest) : scanNumeral (word ++ rest) = some (n, rest) := by
  obtain ⟨whole, fraction, spelled⟩ := h
  rename_i exponent
  have hhead := spelled.head hrest
  have hwhole := scanWhole_append whole _ (fractionText_head n.fraction hhead)
  have hfraction := scanFraction_append fraction _ hhead
  have hexponent := scanExponent_append spelled rest fun c hc =>
    ⟨(hrest.head c hc).1, (hrest.head c hc).2.2⟩
  have hmagnitude : scanMagnitude n.negative
      (n.whole ++ (fractionText n.fraction ++ (exponent ++ rest))) = some (n, rest) := by
    rw [scanMagnitude, hwhole]
    dsimp only
    rw [hfraction]
    dsimp only
    rw [hexponent]
  rw [List.append_assoc, List.append_assoc, List.append_assoc]
  cases hsign : n.negative with
  | true =>
    rw [hsign] at hmagnitude
    exact hmagnitude
  | false =>
    rw [hsign] at hmagnitude
    rw [← hmagnitude]
    -- without a sign the text starts with a digit, so the first case of the scanner does not apply
    refine scanNumeral.eq_2 _ fun tail h => ?_
    obtain ⟨hne, hdigits⟩ := areDigits_whole whole
    obtain ⟨d, ds, hds⟩ := List.exists_cons_of_ne_nil hne
    have hdigit := hdigits d (by rw [hds]; exact List.mem_cons_self)
    rw [hds] at h
    rw [(List.cons.inj h).1] at hdigit
    exact absurd hdigit (by decide)

theorem append_of_scanDigits {text ds rest : List Char} (h : scanDigits text = some (ds, rest)) :
    text = ds ++ rest ∧ AreDigits ds := by
  unfold scanDigits spanDigits at h
  dsimp only at h
  split at h
  · cases h
  · rename_i hne
    cases h
    refine ⟨List.takeWhile_append_dropWhile.symm, fun hnil => hne (by rw [hnil]; rfl), ?_⟩
    exact fun c hc => List.all_eq_true.1 List.all_takeWhile c hc

theorem append_of_scanWhole {text ds rest : List Char} (h : scanWhole text = some (ds, rest)) :
    text = ds ++ rest ∧ (ds = ['0'] ∨ Leading ds) := by
  unfold scanWhole at h
  split at h
  · cases h
    exact ⟨rfl, Or.inl rfl⟩
  · split at h
    · cases h
    · cases h
      exact ⟨rfl, Or.inl rfl⟩
  · rename_i hzero hzeros
    obtain ⟨rfl, hdigits⟩ := append_of_scanDigits h
    refine ⟨rfl, Or.inr ⟨hdigits, ?_⟩⟩
    rintro c hc rfl
    obtain ⟨tail, rfl⟩ : ∃ tail, ds = '0' :: tail := by
      cases ds with
      | nil => cases hc
      | cons d tail =>
        cases hc
        exact ⟨tail, rfl⟩
    cases hrest : tail ++ rest with
    | nil => exact hzero (by rw [List.cons_append, hrest])
    | cons c tail => exact hzeros c tail (by rw [List.cons_append, hrest])

theorem append_of_scanFraction {text rest : List Char} {fraction : Option (List Char)}
    (h : scanFraction text = some (fraction, rest)) :
    text = fractionText fraction ++ rest ∧ ∀ ds ∈ fraction, AreDigits ds := by
  unfold scanFraction at h
  split at h
  · obtain ⟨⟨ds, tail⟩, hdigits, heq⟩ := Option.map_eq_some_iff.1 h
    cases heq
    obtain ⟨rfl, hds⟩ := append_of_scanDigits hdigits
    refine ⟨rfl, ?_⟩
    rintro _ ⟨⟩
    exact hds
  · cases h
    exact ⟨rfl, fun _ h => nomatch h⟩

theorem append_of_scanExponentDigits {text rest : List Char} {e : ExponentText}
    (h : scanExponentDigits text = some (e, rest)) :
    ∃ sign ∈ exponentSigns e.negative, text = sign ++ (e.digits ++ rest) ∧ AreDigits e.digits := by
  unfold scanExponentDigits at h
  split at h <;> obtain ⟨⟨ds, tail⟩, hdigits, heq⟩ := Option.map_eq_some_iff.1 h <;> cases heq <;>
    obtain ⟨rfl, hds⟩ := append_of_scanDigits hdigits
  · exact ⟨['-'], List.mem_singleton_self _, rfl, hds⟩
  · exact ⟨['+'], List.mem_cons_self, rfl, hds⟩
  · exact ⟨[], List.mem_cons_of_mem _ (List.mem_singleton_self _), rfl, hds⟩

theorem append_of_scanExponent {text rest : List Char} {exponent : Option ExponentText}
    (h : scanExponent text = some (exponent, rest)) :
    ∃ word, text = word ++ rest ∧ SpellsExponent word exponent := by
  unfold scanExponent at h
  split at h
  · split at h
    · rename_i c tail hletter
      obtain ⟨⟨e, tail⟩, hdigits, heq⟩ := Option.map_eq_some_iff.1 h
      cases heq
      obtain ⟨sign, hsign, rfl, hds⟩ := append_of_scanExponentDigits hdigits
      rw [Bool.or_eq_true, beq_iff_eq, beq_iff_eq] at hletter
      exact ⟨c :: (sign ++ e.digits), by simp, .some hletter hsign hds⟩
    · cases h
      exact ⟨[], rfl, .none⟩
  · cases h
    exact ⟨[], rfl, .none⟩

theorem append_of_scanMagnitude {negative : Bool} {text rest : List Char} {n : Numeral}
    (h : scanMagnitude negative text = some (n, rest)) :
    ∃ word, signText negative ++ text = word ++ rest ∧ SpellsNumeral word n := by
  unfold scanMagnitude at h
  split at h
  · cases h
  · rename_i whole _ hwhole
    split at h
    · cases h
    · rename_i fraction _ hfraction
      split at h
      · cases h
      · rename_i exponent _ hexponent
        cases h
        obtain ⟨rfl, whole⟩ := append_of_scanWhole hwhole
        obtain ⟨rfl, fraction⟩ := append_of_scanFraction hfraction
        obtain ⟨word, rfl, spelled⟩ := append_of_scanExponent hexponent
        exact ⟨_, by simp only [List.append_assoc], .mk (n := ⟨_, _, _, _⟩) whole fraction spelled⟩

/-- **What is scanned as a numeral is a text of it.** -/
theorem spellsNumeral_of_scan {text rest : List Char} {n : Numeral}
    (h : scanNumeral text = some (n, rest)) :
    ∃ word, text = word ++ rest ∧ SpellsNumeral word n := by
  unfold scanNumeral at h
  split at h
  · exact append_of_scanMagnitude h
  · exact append_of_scanMagnitude h

/-! ## The numerals of numbers -/

/-- The numeral of digits. -/
def numeralOf (negative : Bool) (d : Digits) : Numeral :=
  if -5 < d.point && d.point ≤ 16 then
    if d.point ≤ 0 then
      ⟨negative, ['0'], some (List.replicate (-d.point).toNat '0' ++ d.digits), none⟩
    else if d.digits.length ≤ d.point.toNat then
      ⟨negative, d.digits ++ List.replicate (d.point.toNat - d.digits.length) '0', some ['0'], none⟩
    else ⟨negative, d.digits.take d.point.toNat, some (d.digits.drop d.point.toNat), none⟩
  else
    ⟨negative, d.digits.take 1, if d.digits.length ≤ 1 then none else some (d.digits.drop 1),
      some ⟨decide (d.point - 1 < 0), natDigits (d.point - 1).natAbs⟩⟩

/-- The numeral of a double that is a number. -/
def floatNumeral? (x : Float) : Option Numeral :=
  match Binary.ofFloat x with
  | .nan => none
  | .infinite _ => none
  | .finite negative significand scale =>
    some (if significand == 0 then ⟨negative, ['0'], some ['0'], none⟩
      else numeralOf negative (shortest .even significand scale))

/-- The numeral of a number. -/
def Number.numeral? : Number → Option Numeral
  | .integer n => some ⟨decide (n < 0), natDigits n.natAbs, none, none⟩
  | .float x => floatNumeral? x

theorem numeralOf_text (negative : Bool) {d : Digits} (hd : Leading d.digits) :
    (numeralOf negative d).text = signText negative ++ digitsText d := by
  have hpos := List.length_pos_iff.2 hd.digits.1
  unfold numeralOf digitsText
  split
  · rw [positionalText, Digits.positional]
    dsimp only
    split
    · rw [if_neg (by omega)]
      simp [Numeral.text, fractionText, exponentText]
    · split
      · rw [if_pos (by omega)]
        simp [Numeral.text, fractionText, exponentText]
      · rw [if_neg (by omega)]
        simp [Numeral.text, fractionText, exponentText]
  · obtain ⟨digits, point⟩ := d
    obtain ⟨c, cs, rfl⟩ := List.exists_cons_of_ne_nil hd.digits.1
    cases cs <;> simp [scientificText, Numeral.text, fractionText, exponentText]

theorem numeralOf_isWritten (negative : Bool) {d : Digits} (hd : Leading d.digits) :
    (numeralOf negative d).IsWritten := by
  obtain ⟨digits, point⟩ := d
  obtain ⟨c, cs, rfl⟩ := List.exists_cons_of_ne_nil hd.digits.1
  have hdigits : ∀ x ∈ c :: cs, isDigit x = true := hd.digits.2
  have hfirst : c ≠ '0' := hd.first c rfl
  unfold numeralOf
  dsimp only
  split
  · split
    · refine ⟨Or.inl rfl, ?_, fun _ h => nomatch h⟩
      rintro _ ⟨⟩
      exact ⟨by simp, fun x hx => (List.mem_append.1 hx).elim isDigit_zeros (hdigits x)⟩
    · split
      · refine ⟨Or.inr ⟨⟨by simp, fun x hx => ?_⟩, fun x hx => ?_⟩, ?_, fun _ h => nomatch h⟩
        · exact (List.mem_append.1 hx).elim (hdigits x) isDigit_zeros
        · cases hx
          exact hfirst
        · rintro _ ⟨⟩
          exact areDigits_zero
      · rename_i hpoint hlength
        refine ⟨Or.inr ⟨⟨?_, fun x hx => ?_⟩, fun x hx => ?_⟩, ?_, fun _ h => nomatch h⟩
        · rw [ne_eq, List.take_eq_nil_iff]
          simp only [reduceCtorEq, or_false]
          omega
        · exact hdigits x (List.mem_of_mem_take hx)
        · rw [List.head?_take, if_neg (by omega)] at hx
          cases hx
          exact hfirst
        · rintro _ ⟨⟩
          refine ⟨?_, fun x hx => hdigits x (List.mem_of_mem_drop hx)⟩
          rw [ne_eq, List.drop_eq_nil_iff]
          exact hlength
  · refine ⟨Or.inr ⟨⟨List.cons_ne_nil _ _, fun x hx => hdigits x (List.mem_of_mem_take hx)⟩, ?_⟩,
      ?_, ?_⟩
    · rintro _ ⟨⟩
      exact hfirst
    · intro ds hds
      dsimp only at hds
      split at hds
      · cases hds
      · rename_i hlength
        cases hds
        refine ⟨?_, fun x hx => hdigits x (List.mem_of_mem_drop hx)⟩
        rw [ne_eq, List.drop_eq_nil_iff]
        exact hlength
    · rintro _ ⟨⟩
      exact areDigits_natDigits _

theorem isWritten_of_numeral? {x : Number} {n : Numeral} (h : x.numeral? = some n) :
    n.IsWritten := by
  cases x with
  | integer i =>
    cases h
    refine ⟨?_, (fun _ h => nomatch h), fun _ h => nomatch h⟩
    rcases Nat.eq_zero_or_pos i.natAbs with hzero | hpos
    · exact Or.inl (congrArg natDigits hzero)
    · exact Or.inr (leading_natDigits hpos)
  | float x =>
    have h : floatNumeral? x = some n := h
    unfold floatNumeral? at h
    split at h
    · cases h
    · cases h
    · cases h
      split
      · refine ⟨Or.inl rfl, ?_, fun _ h => nomatch h⟩
        rintro _ ⟨⟩
        exact areDigits_zero
      · rename_i hs
        rw [beq_iff_eq] at hs
        exact numeralOf_isWritten _ (leading_shortest .even _ (Nat.pos_of_ne_zero hs))

/-- **A number is its numeral written out**, or the word for no value. -/
theorem numberText_eq (x : Number) :
    numberText x = match x.numeral? with
      | some n => n.text
      | none => ['n', 'u', 'l', 'l'] := by
  cases x with
  | integer i =>
    show integerText i = _
    unfold integerText
    split <;> simp [Number.numeral?, Numeral.text, fractionText, exponentText, signText, *]
  | float x =>
    show floatText x = match floatNumeral? x with
      | some n => n.text
      | none => ['n', 'u', 'l', 'l']
    unfold floatText floatNumeral?
    generalize Binary.ofFloat x = b
    cases b with
    | nan => rfl
    | infinite _ => rfl
    | finite negative significand scale =>
      dsimp only
      split
      · rfl
      · rename_i hs
        rw [beq_iff_eq] at hs
        exact (numeralOf_text _ (leading_shortest .even _ (Nat.pos_of_ne_zero hs))).symm

/-! ## Integers -/

/-- Digits at the end make a number no smaller. -/
theorem le_foldl_digits (significand : Nat) (ds : List Char) :
    significand ≤ ds.foldl (fun n c => 10 * n + digitValue c) significand := by
  induction ds generalizing significand with
  | nil => exact Nat.le_refl _
  | cons d ds ih =>
    have := ih (10 * significand + digitValue d)
    rw [List.foldl_cons]
    omega

/-- Digits that fit are all gathered. -/
theorem accumulate_of_lt {significand : Nat} {ds : List Char}
    (h : ds.foldl (fun n c => 10 * n + digitValue c) significand < significandBound) :
    accumulate significand ds =
      (ds.foldl (fun n c => 10 * n + digitValue c) significand, 0) := by
  induction ds generalizing significand with
  | nil => rfl
  | cons d ds ih =>
    have hle := le_foldl_digits (10 * significand + digitValue d) ds
    rw [List.foldl_cons] at h ⊢
    rw [accumulate, if_pos (Nat.lt_of_le_of_lt hle h), ih h]

/-- What is gathered without any excess is the number that all digits denote. -/
theorem of_accumulate {significand value : Nat} {ds : List Char}
    (hbound : significand < significandBound) (h : accumulate significand ds = (value, 0)) :
    ds.foldl (fun n c => 10 * n + digitValue c) significand = value ∧ value < significandBound := by
  induction ds generalizing significand with
  | nil =>
    cases h
    exact ⟨rfl, hbound⟩
  | cons d ds ih =>
    rw [accumulate] at h
    split at h
    · exact ih ‹_› h
    · cases h

/-- `n.Denotes i`: the numeral has neither a point nor an exponent, and its digits denote the
integer.  A zero with a sign is a double and denotes none. -/
structure Numeral.Denotes (n : Numeral) (i : Int) : Prop where
  fraction : n.fraction = none
  exponent : n.exponent = none
  value : i = if n.negative then -(digitsValue n.whole : Int) else digitsValue n.whole
  signed : n.negative = true → i ≠ 0

theorem Numeral.isPlain_iff {n : Numeral} :
    n.isPlain = true ↔ n.fraction = none ∧ n.exponent = none := by
  simp [Numeral.isPlain]

/-- **The integers that numerals are read as** are those that they denote and that fit 64 bits,
with a sign if they are negative. -/
theorem Numeral.number?_eq_integer {n : Numeral} {i : Int} :
    n.number? = some (.integer i) ↔ n.Denotes i ∧ -2 ^ 63 ≤ i ∧ i < 2 ^ 64 := by
  have hpow63 : twoTo 63 = 2 ^ 63 := rfl
  have hpow64 : significandBound = 2 ^ 64 := rfl
  constructor
  · intro h
    unfold Numeral.number? at h
    cases hgathered : accumulate 0 n.whole with | mk significand excess =>
    rw [hgathered] at h
    dsimp only at h
    split at h
    · rename_i hplain
      rw [Bool.and_eq_true, beq_iff_eq, Numeral.isPlain_iff] at hplain
      obtain ⟨⟨hfraction, hexponent⟩, rfl⟩ := hplain
      obtain ⟨hvalue, hbound⟩ := of_accumulate (by rw [hpow64]; decide) hgathered
      have hvalue : digitsValue n.whole = significand := hvalue
      cases hsign : n.negative with
      | false =>
        rw [hsign] at h
        cases h
        exact ⟨⟨hfraction, hexponent, by rw [hsign, hvalue]; rfl, by rw [hsign]; exact nofun⟩,
          by omega, by omega⟩
      | true =>
        rw [hsign] at h
        simp only [Bool.not_true, Bool.false_eq_true, if_false] at h
        split at h
        · rename_i hfits
          simp only [Bool.and_eq_true, bne_iff_ne, decide_eq_true_eq] at hfits
          cases h
          exact ⟨⟨hfraction, hexponent, by rw [hsign, hvalue]; rfl, fun _ => by omega⟩,
            by omega, by omega⟩
        · cases h
    · obtain ⟨_, -, h⟩ := Option.map_eq_some_iff.1 h
      cases h
  · rintro ⟨⟨hfraction, hexponent, hvalue, hsigned⟩, hlow, hhigh⟩
    have hbound : digitsValue n.whole < significandBound := by
      split at hvalue <;> omega
    have hgathered : accumulate 0 n.whole = (digitsValue n.whole, 0) := accumulate_of_lt hbound
    unfold Numeral.number?
    rw [hgathered]
    dsimp only
    rw [Numeral.isPlain_iff.2 ⟨hfraction, hexponent⟩]
    cases hsign : n.negative with
    | false =>
      rw [hsign] at hvalue
      rw [hvalue]
      rfl
    | true =>
      have hne := hsigned hsign
      rw [hsign, if_pos rfl] at hvalue
      have hfits : (digitsValue n.whole != 0 && decide (digitsValue n.whole ≤ twoTo 63)) =
          true := by
        simp only [Bool.and_eq_true, bne_iff_ne, decide_eq_true_eq]
        omega
      simp [hfits, hvalue]

end GlyphMath.Json
