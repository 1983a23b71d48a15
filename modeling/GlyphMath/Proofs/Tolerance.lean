import GlyphMath.Proofs.Lines
import GlyphMath.Proofs.Rereading
import GlyphMath.Proofs.Trimming
import GlyphMath.Table.Verdict

/-!
# Exact results and tolerances

* `compare_eq` -- doubles that are equal: the same number, or two noughts.
* `abs_sub_of_beq` -- their difference is nought, and no number where they are infinities.
* `IsPlainText` -- a text that can stand in a table as it is.
* `caseRow` -- a table of one row with any three doubles.

Principal results:

* `abs_sub_le_iff` -- equal doubles are within a tolerance exactly if they are no infinities.
* `valueCases_caseRow` -- a table takes every double.
* `run_of_exact` -- a case whose result is the expected value.
-/

set_option autoImplicit false

namespace GlyphMath.Decimal

open Float.Model Float.Model.UnpackedFloat

/-! ## Differences -/

theorem beq_iff_compare {x y : Float} :
    (x == y) = true ↔ x.toModel.unpack.compare y.toModel.unpack = some .eq := by
  show (x.toModel.unpack.compare y.toModel.unpack == some .eq) = true ↔ _
  rw [beq_iff_eq]

/-- Equal numbers are the same, or noughts of any sign. -/
theorem compare_eq {u v : UnpackedFloat} (h : u.compare v = some .eq) :
    (u = v ∧ u ≠ .notANumber) ∨ ∃ s s', u = .zero s ∧ v = .zero s' := by
  cases u with
  | notANumber => cases h
  | infinity s =>
    cases v with
    | notANumber => cases h
    | infinity s' =>
      refine Or.inl ⟨?_, by rintro ⟨⟩⟩
      cases s <;> cases s' <;> first | rfl | cases h
    | zero s' => cases s <;> cases h
    | finite s' m e hm => cases s <;> cases h
  | zero s =>
    cases v with
    | notANumber => cases h
    | infinity s' => cases s' <;> cases h
    | zero s' => exact Or.inr ⟨s, s', rfl, rfl⟩
    | finite s' m e hm => cases s' <;> cases h
  | finite s m e hm =>
    cases v with
    | notANumber => cases h
    | infinity s' => cases s' <;> cases h
    | zero s' => cases s <;> cases h
    | finite s' m' e' hm' =>
      refine Or.inl ⟨?_, by rintro ⟨⟩⟩
      cases s <;> cases s'
      · have h : ((compare e e').then (compare m m')).swap = .eq := Option.some.inj h
        rw [Ordering.swap_eq_eq, Ordering.then_eq_eq, Int.compare_eq_eq, Nat.compare_eq_eq] at h
        obtain ⟨rfl, rfl⟩ := h
        rfl
      · cases h
      · cases h
      · have h : (compare e e').then (compare m m') = .eq := Option.some.inj h
        rw [Ordering.then_eq_eq, Int.compare_eq_eq, Nat.compare_eq_eq] at h
        obtain ⟨rfl, rfl⟩ := h
        rfl

/-- The difference of equal numbers. -/
theorem sub_of_compare (format : Format) {u v : UnpackedFloat} (h : u.compare v = some .eq) :
    if v.isInf then UnpackedFloat.sub format u v = .notANumber
    else ∃ s, UnpackedFloat.sub format u v = .zero s := by
  rcases compare_eq h with ⟨rfl, hnumber⟩ | ⟨s, s', rfl, rfl⟩
  · cases u with
    | notANumber => exact absurd rfl hnumber
    | infinity s => cases s <;> rfl
    | zero s => cases s <;> exact ⟨_, rfl⟩
    | finite s m e hm =>
      -- both mantissas are the same at the lower exponent, which is that of both
      refine ⟨.positive, ?_⟩
      unfold UnpackedFloat.sub
      dsimp only
      rw [Int.sub_self]
      rfl
  · cases s <;> cases s' <;> exact ⟨_, rfl⟩

/-- **The difference of equal doubles** is nought, and no number where they are infinities. -/
theorem abs_sub_of_beq {x y : Float} (h : (x == y) = true) :
    if y.isInf then (x - y).abs.isNaN = true else (x - y).abs = 0 := by
  have hsub := sub_of_compare Format.binary64 (beq_iff_compare.1 h)
  have hinf : y.isInf = y.toModel.unpack.isInf := rfl
  have habs : (x - y).abs = .ofModel (.pack (Float.Model.pack
      (UnpackedFloat.sub Format.binary64 x.toModel.unpack y.toModel.unpack)).unpack.abs) := rfl
  rw [habs, hinf]
  split
  · rename_i hinf
    rw [if_pos hinf] at hsub
    rw [hsub]
    decide
  · rename_i hinf
    rw [if_neg hinf] at hsub
    obtain ⟨s, hs⟩ := hsub
    rw [hs]
    cases s <;> decide

/-- **Equal doubles are within a tolerance exactly if they are no infinities.** -/
theorem abs_sub_le_iff {x y tolerance : Float} (h : (x == y) = true) (htolerance : 0 ≤ tolerance) :
    (x - y).abs ≤ tolerance ↔ y.isInf = false := by
  have hsub := abs_sub_of_beq h
  cases hinf : y.isInf with
  | true =>
    rw [hinf, if_pos rfl] at hsub
    have hnot : ¬ (x - y).abs ≤ tolerance := not_le_iff.2 (Or.inr (Or.inl hsub))
    simp [hnot]
  | false =>
    rw [hinf, if_neg (by simp)] at hsub
    rw [hsub]
    simp [htolerance]

end GlyphMath.Decimal

namespace GlyphMath.Table

/-! ## Tables of doubles -/

def bytesOf (text : String) : List UInt8 := text.toUTF8.data.toList

theorem bytesOf_append (s t : String) : bytesOf (s ++ t) = bytesOf s ++ bytesOf t := by
  simp only [bytesOf, String.toUTF8_eq_toByteArray, String.toByteArray_append,
    ByteArray.data_append, Array.toList_append]

theorem bytesOf_comma (s t : String) :
    bytesOf (s ++ "," ++ t) = bytesOf s ++ [comma] ++ bytesOf t := by
  rw [bytesOf_append, bytesOf_append]
  rfl

theorem fieldTexts?_bytesOf (texts : List String) :
    fieldTexts? (texts.map bytesOf) = some (texts.map Text.trim) := by
  induction texts with
  | nil => rfl
  | cons text texts ih =>
    have htext : String.fromUTF8? ⟨(bytesOf text).toArray⟩ = some text := by
      simp only [bytesOf, String.fromUTF8?, Array.toArray_toList, String.toUTF8_eq_toByteArray,
        dif_pos text.isValidUTF8]
      rfl
    rw [List.map_cons, fieldTexts?, htext]
    dsimp only
    rw [ih]
    rfl

/-- Visible characters behind the comma: none of them is a comma, a quote or a line end. -/
def IsPlainText (text : String) : Prop := ∀ c ∈ text.toList, 0x2D ≤ c.toNat ∧ c.toNat ≤ 0x7E

theorem isPlainText_plainText (x : Float) : IsPlainText (Decimal.plainText x) := by
  intro c hc
  rw [Decimal.plainText, String.toList_ofList] at hc
  exact Decimal.plain_range hc

theorem IsPlainText.trim_eq {text : String} (h : IsPlainText text) : Text.trim text = text := by
  refine Text.trim_eq fun c hc => ?_
  obtain ⟨hlow, hhigh⟩ := h c hc
  exact Text.isBlank_of_visible (by omega) hhigh

theorem IsPlainText.isBareText {text : String} (h : IsPlainText text) :
    IsBareText (bytesOf text) := by
  have hbytes : ∀ b ∈ bytesOf text, 0x2D ≤ b.toNat := by
    rw [bytesOf, String.toUTF8_eq_toByteArray, ← String.utf8Encode_toList, List.utf8Encode,
      List.data_toByteArray]
    intro b hb
    obtain ⟨c, hc, hb⟩ := List.mem_flatMap.1 hb
    have hrange := h c hc
    have hsize : c.val.toNat ≤ 127 := Nat.le_trans hrange.2 (by decide)
    rw [String.utf8EncodeChar, if_pos hsize, List.mem_singleton] at hb
    rw [hb, UInt8.toNat_ofNat', Nat.mod_eq_of_lt (Nat.lt_of_le_of_lt hsize (by decide))]
    exact hrange.1
  have hbare : ∀ b ∈ bytesOf text, IsBare b ∧ b ≠ quote := by
    intro b hb
    have hlow := hbytes b hb
    have hne : ∀ d : UInt8, d.toNat < 0x2D → b ≠ d := by
      rintro d hd rfl
      omega
    refine ⟨⟨hne comma (by decide), ?_⟩, hne quote (by decide)⟩
    simp [endsLine, hne lineFeed (by decide), hne carriageReturn (by decide)]
  refine ⟨fun b hb => (hbare b hb).1, fun hfirst => ?_⟩
  exact (hbare quote (List.mem_of_head? hfirst)).2 rfl

/-- A table of one row, which names a tree and three doubles. -/
def caseRow (x expected tolerance : Float) : String :=
  "tree.json" ++ "," ++ Decimal.plainText x ++ "," ++ Decimal.plainText expected ++ "," ++
    Decimal.plainText tolerance

def caseFields (x expected tolerance : Float) : List String :=
  ["tree.json", Decimal.plainText x, Decimal.plainText expected, Decimal.plainText tolerance]

section

variable (x expected tolerance : Float)

theorem isPlainText_caseFields :
    ∀ text ∈ caseFields x expected tolerance, IsPlainText text := by
  have hname : IsPlainText "tree.json" := by
    have hall : "tree.json".toList.all (fun c => decide (0x2D ≤ c.toNat ∧ c.toNat ≤ 0x7E)) = true :=
      by decide
    intro c hc
    exact of_decide_eq_true (List.all_eq_true.1 hall c hc)
  simp [caseFields, hname, isPlainText_plainText]

theorem records_caseRow : records (bytesOf (caseRow x expected tolerance)) =
    [⟨1, (caseFields x expected tolerance).map bytesOf⟩] := by
  have hbare : ∀ text ∈ caseFields x expected tolerance, IsBareText (bytesOf text) :=
    fun text h => (isPlainText_caseFields x expected tolerance text h).isBareText
  simp only [caseFields, List.forall_mem_cons] at hbare
  obtain ⟨hname, hx, hexpected, htolerance, -⟩ := hbare
  have hspells := spellsRecord_of_bare
    [bytesOf "tree.json", bytesOf (Decimal.plainText x), bytesOf (Decimal.plainText expected)]
    (List.forall_mem_cons.2 ⟨hname, List.forall_mem_cons.2 ⟨hx, List.forall_mem_singleton.2
      hexpected⟩⟩) htolerance
  have hbody : bytesOf (caseRow x expected tolerance) =
      [bytesOf "tree.json", bytesOf (Decimal.plainText x),
        bytesOf (Decimal.plainText expected)].flatMap (· ++ [comma]) ++
        bytesOf (Decimal.plainText tolerance) := by
    rw [caseRow, bytesOf_comma, bytesOf_comma, bytesOf_comma]
    simp only [List.flatMap_cons, List.flatMap_nil, List.append_assoc, List.append_nil]
  rw [← hbody] at hspells
  have hfirst : ∃ rest, bytesOf (caseRow x expected tolerance) = 0x74 :: rest := by
    rw [hbody]
    exact ⟨_, rfl⟩
  obtain ⟨rest, hrest⟩ := hfirst
  refine records_of_spells ?_ ⟨0x74, by rw [hrest]; rfl, by decide⟩ hspells
  rw [hrest]
  rfl

/-- **A table takes every double.** -/
theorem valueCases_caseRow : valueCases (bytesOf (caseRow x expected tolerance)) =
    .ok [⟨1, "tree.json", x, expected, tolerance⟩] := by
  have htexts : (caseFields x expected tolerance).map Text.trim =
      caseFields x expected tolerance := by
    have htrim := List.map_congr_left fun text h =>
      (isPlainText_caseFields x expected tolerance text h).trim_eq
    rw [htrim, List.map_id']
  have hrows : AreRows (records (bytesOf (caseRow x expected tolerance)))
      [⟨1, caseFields x expected tolerance⟩] := by
    rw [records_caseRow]
    refine .cons ⟨rfl, ?_⟩ .nil
    rw [fieldTexts?_bytesOf, htexts]
  have hdata : dataOf Row.fields [⟨1, caseFields x expected tolerance⟩] =
      [⟨1, caseFields x expected tolerance⟩] := by
    have hheader : ¬ IsHeader (caseFields x expected tolerance) := by
      rw [← isHeader_iff]
      simp [isHeader, caseFields]
    have hblank : ¬ IsBlankRow (caseFields x expected tolerance) := by
      simp [IsBlankRow, caseFields]
    simp [dataOf, hheader, hblank]
  have hread : IsRead 4 [2, 3, 4] Row.Gives _
      (valueCases (bytesOf (caseRow x expected tolerance))) := valueCase_extracts.isRead hrows
  rw [hdata] at hread
  rw [hread.ok_iff]
  refine .cons ?_ .nil
  have hreads (v : Float) : Decimal.read? (Decimal.plainText v).toList = some v := by
    rw [Decimal.plainText, String.toList_ofList, Decimal.read?_plain]
  exact ⟨rfl, rfl, ⟨_, rfl, hreads x⟩, ⟨_, rfl, hreads expected⟩, ⟨_, rfl, hreads tolerance⟩⟩

end

/-! ## Exact results -/

theorem run_status_iff {c : ValueCase} {content : Except ReadError String} {actual : Float}
    (h : evaluateFile c.file content c.x = .ok actual) :
    (c.run content).status = .ok ↔ (actual - c.expected).abs ≤ c.tolerance := by
  unfold ValueCase.run
  rw [h]
  dsimp only
  split <;> simp [Finding.status, *]

/-- **A case whose result is the expected value** passes, with any tolerance that is not negative,
exactly if that value is no infinity.  A table can hold the doubles of every case, the infinities
included. -/
theorem run_of_exact (c : ValueCase) :
    valueCases (bytesOf (caseRow c.x c.expected c.tolerance)) =
      .ok [⟨1, "tree.json", c.x, c.expected, c.tolerance⟩] ∧
    ∀ (content : Except ReadError String) (actual : Float),
      evaluateFile c.file content c.x = .ok actual → (actual == c.expected) = true →
      0 ≤ c.tolerance → ((c.run content).status = .ok ↔ c.expected.isInf = false) := by
  refine ⟨valueCases_caseRow c.x c.expected c.tolerance, ?_⟩
  intro content actual hvalue hexact htolerance
  rw [run_status_iff hvalue, Decimal.abs_sub_le_iff hexact htolerance]

/-- The text of a tree that squares its variable. -/
def squareText : String :=
  "\x7b\"version\":1,\"expr\":\x7b\"type\":\"Mul\",\"args\":[" ++
    "\x7b\"type\":\"Sym\",\"name\":\"x\"\x7d,\x7b\"type\":\"Sym\",\"name\":\"x\"\x7d]\x7d\x7d"

/-- A square is exact. -/
theorem run_of_exact_square :
    ((⟨1, "t.json", 3, 9, 0⟩ : ValueCase).run (.ok squareText)).status = .ok ∧
      (9 : Float).isInf = false := by
  have hvalue : evaluateFile "t.json" (.ok squareText) 3 = .ok 9 := by decide +kernel
  have hfinite : (9 : Float).isInf = false := by decide
  refine ⟨((run_of_exact ⟨1, "t.json", 3, 9, 0⟩).2 _ 9 hvalue ?_ ?_).2 hfinite, hfinite⟩
  · decide
  · decide

/-- The square of `1e200` is the infinity that is expected, and does not pass. -/
theorem run_of_infinite_square :
    evaluateFile "t.json" (.ok squareText) 1e200 = .ok Decimal.infinity ∧
      (Decimal.infinity == Decimal.infinity) = true ∧ (0 : Float) ≤ 0 ∧
      ((⟨1, "t.json", 1e200, Decimal.infinity, 0⟩ : ValueCase).run (.ok squareText)).status =
        .ng := by
  decide +kernel

end GlyphMath.Table
