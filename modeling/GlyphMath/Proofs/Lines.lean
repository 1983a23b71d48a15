import GlyphMath.Proofs.Cases
import GlyphMath.Proofs.Parts

/-!
# The lines that cases are reported under

* `Placed`, `placed` -- the rows of parts, each with the line on which it is reported, the line on
  which its record begins, and the gap between it and the record in front of it.
* `ReportsLines` -- the lines of the cases of placed rows, or of their error.

The line of a record is taken before the gap in front of it is passed over.  So an empty line or a
comment line in front of a row shifts it, and a carriage return with a line feed behind it does,
which ends the record in front at the carriage return.

Principal results:

* `Placed.line_eq_iff` -- when a row is reported on the line on which it begins.
* `lines_of_parts` -- when the cases of a table, and its errors, are.
-/

set_option autoImplicit false

namespace GlyphMath.Table

/-- A row of a table, the line on which its record begins, and the gap in front of it. -/
structure Placed where
  row : Row
  firstLine : Nat
  gap : List UInt8
deriving DecidableEq

/-- The rows of parts behind some text, up to the first part whose fields are no texts. -/
def placedAfter (before : List UInt8) : List Part → List Placed
  | [] => []
  | p :: ps =>
    match fieldTexts? p.fields with
    | none => []
    | some fields =>
      ⟨⟨before.count lineFeed + 1, fields⟩, (before ++ p.gap).count lineFeed + 1, p.gap⟩ ::
        placedAfter (before ++ p.text) ps

/-- The rows of the parts of a table. -/
def placed (parts : List Part) : List Placed := placedAfter [] parts

/-- The rows of parts that hold data. -/
def placedData (parts : List Part) : List Placed := dataOf (·.row.fields) (placed parts)

/-- What is read from placed rows: a case for each of them, in order, or the fault of one of them,
under the line on which the row begins exactly if no line feed stands in the gap in front of it. -/
structure ReportsLines {α : Type} (columns : Nat) (numbers : List Nat) (Gives : Row → α → Prop)
    (line : α → Nat) (rows : List Placed) (result : Except TableError (List α)) : Prop where
  cases : ∀ cs, result = .ok cs → List.Forall₂ (fun p c =>
    Gives p.row c ∧ (line c = p.firstLine ↔ lineFeed ∉ p.gap)) rows cs
  error : ∀ n problem, result = .error (.badRow n problem) → ∃ before p after,
    rows = before ++ p :: after ∧
      FirstFault columns numbers (before.map Placed.row) p.row (after.map Placed.row) problem ∧
      (n = p.firstLine ↔ lineFeed ∉ p.gap)

/-- **A row is reported on the line on which it begins** exactly if no line feed stands between the
record in front of it and itself. -/
theorem Placed.line_eq_iff {before : List UInt8} {parts : List Part} {p : Placed}
    (h : p ∈ placedAfter before parts) : p.row.line = p.firstLine ↔ lineFeed ∉ p.gap := by
  induction parts generalizing before with
  | nil => simp [placedAfter] at h
  | cons q parts ih =>
    rw [placedAfter] at h
    split at h
    · simp at h
    · rcases List.mem_cons.1 h with rfl | hmem
      · have hcount := List.count_eq_zero (a := lineFeed) (l := q.gap)
        rw [← hcount]
        simp
      · exact ih hmem

theorem mem_of_mem_dataOf {α : Type} {fields : α → List String} {as : List α} {a : α}
    (h : a ∈ dataOf fields as) : a ∈ as := by
  cases as with
  | nil => simp [dataOf] at h
  | cons b as =>
    have hmem := List.mem_of_mem_filter h
    split at hmem
    · exact List.mem_cons_of_mem b hmem
    · exact hmem

theorem dataOf_map (rows : List Placed) :
    dataOf Row.fields (rows.map Placed.row) = (dataOf (·.row.fields) rows).map Placed.row := by
  cases rows with
  | nil => rfl
  | cons p rows =>
    rw [List.map_cons, dataOf, dataOf]
    split
    · simp [List.filter_map, Function.comp_def]
    · rw [← List.map_cons, List.filter_map]
      rfl

/-- The records of parts are rows, as far as their fields are texts. -/
theorem areRows_placedAfter (before : List UInt8) (parts : List Part) :
    ∃ rs rest, recordsAfter before parts = rs ++ rest ∧
      AreRows rs ((placedAfter before parts).map Placed.row) ∧
      ∀ r ∈ rest.head?, fieldTexts? r.fields = none := by
  induction parts generalizing before with
  | nil => exact ⟨[], [], rfl, .nil, by simp⟩
  | cons p parts ih =>
    rw [recordsAfter, placedAfter]
    cases htexts : fieldTexts? p.fields with
    | none => exact ⟨[], _, rfl, .nil, by simpa using htexts⟩
    | some fields =>
      obtain ⟨rs, rest, hrecords, hrows, hrest⟩ := ih (before ++ p.text)
      exact ⟨_ :: rs, rest, by rw [hrecords, List.cons_append], .cons ⟨rfl, htexts⟩ hrows, hrest⟩

section

variable {α : Type} {columns : Nat} {numbers : List Nat} {Gives : Row → α → Prop}
  {read : Row → Except TableError α}

/-- What is read from a table of which the first records are texts. -/
theorem Extracts.of_prefix (h : Extracts columns numbers Gives read) {records rest : List Record}
    {rs : List Row} (hrows : AreRows records rs)
    (hrest : ∀ r ∈ rest.head?, fieldTexts? r.fields = none) {result : Except TableError (List α)}
    (hresult : result = match rows columns (records ++ rest) with
      | .error e => .error e
      | .ok rows => casesOf read rows) :
    (∀ cs, result = .ok cs → List.Forall₂ Gives (dataOf Row.fields rs) cs) ∧
      ∀ n problem, result = .error (.badRow n problem) →
        Refused columns numbers (dataOf Row.fields rs) (.badRow n problem) := by
  subst hresult
  -- a record that is no text has no line: only a short row in front of it is reported under one
  cases rest with
  | nil =>
    have hread := h.isRead hrows
    rw [List.append_nil]
    exact ⟨fun cs => (hread.ok_iff cs).1, fun n problem => (hread.error_iff _).1⟩
  | cons r rest =>
    rcases long_or_short columns (dataOf Row.fields rs) with hlong | ⟨row, hshort⟩
    · rw [rows_of_unreadable hrows hlong (hrest r rfl)]
      constructor
      · intro cs hcs
        cases hcs
      · intro n problem herror
        cases herror
    · rw [rows_of_short hrows hshort]
      obtain ⟨before, after, hsplit, hlength, hbefore⟩ := hshort
      constructor
      · intro cs hcs
        cases hcs
      · intro n problem herror
        cases herror
        exact ⟨before, row, after, _, hsplit, .tooShort hbefore hlength, rfl⟩

theorem Extracts.reportsLines (h : Extracts columns numbers Gives read) {line : α → Nat}
    (hline : ∀ row c, Gives row c → line c = row.line) {bytes : List UInt8} {parts : List Part}
    (hparts : IsDivided (dropMark bytes) parts) {result : Except TableError (List α)}
    (hresult : result = match rows columns (records bytes) with
      | .error e => .error e
      | .ok rows => casesOf read rows) :
    ReportsLines columns numbers Gives line (placedData parts) result := by
  obtain ⟨rs, rest, hrecords, hrows, hrest⟩ := areRows_placedAfter [] parts
  rw [hparts.records_eq, hrecords] at hresult
  have hplaced : ∀ p ∈ placedData parts, p.row.line = p.firstLine ↔ lineFeed ∉ p.gap := by
    intro p hp
    exact Placed.line_eq_iff (mem_of_mem_dataOf hp)
  have hread := h.of_prefix hrows hrest hresult
  have hdata : dataOf Row.fields ((placedAfter [] parts).map Placed.row) =
      (placedData parts).map Placed.row := dataOf_map _
  rw [hdata] at hread
  constructor
  · intro cs hcs
    have hgives := hread.1 cs hcs
    rw [List.forall₂_map_left_iff, List.forall₂_iff_zip] at hgives
    refine List.forall₂_iff_zip.2 ⟨hgives.1, fun {p c} hmem => ?_⟩
    have hgive := hgives.2 hmem
    refine ⟨hgive, ?_⟩
    rw [hline _ _ hgive]
    exact hplaced p (List.of_mem_zip hmem).1
  · intro n problem herror
    obtain ⟨before, row, after, problem', hsplit, hfault, heq⟩ := hread.2 n problem herror
    cases heq
    obtain ⟨before, rows, hrows, rfl, htail⟩ := List.map_eq_append_iff.1 hsplit
    obtain ⟨p, after, rfl, rfl, rfl⟩ := List.map_eq_cons_iff.1 htail
    exact ⟨before, p, after, hrows, hfault, hplaced p (by simp [hrows])⟩

end

/-- **The lines of a table's cases and errors.**  Every table can be divided into parts.  Each case,
and each row at fault, is reported under the line on which its row begins exactly if no line feed
stands between the record in front of the row and the row. -/
theorem lines_of_parts (bytes : List UInt8) :
    (∃ parts, IsDivided (dropMark bytes) parts) ∧
    ∀ parts, IsDivided (dropMark bytes) parts →
      ReportsLines 4 [2, 3, 4] Row.Gives ValueCase.line (placedData parts) (valueCases bytes) ∧
      ReportsLines 3 [2] Row.GivesError ErrorCase.line (placedData parts) (errorCases bytes) := by
  refine ⟨exists_isDivided _, fun parts hparts => ⟨?_, ?_⟩⟩
  · exact valueCase_extracts.reportsLines (fun _ _ h => h.line) hparts rfl
  · exact errorCase_extracts.reportsLines (fun _ _ h => h.line) hparts rfl

/-- A table with a line break between quotes, a carriage return in front of a line feed, and a
comment. -/
def brokenTable : List UInt8 :=
  "\"a\nb.json\",1,2,0\r\n# c\nd.json,1,2,0".toUTF8.data.toList

def brokenPart : Part :=
  ⟨[], "\"a\nb.json\",1,2,0".toUTF8.data.toList,
    ["a\nb.json".toUTF8.data.toList, [0x31], [0x32], [0x30]], [carriageReturn]⟩

def commentedPart : Part :=
  ⟨"\n# c\n".toUTF8.data.toList, "d.json,1,2,0".toUTF8.data.toList,
    ["d.json".toUTF8.data.toList, [0x31], [0x32], [0x30]], []⟩

/-- The second row begins on line 4 and is reported on line 2. -/
theorem lines_of_parts_broken :
    IsDivided (dropMark brokenTable) [brokenPart, commentedPart] ∧
    ReportsLines 4 [2, 3, 4] Row.Gives ValueCase.line
      [⟨⟨1, ["a\nb.json", "1", "2", "0"]⟩, 1, []⟩,
        ⟨⟨2, ["d.json", "1", "2", "0"]⟩, 4, "\n# c\n".toUTF8.data.toList⟩]
      (valueCases brokenTable) := by
  have hzero : IsBareText [0x30] := by decide
  have hone : IsBareText [0x31] := by decide
  have htwo : IsBareText [0x32] := by decide
  have hquoted : SpellsField "\"a\nb.json\"".toUTF8.data.toList "a\nb.json".toUTF8.data.toList :=
    .quoted "a\nb.json".toUTF8.data.toList isBareText_nil
  have hfirst : brokenPart.IsEnded := by
    refine ⟨.nil, ⟨quote, by decide, by decide⟩, ?_, carriageReturn, rfl, by decide⟩
    exact .mk (((SpellsFront.nil.snoc hquoted).snoc (.bare hone)).snoc (.bare htwo)) (.bare hzero)
  have hgap : IsGap commentedPart.gap :=
    (IsGap.nil.lineEnd (b := lineFeed) rfl).comment (show lineFeed ∉ [0x20, 0x63] by decide)
  have hlast : commentedPart.IsLast := by
    refine ⟨hgap, ⟨0x64, by decide, by decide⟩, Or.inl ?_, rfl⟩
    exact spellsRecord_of_bare ["d.json".toUTF8.data.toList, [0x31], [0x32]] (by decide) hzero
  have hparts : IsDivided (dropMark brokenTable) [brokenPart, commentedPart] :=
    .record (List.forall_mem_singleton.2 hfirst) hlast
  refine ⟨hparts, ?_⟩
  have hlines := ((lines_of_parts brokenTable).2 _ hparts).1
  have hdata : placedData [brokenPart, commentedPart] =
      [⟨⟨1, ["a\nb.json", "1", "2", "0"]⟩, 1, []⟩,
        ⟨⟨2, ["d.json", "1", "2", "0"]⟩, 4, "\n# c\n".toUTF8.data.toList⟩] := by
    decide +kernel
  rwa [hdata] at hlines

/-- A table whose first line is empty. -/
def lateTable : List UInt8 := "\nt.json,1,1,0\n".toUTF8.data.toList

def latePart : Part :=
  ⟨[lineFeed], "t.json,1,1,0".toUTF8.data.toList,
    ["t.json".toUTF8.data.toList, [0x31], [0x31], [0x30]], [lineFeed]⟩

/-- The row of a table begins on line 2, behind an empty line, and its case is reported on
line 1. -/
theorem line_of_late_row :
    IsDivided (dropMark lateTable) [latePart] ∧
    placedData [latePart] = [⟨⟨1, ["t.json", "1", "1", "0"]⟩, 2, [lineFeed]⟩] ∧
    valueCases lateTable = .ok [⟨1, "t.json", 1, 1, 0⟩] := by
  have hlate : latePart.IsEnded := by
    refine ⟨IsGap.nil.lineEnd rfl, ⟨0x74, by decide, by decide⟩, ?_, lineFeed, rfl, by decide⟩
    exact spellsRecord_of_bare ["t.json".toUTF8.data.toList, [0x31], [0x31]] (by decide) (by decide)
  refine ⟨?_, by decide +kernel, by decide +kernel⟩
  exact .gap (List.forall_mem_singleton.2 hlate) .nil

end GlyphMath.Table
