import GlyphMath.Table.Case
import Mathlib.Data.List.Forall2

/-!
# What the cases of a table are read from

* `AreRows` -- the texts of records, without blanks around their fields.
* `IsHeader`, `IsBlankRow`, `dataOf` -- the rows that hold data: all but a header, which only the
  first row can be, and empty rows.
* `Row.Reads`, `Row.FirstUnread` -- the numbers in the columns of a row.
* `Row.Gives`, `Row.GivesError` -- the cases that rows give.
* `FirstFault`, `Refused` -- the error of a table: its first row that is too short, else the first
  column without a number of the first row that has one.
* `IsRead` -- what is read from data rows.

`rows` goes through all records before a number is read, so a short row is reported before any
number in front of it.

Principal results:

* `rows_of_long`, `rows_of_short` -- the rows of records.
* `casesOf_eq_ok_iff`, `casesOf_eq_error_iff` -- the cases of rows.
* `cases_isRead` -- the cases of a table, or its error.
-/

set_option autoImplicit false

namespace GlyphMath.Table

/-! ## Data rows -/

/-- The texts of records, without blanks around their fields, under the lines of the records. -/
def AreRows (records : List Record) (rows : List Row) : Prop :=
  List.Forall₂ (fun r row => row.line = r.line ∧ fieldTexts? r.fields = some row.fields)
    records rows

/-- A first field starts with `file`, in any case. -/
def IsHeader (fields : List String) : Prop :=
  ∃ first rest, fields = first :: rest ∧ "file".toList <+: first.toList.map Char.toLower

def IsBlankRow (fields : List String) : Prop := ∀ field ∈ fields, field = ""

theorem isHeader_iff {fields : List String} : isHeader fields = true ↔ IsHeader fields := by
  unfold isHeader IsHeader
  cases fields with
  | nil => simp
  | cons first rest =>
    simp only [List.cons.injEq, List.prefix_iff_eq_take, ← List.map_take, beq_iff_eq]
    constructor
    · intro h
      exact ⟨first, rest, ⟨rfl, rfl⟩, h.symm⟩
    · rintro ⟨first', rest', ⟨rfl, rfl⟩, h⟩
      exact h.symm

theorem isBlankRow_iff {fields : List String} : isBlankRow fields = true ↔ IsBlankRow fields := by
  simp [isBlankRow, IsBlankRow]

instance (fields : List String) : Decidable (IsHeader fields) := decidable_of_iff _ isHeader_iff

instance (fields : List String) : Decidable (IsBlankRow fields) :=
  decidable_of_iff _ isBlankRow_iff

/-- What holds data among things with fields: all but a header in front, and empty rows. -/
def dataOf {α : Type} (fields : α → List String) : List α → List α
  | [] => []
  | a :: as =>
    (if IsHeader (fields a) then as else a :: as).filter fun b => ¬ IsBlankRow (fields b)

/-! ## Columns -/

/-- A row has a number in a column, counted from one. -/
def Row.Reads (row : Row) (column : Nat) (x : Float) : Prop :=
  ∃ field, row.fields[column - 1]? = some field ∧ Decimal.read? field.toList = some x

/-- The first of some columns that holds something else than a number. -/
def Row.FirstUnread (row : Row) (numbers : List Nat) (column : Nat) (field : String) : Prop :=
  ∃ before after, numbers = before ++ column :: after ∧
    row.fields[column - 1]? = some field ∧ Decimal.read? field.toList = none ∧
    ∀ c ∈ before, ∃ x, row.Reads c x

/-- A row has columns enough, and numbers in some of them. -/
def Row.IsReadable (row : Row) (columns : Nat) (numbers : List Nat) : Prop :=
  columns ≤ row.fields.length ∧ ∀ c ∈ numbers, ∃ x, row.Reads c x

/-- The first of some rows that is too short. -/
def FirstShort (columns : Nat) (rows : List Row) (row : Row) : Prop :=
  ∃ before after, rows = before ++ row :: after ∧ row.fields.length < columns ∧
    ∀ r ∈ before, columns ≤ r.fields.length

/-- The fault that is reported of data rows: that of the first row that is too short; where there
is none, the first column without a number of the first row that has one. -/
inductive FirstFault (columns : Nat) (numbers : List Nat) (before : List Row) (row : Row)
    (after : List Row) : RowProblem → Prop where
  | tooShort (long : ∀ r ∈ before, columns ≤ r.fields.length)
      (short : row.fields.length < columns) :
      FirstFault columns numbers before row after (.tooShort columns row.fields.length)
  | notNumber {column : Nat} {field : String}
      (long : ∀ r ∈ before ++ row :: after, columns ≤ r.fields.length)
      (readable : ∀ r ∈ before, ∀ c ∈ numbers, ∃ x, r.Reads c x)
      (unread : row.FirstUnread numbers column field) :
      FirstFault columns numbers before row after (.notNumber column field)

/-- The error of data rows, under the line of the row at fault. -/
def Refused (columns : Nat) (numbers : List Nat) (rows : List Row) (e : TableError) : Prop :=
  ∃ before row after problem, rows = before ++ row :: after ∧
    FirstFault columns numbers before row after problem ∧ e = .badRow row.line problem

/-- What is read from data rows: a case for each of them, in order, or their error. -/
structure IsRead {α : Type} (columns : Nat) (numbers : List Nat) (Gives : Row → α → Prop)
    (rows : List Row) (result : Except TableError (List α)) : Prop where
  readable_iff : (∃ cases, result = .ok cases) ↔ ∀ row ∈ rows, row.IsReadable columns numbers
  ok_iff : ∀ cases, result = .ok cases ↔ List.Forall₂ Gives rows cases
  error_iff : ∀ e, result = .error e ↔ Refused columns numbers rows e

/-- A row gives a value case. -/
structure Row.Gives (row : Row) (c : ValueCase) : Prop where
  line : c.line = row.line
  file : row.fields[0]? = some c.file
  x : row.Reads 2 c.x
  expected : row.Reads 3 c.expected
  tolerance : row.Reads 4 c.tolerance

/-- A row gives an error case. -/
structure Row.GivesError (row : Row) (c : ErrorCase) : Prop where
  line : c.line = row.line
  file : row.fields[0]? = some c.file
  x : row.Reads 2 c.x
  expected : row.fields[2]? = some c.expected

/-! ## Rows -/

section

variable {columns : Nat} {records : List Record} {rs : List Row}

theorem rowsFrom_cons {r : Record} {fields : List String} (h : fieldTexts? r.fields = some fields) :
    rowsFrom columns true (r :: records) =
      if IsHeader fields then rowsFrom columns false records
      else rowsFrom columns false (r :: records) := by
  by_cases hheader : IsHeader fields
  · rw [if_pos hheader, rowsFrom, h]
    simp [isHeader_iff.2 hheader]
  · rw [if_neg hheader, rowsFrom, rowsFrom, h]
    simp [mt isHeader_iff.1 hheader]

/-- An empty row is passed over, and another one taken where it is long enough. -/
theorem rowsFrom_cons_false {r : Record} {row : Row} (hline : row.line = r.line)
    (htexts : fieldTexts? r.fields = some row.fields) :
    rowsFrom columns false (r :: records) =
      if IsBlankRow row.fields then rowsFrom columns false records
      else if row.fields.length < columns then
        .error (.badRow row.line (.tooShort columns row.fields.length))
      else (rowsFrom columns false records).map (row :: ·) := by
  obtain ⟨line, fields⟩ := row
  cases hline
  rw [rowsFrom, htexts]
  by_cases hblank : IsBlankRow fields
  · simp [hblank, isBlankRow_iff.2 hblank]
  · by_cases hshort : fields.length < columns
    · simp [hblank, mt isBlankRow_iff.1 hblank, hshort]
    · cases hrest : rowsFrom columns false records <;>
        simp [hblank, mt isBlankRow_iff.1 hblank, hshort, Except.map]

def filled (rows : List Row) : List Row := rows.filter fun row => ¬ IsBlankRow row.fields

theorem filled_cons (row : Row) (rows : List Row) :
    filled (row :: rows) = if IsBlankRow row.fields then filled rows else row :: filled rows := by
  by_cases hblank : IsBlankRow row.fields <;> simp [filled, hblank]

theorem rowsFrom_of_long (h : AreRows records rs) (rest : List Record)
    (hlong : ∀ row ∈ filled rs, columns ≤ row.fields.length) :
    rowsFrom columns false (records ++ rest) =
      (rowsFrom columns false rest).map (filled rs ++ ·) := by
  induction h with
  | nil => cases hrest : rowsFrom columns false rest <;> simp [hrest, Except.map, filled]
  | @cons r row records rs hrow _ ih =>
    rw [List.cons_append, rowsFrom_cons_false hrow.1 hrow.2]
    rw [filled_cons] at hlong ⊢
    split
    · rename_i hblank
      rw [if_pos hblank] at hlong
      exact ih hlong
    · rename_i hblank
      rw [if_neg hblank, List.forall_mem_cons] at hlong
      rw [if_neg (Nat.not_lt.2 hlong.1), ih hlong.2]
      cases rowsFrom columns false rest <;> simp [Except.map]

theorem rowsFrom_of_short (h : AreRows records rs) (rest : List Record) {short : Row}
    (hshort : FirstShort columns (filled rs) short) :
    rowsFrom columns false (records ++ rest) =
      .error (.badRow short.line (.tooShort columns short.fields.length)) := by
  induction h with
  | nil =>
    obtain ⟨before, after, hrows, -⟩ := hshort
    simp [filled] at hrows
  | @cons r row records rs hrow _ ih =>
    rw [List.cons_append, rowsFrom_cons_false hrow.1 hrow.2]
    rw [filled_cons] at hshort
    split
    · rename_i hblank
      rw [if_pos hblank] at hshort
      exact ih hshort
    · rename_i hblank
      rw [if_neg hblank] at hshort
      obtain ⟨before, after, hrows, hlength, hbefore⟩ := hshort
      cases before with
      | nil =>
        rw [List.nil_append, List.cons.injEq] at hrows
        rw [hrows.1, if_pos hlength]
      | cons first before =>
        rw [List.cons_append, List.cons.injEq] at hrows
        rw [List.forall_mem_cons, ← hrows.1] at hbefore
        rw [if_neg (Nat.not_lt.2 hbefore.1), ih ⟨before, after, hrows.2, hlength, hbefore.2⟩]
        rfl

/-- A header in front is left out before the rows are taken. -/
theorem rows_cons (columns : Nat) {r : Record} {row : Row}
    (h : AreRows (r :: records) (row :: rs)) :
    ∃ records' rs', AreRows records' rs' ∧ dataOf Row.fields (row :: rs) = filled rs' ∧
      ∀ rest, rows columns (r :: records ++ rest) = rowsFrom columns false (records' ++ rest) := by
  obtain ⟨hrow, hrecords⟩ := List.forall₂_cons.1 h
  by_cases hheader : IsHeader row.fields
  · refine ⟨records, rs, hrecords, ?_, fun rest => ?_⟩
    · rw [dataOf, if_pos hheader, filled]
    · rw [List.cons_append, rows, rowsFrom_cons hrow.2, if_pos hheader]
  · refine ⟨r :: records, row :: rs, h, ?_, fun rest => ?_⟩
    · rw [dataOf, if_neg hheader, filled]
    · rw [List.cons_append, rows, rowsFrom_cons hrow.2, if_neg hheader]

/-- **Data rows that are long enough are the rows of their records.** -/
theorem rows_of_long (h : AreRows records rs)
    (hlong : ∀ row ∈ dataOf Row.fields rs, columns ≤ row.fields.length) :
    rows columns records = .ok (dataOf Row.fields rs) := by
  cases h with
  | nil => rfl
  | @cons r row records rs hrow hrecords =>
    obtain ⟨records', rs', hrows, hdata, htake⟩ := rows_cons columns (.cons hrow hrecords)
    rw [hdata] at hlong ⊢
    have hrows' := (htake []).trans (rowsFrom_of_long hrows [] hlong)
    simpa [rowsFrom, Except.map] using hrows'

/-- A record that is no text is reported where no short row stands in front of it. -/
theorem rows_of_unreadable (h : AreRows records rs)
    (hlong : ∀ row ∈ dataOf Row.fields rs, columns ≤ row.fields.length) {r : Record}
    (hr : fieldTexts? r.fields = none) (rest : List Record) :
    rows columns (records ++ r :: rest) = .error .unreadable := by
  have hstop (first : Bool) : rowsFrom columns first (r :: rest) = .error .unreadable := by
    rw [rowsFrom, hr]
  cases h with
  | nil => exact hstop true
  | @cons r row records rs hrow hrecords =>
    obtain ⟨records', rs', hrows, hdata, htake⟩ := rows_cons columns (.cons hrow hrecords)
    rw [hdata] at hlong
    rw [htake, rowsFrom_of_long hrows _ hlong, hstop]
    rfl

/-- **The first data row that is too short is reported**, whatever follows it. -/
theorem rows_of_short (h : AreRows records rs) {short : Row}
    (hshort : FirstShort columns (dataOf Row.fields rs) short) (rest : List Record) :
    rows columns (records ++ rest) =
      .error (.badRow short.line (.tooShort columns short.fields.length)) := by
  cases h with
  | nil =>
    obtain ⟨before, after, hrows, -⟩ := hshort
    simp [dataOf] at hrows
  | @cons r row records rs hrow hrecords =>
    obtain ⟨records', rs', hrows, hdata, htake⟩ := rows_cons columns (.cons hrow hrecords)
    rw [hdata] at hshort
    rw [htake, rowsFrom_of_short hrows _ hshort]

/-- Rows are long enough, or there is a first one that is too short. -/
theorem long_or_short (columns : Nat) (rows : List Row) :
    (∀ row ∈ rows, columns ≤ row.fields.length) ∨ ∃ row, FirstShort columns rows row := by
  induction rows with
  | nil => exact Or.inl (by simp)
  | cons row rows ih =>
    by_cases hrow : columns ≤ row.fields.length
    · rcases ih with hlong | ⟨short, before, after, rfl, hlength, hbefore⟩
      · exact Or.inl (List.forall_mem_cons.2 ⟨hrow, hlong⟩)
      · exact Or.inr ⟨short, row :: before, after, rfl, hlength,
          List.forall_mem_cons.2 ⟨hrow, hbefore⟩⟩
    · exact Or.inr ⟨row, [], rows, rfl, Nat.lt_of_not_le hrow, by simp⟩

end

/-! ## Cases -/

theorem exists_of_forall₂ {α β : Type} {R : α → β → Prop} {as : List α} {bs : List β}
    (h : List.Forall₂ R as bs) : ∀ a ∈ as, ∃ b, R a b := by
  induction h with
  | nil => simp
  | @cons a b as bs hab _ ih => exact List.forall_mem_cons.2 ⟨⟨b, hab⟩, ih⟩

section

variable {α : Type} {read : Row → Except TableError α}

theorem casesOf_eq_ok_iff {rows : List Row} {cases : List α} :
    casesOf read rows = .ok cases ↔ List.Forall₂ (fun row c => read row = .ok c) rows cases := by
  induction rows generalizing cases with
  | nil => cases cases <;> simp [casesOf]
  | cons row rows ih =>
    rw [casesOf]
    cases hrow : read row with
    | error e => cases cases <;> simp [hrow]
    | ok c =>
      cases hrows : casesOf read rows with
      | error e => cases cases <;> simp [hrow, ← ih, hrows]
      | ok cs => cases cases <;> simp [hrow, ← ih, hrows]

theorem casesOf_eq_error_iff {rows : List Row} {e : TableError} :
    casesOf read rows = .error e ↔ ∃ before row after, rows = before ++ row :: after ∧
      read row = .error e ∧ ∀ r ∈ before, ∃ c, read r = .ok c := by
  induction rows with
  | nil => simp [casesOf]
  | cons row rows ih =>
    rw [casesOf]
    constructor
    · intro h
      cases hrow : read row with
      | error e' =>
        simp only [hrow, Except.error.injEq] at h
        exact ⟨[], row, rows, rfl, by rw [hrow, h], by simp⟩
      | ok c =>
        have hrows : casesOf read rows = .error e := by
          cases hrows : casesOf read rows <;> simp_all
        obtain ⟨before, row', after, rfl, hrow', hbefore⟩ := ih.1 hrows
        exact ⟨row :: before, row', after, rfl, hrow',
          List.forall_mem_cons.2 ⟨⟨c, hrow⟩, hbefore⟩⟩
    · rintro ⟨before, row', after, hrows, hrow', hbefore⟩
      cases before with
      | nil =>
        cases hrows
        rw [hrow']
      | cons first before =>
        cases hrows
        obtain ⟨⟨c, hc⟩, hbefore⟩ := List.forall_mem_cons.1 hbefore
        rw [hc, ih.2 ⟨before, row', after, rfl, hrow', hbefore⟩]

end

/-! ## Numbers -/

/-- The numbers in some columns of a row. -/
def Row.numbers (row : Row) : List Nat → Except TableError (List Float)
  | [] => .ok []
  | n :: ns =>
    match row.number n with
    | .error e => .error e
    | .ok x => (row.numbers ns).map (x :: ·)

section

variable {row : Row} {numbers : List Nat}

theorem Row.field_eq (column : Nat) (h : column - 1 < row.fields.length) :
    row.fields[column - 1]? = some (row.field column) := by
  simp [Row.field, h]

theorem number_eq_ok_iff {column : Nat} (h : column - 1 < row.fields.length) {x : Float} :
    row.number column = .ok x ↔ row.Reads column x := by
  rw [Row.number, Row.Reads, Row.field_eq column h]
  cases hread : Decimal.read? (row.field column).toList <;> simp [hread]

theorem number_eq_error_iff {column : Nat} (h : column - 1 < row.fields.length) {e : TableError} :
    row.number column = .error e ↔ ∃ field, row.fields[column - 1]? = some field ∧
      Decimal.read? field.toList = none ∧ e = .badRow row.line (.notNumber column field) := by
  rw [Row.number, Row.field_eq column h]
  cases hread : Decimal.read? (row.field column).toList <;> simp [hread, eq_comm]

theorem Row.Reads.lt {column : Nat} {x : Float} (h : row.Reads column x) :
    column - 1 < row.fields.length := by
  obtain ⟨field, hfield, -⟩ := h
  exact (List.getElem?_eq_some_iff.1 hfield).1

theorem numbers_eq_ok_iff (h : ∀ n ∈ numbers, n - 1 < row.fields.length) {xs : List Float} :
    row.numbers numbers = .ok xs ↔ List.Forall₂ row.Reads numbers xs := by
  induction numbers generalizing xs with
  | nil => cases xs <;> simp [Row.numbers]
  | cons n numbers ih =>
    obtain ⟨hn, hnumbers⟩ := List.forall_mem_cons.1 h
    rw [Row.numbers]
    cases hnumber : row.number n with
    | error e => cases xs <;> simp [← number_eq_ok_iff hn, hnumber]
    | ok x =>
      cases hrest : row.numbers numbers <;> cases xs <;>
        simp [Except.map, ← number_eq_ok_iff hn, ← ih hnumbers, hnumber, hrest]

theorem numbers_eq_error_iff (h : ∀ n ∈ numbers, n - 1 < row.fields.length) {e : TableError} :
    row.numbers numbers = .error e ↔ ∃ column field, row.FirstUnread numbers column field ∧
      e = .badRow row.line (.notNumber column field) := by
  induction numbers with
  | nil => simp [Row.numbers, Row.FirstUnread]
  | cons n numbers ih =>
    obtain ⟨hn, hnumbers⟩ := List.forall_mem_cons.1 h
    rw [Row.numbers]
    constructor
    · intro herror
      cases hnumber : row.number n with
      | error e' =>
        obtain ⟨field, hfield, hread, rfl⟩ := (number_eq_error_iff hn).1 hnumber
        rw [hnumber] at herror
        cases herror
        exact ⟨n, field, ⟨[], numbers, rfl, hfield, hread, by simp⟩, rfl⟩
      | ok x =>
        have hrest : row.numbers numbers = .error e := by
          cases hrest : row.numbers numbers <;> simp_all [Except.map]
        obtain ⟨column, field, ⟨before, after, rfl, hfield, hread, hbefore⟩, rfl⟩ :=
          (ih hnumbers).1 hrest
        exact ⟨column, field, ⟨n :: before, after, rfl, hfield, hread,
          List.forall_mem_cons.2 ⟨⟨x, (number_eq_ok_iff hn).1 hnumber⟩, hbefore⟩⟩, rfl⟩
    · rintro ⟨column, field, ⟨before, after, hsplit, hfield, hread, hbefore⟩, rfl⟩
      cases before with
      | nil =>
        cases hsplit
        rw [(number_eq_error_iff hn).2 ⟨field, hfield, hread, rfl⟩]
      | cons first before =>
        cases hsplit
        obtain ⟨⟨x, hx⟩, hbefore⟩ := List.forall_mem_cons.1 hbefore
        rw [(number_eq_ok_iff hn).2 hx,
          (ih hnumbers).2 ⟨column, field, ⟨before, after, rfl, hfield, hread, hbefore⟩, rfl⟩]
        rfl

theorem Row.FirstUnread.not_reads {column : Nat} {field : String}
    (h : row.FirstUnread numbers column field) : ¬ ∀ n ∈ numbers, ∃ x, row.Reads n x := by
  obtain ⟨before, after, rfl, hfield, hunread, -⟩ := h
  intro hall
  obtain ⟨x, field', hfield', hread⟩ := hall column (by simp)
  rw [hfield, Option.some.injEq] at hfield'
  rw [hfield', hread] at hunread
  cases hunread

/-! ## The cases of rows -/

theorem valueCase_eq_ok_iff {c : ValueCase} : valueCase row = .ok c ↔
    row.numbers [2, 3, 4] = .ok [c.x, c.expected, c.tolerance] ∧ c.line = row.line ∧
      c.file = row.field 1 := by
  obtain ⟨line, file, x, expected, tolerance⟩ := c
  simp only [valueCase, Row.numbers]
  cases row.number 2 <;> cases row.number 3 <;> cases row.number 4 <;>
    simp [Except.map]
  tauto

theorem valueCase_eq_error_iff {e : TableError} :
    valueCase row = .error e ↔ row.numbers [2, 3, 4] = .error e := by
  simp only [valueCase, Row.numbers]
  cases row.number 2 <;> cases row.number 3 <;> cases row.number 4 <;> simp [Except.map]

theorem errorCase_eq_ok_iff {c : ErrorCase} : errorCase row = .ok c ↔
    row.numbers [2] = .ok [c.x] ∧ c.line = row.line ∧ c.file = row.field 1 ∧
      c.expected = row.field 3 := by
  obtain ⟨line, file, x, expected⟩ := c
  simp only [errorCase, Row.numbers]
  cases row.number 2 <;> simp [Except.map]
  tauto

theorem errorCase_eq_error_iff {e : TableError} :
    errorCase row = .error e ↔ row.numbers [2] = .error e := by
  simp only [errorCase, Row.numbers]
  cases row.number 2 <;> simp [Except.map]

end

/-- What rows that are long enough are read as: a case that the row gives, or the first column
without a number. -/
structure Extracts {α : Type} (columns : Nat) (numbers : List Nat) (Gives : Row → α → Prop)
    (read : Row → Except TableError α) : Prop where
  reads : ∀ row c, Gives row c → row.IsReadable columns numbers
  ok_iff : ∀ row c, columns ≤ row.fields.length → (read row = .ok c ↔ Gives row c)
  error_iff : ∀ row e, columns ≤ row.fields.length → (read row = .error e ↔
    ∃ column field, row.FirstUnread numbers column field ∧
      e = .badRow row.line (.notNumber column field))

theorem valueCase_extracts : Extracts 4 [2, 3, 4] Row.Gives valueCase where
  reads row c h := by
    have hlong := h.tolerance.lt
    refine ⟨by omega, ?_⟩
    simp only [List.forall_mem_cons]
    exact ⟨⟨_, h.x⟩, ⟨_, h.expected⟩, ⟨_, h.tolerance⟩, by simp⟩
  ok_iff row c hlong := by
    rw [valueCase_eq_ok_iff, numbers_eq_ok_iff (by simp; omega)]
    simp only [List.forall₂_cons, List.forall₂_nil_left_iff, and_true]
    constructor
    · rintro ⟨⟨hx, hexpected, htolerance⟩, hline, hfile⟩
      exact ⟨hline, by rw [Row.field_eq 1 (by omega), hfile], hx, hexpected, htolerance⟩
    · rintro ⟨hline, hfile, hx, hexpected, htolerance⟩
      rw [Row.field_eq 1 (by omega), Option.some.injEq] at hfile
      exact ⟨⟨hx, hexpected, htolerance⟩, hline, hfile.symm⟩
  error_iff row e hlong := by
    rw [valueCase_eq_error_iff, numbers_eq_error_iff (by simp; omega)]

theorem errorCase_extracts : Extracts 3 [2] Row.GivesError errorCase where
  reads row c h := by
    have hlong := (List.getElem?_eq_some_iff.1 h.expected).1
    refine ⟨by omega, ?_⟩
    simp only [List.forall_mem_cons]
    exact ⟨⟨_, h.x⟩, by simp⟩
  ok_iff row c hlong := by
    rw [errorCase_eq_ok_iff, numbers_eq_ok_iff (by simp; omega)]
    simp only [List.forall₂_cons, List.forall₂_nil_left_iff, and_true]
    constructor
    · rintro ⟨hx, hline, hfile, hexpected⟩
      exact ⟨hline, by rw [Row.field_eq 1 (by omega), hfile], hx,
        by rw [Row.field_eq 3 (by omega), hexpected]⟩
    · rintro ⟨hline, hfile, hx, hexpected⟩
      rw [Row.field_eq 1 (by omega), Option.some.injEq] at hfile
      rw [Row.field_eq 3 (by omega), Option.some.injEq] at hexpected
      exact ⟨hx, hline, hfile.symm, hexpected.symm⟩
  error_iff row e hlong := by
    rw [errorCase_eq_error_iff, numbers_eq_error_iff (by simp; omega)]

section

variable {α : Type} {columns : Nat} {numbers : List Nat} {Gives : Row → α → Prop}
  {read : Row → Except TableError α}

/-- A row that is long enough is read where its columns hold numbers. -/
theorem Extracts.exists_ok_iff (h : Extracts columns numbers Gives read) {row : Row}
    (hlong : columns ≤ row.fields.length) :
    (∃ c, read row = .ok c) ↔ ∀ n ∈ numbers, ∃ x, row.Reads n x := by
  constructor
  · rintro ⟨c, hc⟩
    exact (h.reads row c ((h.ok_iff row c hlong).1 hc)).2
  · intro hreads
    cases hrow : read row with
    | ok c => exact ⟨c, rfl⟩
    | error e =>
      obtain ⟨column, field, hunread, -⟩ := (h.error_iff row e hlong).1 hrow
      exact absurd hreads hunread.not_reads

theorem Extracts.casesOf_isRead (h : Extracts columns numbers Gives read) {rs : List Row}
    (hlong : ∀ row ∈ rs, columns ≤ row.fields.length) :
    IsRead columns numbers Gives rs (casesOf read rs) where
  readable_iff := by
    constructor
    · rintro ⟨cases, hcases⟩ row hrow
      obtain ⟨c, hc⟩ := exists_of_forall₂ (casesOf_eq_ok_iff.1 hcases) row hrow
      exact h.reads row c ((h.ok_iff row c (hlong row hrow)).1 hc)
    · intro hreadable
      cases hcases : casesOf read rs with
      | ok cases => exact ⟨cases, rfl⟩
      | error e =>
        obtain ⟨before, row, after, rfl, hrow, -⟩ := casesOf_eq_error_iff.1 hcases
        obtain ⟨c, hc⟩ := (h.exists_ok_iff (hlong row (by simp))).2 (hreadable row (by simp)).2
        rw [hrow] at hc
        cases hc
  ok_iff cases := by
    rw [casesOf_eq_ok_iff, List.forall₂_iff_zip, List.forall₂_iff_zip]
    refine and_congr_right fun _ => ?_
    constructor
    · intro hcases row c hrow
      exact (h.ok_iff row c (hlong row (List.of_mem_zip hrow).1)).1 (hcases hrow)
    · intro hcases row c hrow
      exact (h.ok_iff row c (hlong row (List.of_mem_zip hrow).1)).2 (hcases hrow)
  error_iff e := by
    rw [casesOf_eq_error_iff]
    constructor
    · rintro ⟨before, row, after, rfl, hrow, hbefore⟩
      obtain ⟨column, field, hunread, rfl⟩ := (h.error_iff row e (hlong row (by simp))).1 hrow
      exact ⟨before, row, after, _, rfl, .notNumber hlong (fun r hr =>
        (h.exists_ok_iff (hlong r (by simp [hr]))).1 (hbefore r hr)) hunread, rfl⟩
    · rintro ⟨before, row, after, problem, rfl, hfault, rfl⟩
      have hrow := hlong row (by simp)
      cases hfault with
      | tooShort _ hshort => exact absurd hrow (Nat.not_le.2 hshort)
      | notNumber _ hreadable hunread =>
        exact ⟨before, row, after, rfl, (h.error_iff row _ hrow).2 ⟨_, _, hunread, rfl⟩,
          fun r hr => (h.exists_ok_iff (hlong r (by simp [hr]))).2 (hreadable r hr)⟩

/-- **What is read from a table of texts.** -/
theorem Extracts.isRead (h : Extracts columns numbers Gives read) {records : List Record}
    {rs : List Row} (hrows : AreRows records rs) :
    IsRead columns numbers Gives (dataOf Row.fields rs)
      (match rows columns records with
        | .error e => .error e
        | .ok rows => casesOf read rows) := by
  -- no number is read before all rows are known to be long enough
  rcases long_or_short columns (dataOf Row.fields rs) with hlong | ⟨short, hshort⟩
  · rw [rows_of_long hrows hlong]
    exact h.casesOf_isRead hlong
  · have herror := rows_of_short hrows hshort []
    rw [List.append_nil] at herror
    obtain ⟨before, after, hsplit, hlength, hbefore⟩ := id hshort
    have hmem : short ∈ dataOf Row.fields rs := by simp [hsplit]
    rw [herror]
    constructor
    · constructor
      · rintro ⟨cases, hcases⟩
        cases hcases
      · intro hreadable
        exact absurd (hreadable short hmem).1 (Nat.not_le.2 hlength)
    · intro cases
      constructor
      · intro hcases
        cases hcases
      · intro hcases
        obtain ⟨c, hc⟩ := exists_of_forall₂ hcases short hmem
        exact absurd (h.reads short c hc).1 (Nat.not_le.2 hlength)
    · intro e
      constructor
      · intro he
        cases he
        exact ⟨before, short, after, _, hsplit, .tooShort hbefore hlength, rfl⟩
      · rintro ⟨before', row, after', problem, hsplit', hfault, rfl⟩
        cases hfault with
        | tooShort hlong hrow =>
          have hfirst := rows_of_short hrows ⟨before', after', hsplit', hrow, hlong⟩ []
          rw [List.append_nil, herror] at hfirst
          rw [hfirst]
        | notNumber hlong =>
          rw [← hsplit'] at hlong
          exact absurd (hlong short hmem) (Nat.not_le.2 hlength)

end

/-- **No row of a table is lost or misread.**  A table whose records are texts has a case for each
of its data rows, in order, if all of them have columns and numbers enough, and only then.  Else it
is refused for its first data row that is too short, and where there is none for the first column
without a number of the first data row that has one. -/
theorem cases_isRead {bytes : List UInt8} {rs : List Row} (h : AreRows (records bytes) rs) :
    IsRead 4 [2, 3, 4] Row.Gives (dataOf Row.fields rs) (valueCases bytes) ∧
      IsRead 3 [2] Row.GivesError (dataOf Row.fields rs) (errorCases bytes) :=
  ⟨valueCase_extracts.isRead h, errorCase_extracts.isRead h⟩

/-- A table with a header, a comment, a row without a number, an empty row and a short row. -/
def raggedTable : List UInt8 :=
  "FILE , x\n# squares\n\"a,b.json\",one,2, 3\n , \r\nc.json, +1e3 \n".toUTF8.data.toList

def raggedRows : List Row :=
  [⟨1, ["FILE", "x"]⟩, ⟨2, ["a,b.json", "one", "2", "3"]⟩, ⟨4, ["", ""]⟩, ⟨4, ["c.json", "+1e3"]⟩]

/-- A table with a header and two rows of numbers. -/
def squaresTable : List UInt8 :=
  "File,x,y,tolerance\na.json, 2 ,4,0\n,,,\nb.json,-1.5,+2.25,1e-9,kept\n".toUTF8.data.toList

def squaresRows : List Row :=
  [⟨1, ["File", "x", "y", "tolerance"]⟩, ⟨2, ["a.json", "2", "4", "0"]⟩, ⟨3, ["", "", "", ""]⟩,
    ⟨4, ["b.json", "-1.5", "+2.25", "1e-9", "kept"]⟩]

/-- A table with two words in its second row. -/
def wordTable : List UInt8 := "a.json,2,4,0\nb.json,1,one,many\n".toUTF8.data.toList

def wordRows : List Row := [⟨1, ["a.json", "2", "4", "0"]⟩, ⟨2, ["b.json", "1", "one", "many"]⟩]

/-- The short row is reported, not the word in front of it; where no row is short, the first of two
words that stand for numbers.  Rows with all their numbers give their cases, and so does a word
where no number is read. -/
theorem cases_isRead_ragged :
    AreRows (records raggedTable) raggedRows ∧
    IsRead 4 [2, 3, 4] Row.Gives
      [⟨2, ["a,b.json", "one", "2", "3"]⟩, ⟨4, ["c.json", "+1e3"]⟩] (valueCases raggedTable) ∧
    valueCases raggedTable = .error (.badRow 4 (.tooShort 4 2)) ∧
    AreRows (records squaresTable) squaresRows ∧
    valueCases squaresTable =
      .ok [⟨2, "a.json", 2, 4, 0⟩, ⟨4, "b.json", -1.5, 2.25, 1e-9⟩] ∧
    AreRows (records wordTable) wordRows ∧
    valueCases wordTable = .error (.badRow 2 (.notNumber 3 "one")) ∧
    errorCases wordTable = .ok [⟨1, "a.json", 2, "4"⟩, ⟨2, "b.json", 1, "one"⟩] := by
  have hragged : AreRows (records raggedTable) raggedRows := by
    unfold AreRows
    decide +kernel
  have hsquares : AreRows (records squaresTable) squaresRows := by
    unfold AreRows
    decide +kernel
  have hwords : AreRows (records wordTable) wordRows := by
    unfold AreRows
    decide +kernel
  refine ⟨hragged, ?_, ?_, hsquares, ?_, hwords, ?_, ?_⟩
  · exact (cases_isRead hragged).1
  · refine ((cases_isRead hragged).1.error_iff _).2 ⟨[⟨2, ["a,b.json", "one", "2", "3"]⟩],
      ⟨4, ["c.json", "+1e3"]⟩, [], _, rfl, .tooShort ?_ ?_, rfl⟩
    · decide
    · decide
  · refine ((cases_isRead hsquares).1.ok_iff _).2 (.cons ?_ (.cons ?_ .nil))
    · exact ⟨rfl, rfl, ⟨_, rfl, by decide +kernel⟩, ⟨_, rfl, by decide +kernel⟩,
        ⟨_, rfl, by decide +kernel⟩⟩
    · exact ⟨rfl, rfl, ⟨_, rfl, by decide +kernel⟩, ⟨_, rfl, by decide +kernel⟩,
        ⟨_, rfl, by decide +kernel⟩⟩
  · refine ((cases_isRead hwords).1.error_iff _).2 ⟨[⟨1, ["a.json", "2", "4", "0"]⟩],
      ⟨2, ["b.json", "1", "one", "many"]⟩, [], _, rfl, .notNumber ?_ ?_ ?_, rfl⟩
    · decide
    · simp only [List.forall_mem_cons]
      exact ⟨⟨⟨2, _, rfl, by decide +kernel⟩, ⟨4, _, rfl, by decide +kernel⟩,
        ⟨0, _, rfl, by decide +kernel⟩, by simp⟩, by simp⟩
    · refine ⟨[2], [4], rfl, rfl, by decide +kernel, ?_⟩
      simp only [List.forall_mem_cons]
      exact ⟨⟨1, _, rfl, by decide +kernel⟩, by simp⟩
  · refine ((cases_isRead hwords).2.ok_iff _).2 (.cons ?_ (.cons ?_ .nil))
    · exact ⟨rfl, rfl, ⟨_, rfl, by decide +kernel⟩, rfl⟩
    · exact ⟨rfl, rfl, ⟨_, rfl, by decide +kernel⟩, rfl⟩

end GlyphMath.Table
