import GlyphMath.Table.Record
import Mathlib.Data.List.Induction

/-!
# The parts of a table

* `SpellsField`, `SpellsRecord`, `SpellsCut` -- how fields are written: bare or between quotes, with
  commas between them, the last one perhaps cut off by the end of the table.
* `IsGap` -- what can stand between records: line ends and comment lines.
* `Part` -- a record with the gap in front of it and the line end behind it.
* `IsDivided` -- a table as parts and what follows them.
* `recordsAfter` -- the records of parts, each under the line on which the part in front of it ends.

Principal results:

* `exists_isDivided` -- every table can be divided into parts.
* `IsDivided.records_eq` -- its records are those of the parts.
-/

set_option autoImplicit false

namespace GlyphMath.Table

/-! ## Fields -/

/-- A byte that a field outside of quotes can hold. -/
def IsBare (b : UInt8) : Prop := b ≠ comma ∧ endsLine b = false

instance (b : UInt8) : Decidable (IsBare b) := inferInstanceAs (Decidable (_ ∧ _))

/-- A text that can stand in a field without quotes around it. -/
structure IsBareText (text : List UInt8) : Prop where
  bytes : ∀ b ∈ text, IsBare b
  first : text.head? ≠ some quote

instance (text : List UInt8) : Decidable (IsBareText text) :=
  decidable_of_iff (text.all (fun b => decide (IsBare b)) = true ∧ text.head? ≠ some quote) <| by
    rw [List.all_eq_true]
    constructor
    · intro h
      exact ⟨fun b hb => of_decide_eq_true (h.1 b hb), h.2⟩
    · intro h
      exact ⟨fun b hb => decide_eq_true (h.bytes b hb), h.first⟩

/-- A text between quotes: every quote in it stands twice. -/
def doubled (text : List UInt8) : List UInt8 :=
  text.flatMap fun b => if b = quote then [quote, quote] else [b]

/-- How a field is written: without quotes, or with a text between quotes and further bytes behind
it. -/
inductive SpellsField : List UInt8 → List UInt8 → Prop where
  | bare {text : List UInt8} (h : IsBareText text) : SpellsField text text
  | quoted (text : List UInt8) {rest : List UInt8} (h : IsBareText rest) :
      SpellsField (quote :: (doubled text ++ quote :: rest)) (text ++ rest)

/-- How fields are written that have a comma behind each of them. -/
inductive SpellsFront : List UInt8 → List (List UInt8) → Prop where
  | nil : SpellsFront [] []
  | snoc {front written field : List UInt8} {fields : List (List UInt8)}
      (before : SpellsFront front fields) (last : SpellsField written field) :
      SpellsFront (front ++ written ++ [comma]) (fields ++ [field])

/-- How the fields of a record are written. -/
inductive SpellsRecord : List UInt8 → List (List UInt8) → Prop where
  | mk {front written field : List UInt8} {fields : List (List UInt8)}
      (before : SpellsFront front fields) (last : SpellsField written field) :
      SpellsRecord (front ++ written) (fields ++ [field])

/-- How the fields of a record are written whose last quote is left open. -/
inductive SpellsCut : List UInt8 → List (List UInt8) → Prop where
  | mk {front text : List UInt8} {fields : List (List UInt8)} (before : SpellsFront front fields) :
      SpellsCut (front ++ quote :: doubled text) (fields ++ [text])

theorem spellsRecord_of_bare (fields : List (List UInt8)) {last : List UInt8}
    (h : ∀ field ∈ fields, IsBareText field) (hlast : IsBareText last) :
    SpellsRecord (fields.flatMap (· ++ [comma]) ++ last) (fields ++ [last]) := by
  have hfront : SpellsFront (fields.flatMap (· ++ [comma])) fields := by
    induction fields using List.reverseRecOn with
    | nil => exact .nil
    | append_singleton fields field ih =>
      rw [List.forall_mem_append, List.forall_mem_singleton] at h
      have hnext := (ih h.1).snoc (.bare h.2)
      simpa using hnext
  exact .mk hfront (.bare hlast)

/-! ## Parts -/

/-- Line ends and comment lines. -/
inductive IsGap : List UInt8 → Prop where
  | nil : IsGap []
  | lineEnd {gap : List UInt8} {b : UInt8} (before : IsGap gap) (last : endsLine b = true) :
      IsGap (gap ++ [b])
  | comment {gap text : List UInt8} (before : IsGap gap) (line : lineFeed ∉ text) :
      IsGap (gap ++ (hash :: text ++ [lineFeed]))

/-- A record with its fields, what stands in front of it and what ends it. -/
structure Part where
  gap : List UInt8
  body : List UInt8
  fields : List (List UInt8)
  stop : List UInt8

def Part.text (p : Part) : List UInt8 := p.gap ++ (p.body ++ p.stop)

def textOf (parts : List Part) : List UInt8 := parts.flatMap Part.text

/-- A record begins with a byte that does not open a comment. -/
def BeginsRecord (body : List UInt8) : Prop := ∃ b, body.head? = some b ∧ b ≠ hash

/-- A part whose record is ended by a line end. -/
structure Part.IsEnded (p : Part) : Prop where
  gap : IsGap p.gap
  begins : BeginsRecord p.body
  spells : SpellsRecord p.body p.fields
  stop : ∃ b, p.stop = [b] ∧ endsLine b = true

/-- A part whose record is ended by the end of the table. -/
structure Part.IsLast (p : Part) : Prop where
  gap : IsGap p.gap
  begins : BeginsRecord p.body
  spells : SpellsRecord p.body p.fields ∨ SpellsCut p.body p.fields
  stop : p.stop = []

/-- A table as parts, with a gap, a comment or a record without a line end behind them. -/
inductive IsDivided : List UInt8 → List Part → Prop where
  | gap {parts : List Part} {gap : List UInt8} (ended : ∀ p ∈ parts, p.IsEnded)
      (last : IsGap gap) : IsDivided (textOf parts ++ gap) parts
  | comment {parts : List Part} {gap text : List UInt8} (ended : ∀ p ∈ parts, p.IsEnded)
      (before : IsGap gap) (line : lineFeed ∉ text) :
      IsDivided (textOf parts ++ (gap ++ hash :: text)) parts
  | record {parts : List Part} {p : Part} (ended : ∀ p ∈ parts, p.IsEnded) (last : p.IsLast) :
      IsDivided (textOf parts ++ p.text) (parts ++ [p])

/-- The records of parts after some text: the line of each is the one on which that text ends. -/
def recordsAfter (before : List UInt8) : List Part → List Record
  | [] => []
  | p :: ps => ⟨before.count lineFeed + 1, p.fields⟩ :: recordsAfter (before ++ p.text) ps

theorem textOf_append (parts : List Part) (p : Part) :
    textOf (parts ++ [p]) = textOf parts ++ p.text := by
  simp [textOf]

theorem recordsAfter_append (before : List UInt8) (parts : List Part) (p : Part) :
    recordsAfter before (parts ++ [p]) =
      recordsAfter before parts ++ [⟨(before ++ textOf parts).count lineFeed + 1, p.fields⟩] := by
  induction parts generalizing before with
  | nil => simp [recordsAfter, textOf]
  | cons q parts ih =>
    simp only [List.cons_append, recordsAfter, ih, textOf, List.flatMap_cons, List.append_assoc]

/-! ## Every text has parts -/

theorem isBareText_nil : IsBareText [] := ⟨by simp, by simp⟩

/-- A bare text goes on with any byte that it can hold, but does not begin with a quote. -/
theorem IsBareText.snoc {text : List UInt8} {b : UInt8} (h : IsBareText text) (hb : IsBare b)
    (hfirst : text = [] → b ≠ quote) : IsBareText (text ++ [b]) := by
  constructor
  · exact List.forall_mem_append.2 ⟨h.bytes, List.forall_mem_singleton.2 hb⟩
  · cases text with
    | nil => simpa using hfirst rfl
    | cons c text => exact h.first

theorem doubled_snoc_quote (text : List UInt8) :
    doubled (text ++ [quote]) = doubled text ++ [quote, quote] := by
  simp [doubled]

theorem doubled_snoc {b : UInt8} (h : b ≠ quote) (text : List UInt8) :
    doubled (text ++ [b]) = doubled text ++ [b] := by
  simp [doubled, h]

/-- What is written of a field when the scan stands in it, and what the field holds by then. -/
inductive PartField : Place → List UInt8 → List UInt8 → Prop where
  | start : PartField .fieldStart [] []
  | bare {text : List UInt8} (h : IsBareText text) (nonempty : text ≠ []) :
      PartField .bare text text
  | behind (text : List UInt8) {rest : List UInt8} (h : IsBareText rest) (nonempty : rest ≠ []) :
      PartField .bare (quote :: (doubled text ++ quote :: rest)) (text ++ rest)
  | quoted (text : List UInt8) : PartField .quoted (quote :: doubled text) text
  | closed (text : List UInt8) : PartField .quoteInQuoted (quote :: (doubled text ++ [quote])) text

theorem PartField.spells {place : Place} {written field : List UInt8}
    (h : PartField place written field) (hplace : place ≠ .quoted) : SpellsField written field := by
  cases h with
  | start => exact .bare isBareText_nil
  | bare h => exact .bare h
  | behind text h => exact .quoted text h
  | quoted => exact absurd rfl hplace
  | closed =>
    have h := SpellsField.quoted field isBareText_nil
    rwa [List.append_nil] at h

/-- Outside of quotes a field goes on with any byte that it can hold. -/
theorem PartField.snoc {place : Place} {written field : List UInt8} {b : UInt8}
    (h : PartField place written field) (hplace : place ≠ .quoted) (hb : IsBare b)
    (hquote : place ≠ .bare → b ≠ quote) : PartField .bare (written ++ [b]) (field ++ [b]) := by
  cases h with
  | start => exact .bare (isBareText_nil.snoc hb fun _ => hquote (by decide)) (by simp)
  | bare h hne => exact .bare (h.snoc hb fun hnil => absurd hnil hne) (by simp)
  | @behind text rest h hne =>
    have h := PartField.behind text (h.snoc hb fun hnil => absurd hnil hne) (by simp)
    simpa using h
  | quoted => exact absurd rfl hplace
  | closed =>
    have h := PartField.behind field
      (isBareText_nil.snoc hb fun _ => hquote (by decide)) (by simp)
    simpa using h

/-- What can stand behind the last part that is ended. -/
inductive Unfinished : List UInt8 → Prop where
  | gap {rest : List UInt8} (h : IsGap rest) : Unfinished rest
  | comment {gap text : List UInt8} (before : IsGap gap) (line : lineFeed ∉ text) :
      Unfinished (gap ++ hash :: text)
  | record {place : Place} {gap front written field : List UInt8} {fields : List (List UInt8)}
      (before : IsGap gap) (spells : SpellsFront front fields)
      (last : PartField place written field) (begins : BeginsRecord (front ++ written)) :
      Unfinished (gap ++ (front ++ written))

/-- What a text becomes that goes on: it is still unfinished, or a part. -/
def GoesOn (text : List UInt8) : Prop := Unfinished text ∨ ∃ p : Part, p.IsEnded ∧ p.text = text

theorem BeginsRecord.append {body : List UInt8} (h : BeginsRecord body) (rest : List UInt8) :
    BeginsRecord (body ++ rest) := by
  obtain ⟨b, hb, hne⟩ := h
  exact ⟨b, by rw [List.head?_append, hb, Option.some_or], hne⟩

section

variable {b : UInt8} {gap front written field : List UInt8} {fields : List (List UInt8)}

/-- Outside of quotes a byte goes on with a field, ends it or ends the record. -/
theorem goesOn_field (hgap : IsGap gap) (hfront : SpellsFront front fields)
    (hlast : SpellsField written field)
    (hsnoc : IsBare b → PartField .bare (written ++ [b]) (field ++ [b]))
    (hbegins : BeginsRecord (front ++ (written ++ [b])))
    (hended : endsLine b = true → BeginsRecord (front ++ written)) :
    GoesOn (gap ++ (front ++ (written ++ [b]))) := by
  by_cases hcomma : b = comma
  · subst hcomma
    have hnext := Unfinished.record hgap (hfront.snoc hlast) .start (by simpa using hbegins)
    exact Or.inl (by simpa using hnext)
  · cases hend : endsLine b with
    | true =>
      refine Or.inr ⟨⟨gap, front ++ written, fields ++ [field], [b]⟩, ?_, by simp [Part.text]⟩
      exact ⟨hgap, hended hend, .mk hfront hlast, b, rfl, hend⟩
    | false => exact Or.inl (.record hgap hfront (hsnoc ⟨hcomma, hend⟩) hbegins)

theorem goesOn_first (hgap : IsGap gap) (hfront : SpellsFront front fields)
    (hbegins : BeginsRecord (front ++ [b])) (hended : endsLine b = true → BeginsRecord front) :
    GoesOn (gap ++ (front ++ [b])) := by
  by_cases hquote : b = quote
  · subst hquote
    exact Or.inl (.record hgap hfront (.quoted []) hbegins)
  · have hempty : SpellsField [] [] := .bare isBareText_nil
    have hended' : endsLine b = true → BeginsRecord (front ++ []) := by simpa using hended
    have hsnoc (hb : IsBare b) : PartField .bare ([] ++ [b]) ([] ++ [b]) :=
      PartField.start.snoc (by decide) hb fun _ => hquote
    exact goesOn_field hgap hfront hempty hsnoc hbegins hended'

/-- Between records a byte belongs to the gap or begins a record. -/
theorem IsGap.goesOn (h : IsGap gap) : GoesOn (gap ++ [b]) := by
  cases hend : endsLine b with
  | true => exact Or.inl (.gap (h.lineEnd hend))
  | false =>
    by_cases hhash : b = hash
    · subst hhash
      exact Or.inl (.comment h (by simp))
    · have hbegins : BeginsRecord ([] ++ [b]) := ⟨b, rfl, hhash⟩
      exact goesOn_first h .nil hbegins (by simp [hend])

theorem goesOn_comment {text : List UInt8} (hgap : IsGap gap) (htext : lineFeed ∉ text) :
    GoesOn (gap ++ hash :: text ++ [b]) := by
  by_cases hb : b = lineFeed
  · subst hb
    rw [List.append_assoc]
    exact Or.inl (.gap (hgap.comment htext))
  · rw [List.append_assoc, List.cons_append]
    refine Or.inl (.comment hgap ?_)
    rw [List.mem_append, List.mem_singleton, not_or]
    exact ⟨htext, Ne.symm hb⟩

theorem goesOn_record {place : Place} (hgap : IsGap gap) (hfront : SpellsFront front fields)
    (hlast : PartField place written field) (hbegins : BeginsRecord (front ++ written)) :
    GoesOn (gap ++ (front ++ (written ++ [b]))) := by
  have hon : BeginsRecord (front ++ (written ++ [b])) := by
    rw [← List.append_assoc]
    exact hbegins.append [b]
  -- but between quotes, and for a quote behind a closing one, all places go on alike
  have hfield (hplace : place ≠ .quoted) (hquote : place ≠ .bare → b ≠ quote) :
      GoesOn (gap ++ (front ++ (written ++ [b]))) :=
    goesOn_field hgap hfront (hlast.spells hplace) (fun hb => hlast.snoc hplace hb hquote) hon
      fun _ => hbegins
  cases hlast with
  | start =>
    rw [List.append_nil] at hbegins
    exact goesOn_first hgap hfront hon fun _ => hbegins
  | bare | behind => exact hfield (by decide) (by simp)
  | quoted =>
    by_cases hb : b = quote
    · subst hb
      exact Or.inl (.record hgap hfront (.closed field) hon)
    · have hlast := PartField.quoted (field ++ [b])
      rw [doubled_snoc hb] at hlast
      exact Or.inl (.record hgap hfront hlast hon)
  | closed =>
    by_cases hb : b = quote
    · subst hb
      have hlast := PartField.quoted (field ++ [quote])
      have hwritten : quote :: doubled (field ++ [quote]) =
          quote :: (doubled field ++ [quote]) ++ [quote] := by
        simp [doubled_snoc_quote]
      rw [hwritten] at hlast
      exact Or.inl (.record hgap hfront hlast hon)
    · exact hfield (by decide) fun _ => hb

/-- **What is unfinished goes on with every byte.** -/
theorem Unfinished.goesOn {rest : List UInt8} (h : Unfinished rest) : GoesOn (rest ++ [b]) := by
  cases h with
  | gap hgap => exact hgap.goesOn
  | comment hgap hline => exact goesOn_comment hgap hline
  | record hgap hfront hlast hbegins =>
    simp only [List.append_assoc]
    exact goesOn_record hgap hfront hlast hbegins

/-- What is unfinished at the end of a table. -/
theorem Unfinished.isDivided {parts : List Part} {rest : List UInt8} (h : Unfinished rest)
    (hparts : ∀ p ∈ parts, p.IsEnded) : ∃ parts', IsDivided (textOf parts ++ rest) parts' := by
  cases h with
  | gap hgap => exact ⟨parts, .gap hparts hgap⟩
  | comment hgap hline => exact ⟨parts, .comment hparts hgap hline⟩
  | @record place gap front written field fields hgap hfront hlast hbegins =>
    have hspells : SpellsRecord (front ++ written) (fields ++ [field]) ∨
        SpellsCut (front ++ written) (fields ++ [field]) := by
      by_cases hplace : place = .quoted
      · subst hplace
        cases hlast
        exact Or.inr (.mk hfront)
      · exact Or.inl (.mk hfront (hlast.spells hplace))
    have hdivided := IsDivided.record hparts (p := ⟨gap, front ++ written, _, []⟩)
      ⟨hgap, hbegins, hspells, rfl⟩
    exact ⟨_, by simpa [Part.text] using hdivided⟩

end

/-- **Every text can be divided into parts.** -/
theorem exists_isDivided (text : List UInt8) : ∃ parts, IsDivided text parts := by
  have hunfinished : ∃ parts rest, text = textOf parts ++ rest ∧ (∀ p ∈ parts, p.IsEnded) ∧
      Unfinished rest := by
    -- from the end of the text: its last byte goes on with what is unfinished, or ends a part
    induction text using List.reverseRecOn with
    | nil => exact ⟨[], [], rfl, by simp, .gap .nil⟩
    | append_singleton text b ih =>
      obtain ⟨parts, rest, rfl, hparts, hrest⟩ := ih
      rw [List.append_assoc]
      rcases hrest.goesOn (b := b) with hon | ⟨p, hp, hon⟩
      · exact ⟨parts, _, rfl, hparts, hon⟩
      · refine ⟨parts ++ [p], [], by rw [textOf_append, hon, List.append_nil], ?_, .gap .nil⟩
        exact List.forall_mem_append.2 ⟨hparts, List.forall_mem_singleton.2 hp⟩
  obtain ⟨parts, rest, rfl, hparts, hrest⟩ := hunfinished
  exact hrest.isDivided hparts

/-! ## Reading parts -/

section

variable {n m : Nat} {field : List UInt8} {fields : List (List UInt8)} {rs : List Record}

theorem hash_ne : hash ≠ lineFeed := by decide

theorem isBare_quote : IsBare quote := ⟨by decide, by decide⟩

theorem IsBare.ne {b : UInt8} (h : IsBare b) : b ≠ lineFeed := by
  rintro rfl
  exact absurd h.2 (by decide)

/-- Every byte is counted once. -/
theorem step_eq (place : Place) (b : UInt8) :
    Scan.step ⟨place, n, m, field, fields, rs⟩ b =
      Scan.take ⟨place, n + [b].count lineFeed, m, field, fields, rs⟩ b := by
  rw [Scan.step, Scan.count]
  split
  · rename_i hb
    rw [beq_iff_eq] at hb
    simp [hb]
  · rename_i hb
    rw [beq_iff_eq] at hb
    simp [hb]

theorem foldl_comment {text : List UInt8} (h : lineFeed ∉ text) :
    text.foldl Scan.step ⟨.comment, n, m, field, fields, rs⟩ =
      ⟨.comment, n, m, field, fields, rs⟩ := by
  induction text with
  | nil => rfl
  | cons b text ih =>
    rw [List.mem_cons, not_or] at h
    have hcount : [b].count lineFeed = 0 := by simp [Ne.symm h.1]
    rw [List.foldl_cons, step_eq, hcount]
    simpa [Scan.take, Ne.symm h.1] using ih h.2

theorem step_hash : Scan.step ⟨.betweenRecords, n, m, field, fields, rs⟩ hash =
    ⟨.comment, n, m, field, fields, rs⟩ := by
  simp [step_eq, Scan.take, hash, lineFeed, endsLine, carriageReturn]

theorem foldl_gap {gap : List UInt8} (h : IsGap gap) :
    gap.foldl Scan.step ⟨.betweenRecords, n, m, field, fields, rs⟩ =
      ⟨.betweenRecords, n + gap.count lineFeed, m, field, fields, rs⟩ := by
  induction h with
  | nil => rfl
  | @lineEnd gap b _ hb ih =>
    rw [List.foldl_append, ih, List.foldl_cons, List.foldl_nil, step_eq, List.count_append,
      Nat.add_assoc]
    simp [Scan.take, hb]
  | @comment gap text _ htext ih =>
    have hcount : (gap ++ (hash :: text ++ [lineFeed])).count lineFeed =
        gap.count lineFeed + 1 := by
      have htext := List.count_eq_zero.2 htext
      simp [htext, hash_ne]
    rw [List.cons_append, List.foldl_append, ih, List.foldl_cons, step_hash, List.foldl_append,
      foldl_comment htext, List.foldl_cons, List.foldl_nil, step_eq, ← List.cons_append, hcount]
    simp [Scan.take, Nat.add_assoc]

theorem foldl_bare {text : List UInt8} (h : ∀ b ∈ text, IsBare b) :
    text.foldl Scan.step ⟨.bare, n, m, field, fields, rs⟩ =
      ⟨.bare, n, m, text.reverse ++ field, fields, rs⟩ := by
  induction text generalizing field with
  | nil => rfl
  | cons b text ih =>
    rw [List.forall_mem_cons] at h
    have hstep : Scan.step ⟨.bare, n, m, field, fields, rs⟩ b =
        ⟨.bare, n, m, b :: field, fields, rs⟩ := by
      simp [step_eq, h.1.ne, Scan.take, Scan.takeBare, Scan.push, h.1.1, h.1.2]
    rw [List.foldl_cons, hstep, ih h.2]
    simp

/-- Doubled quotes are added to the field once, everything else as it is. -/
theorem foldl_doubled (text : List UInt8) :
    (doubled text).foldl Scan.step ⟨.quoted, n, m, field, fields, rs⟩ =
      ⟨.quoted, n + (doubled text).count lineFeed, m, text.reverse ++ field, fields, rs⟩ := by
  induction text using List.reverseRecOn with
  | nil => rfl
  | append_singleton text b ih =>
    by_cases hb : b = quote
    · subst hb
      rw [doubled_snoc_quote, List.foldl_append, ih]
      simp [step_eq, Scan.take, Scan.push, quote, lineFeed]
    · rw [doubled_snoc hb, List.foldl_append, ih, List.foldl_cons, List.foldl_nil, step_eq,
        List.count_append, Nat.add_assoc]
      simp [Scan.take, Scan.push, hb]

/-- Bytes outside of quotes begin a field or go on behind its closing quote. -/
theorem foldl_bareText {place : Place} (hplace : place = .fieldStart ∨ place = .quoteInQuoted)
    {text : List UInt8} (h : IsBareText text) (hne : text ≠ []) :
    text.foldl Scan.step ⟨place, n, m, field, fields, rs⟩ =
      ⟨.bare, n, m, text.reverse ++ field, fields, rs⟩ := by
  cases text with
  | nil => exact absurd rfl hne
  | cons b text =>
    obtain ⟨hb, htext⟩ := List.forall_mem_cons.1 h.bytes
    have hquote : b ≠ quote := by simpa using h.first
    have hstep : Scan.step ⟨place, n, m, field, fields, rs⟩ b =
        ⟨.bare, n, m, b :: field, fields, rs⟩ := by
      rcases hplace with rfl | rfl <;>
        simp [step_eq, hb.ne, Scan.take, Scan.takeFirst, hquote, Scan.takeBare, hb.1, hb.2,
          Scan.push]
    rw [List.foldl_cons, hstep, foldl_bare htext]
    simp

theorem count_bare {text : List UInt8} (h : ∀ b ∈ text, IsBare b) : text.count lineFeed = 0 :=
  List.count_eq_zero.2 fun hmem => (h lineFeed hmem).ne rfl

theorem foldl_quoted (text : List UInt8) :
    (quote :: doubled text).foldl Scan.step ⟨.fieldStart, n, m, field, fields, rs⟩ =
      ⟨.quoted, n + (quote :: doubled text).count lineFeed, m, text.reverse ++ field, fields,
        rs⟩ := by
  have hopen : Scan.step ⟨.fieldStart, n, m, field, fields, rs⟩ quote =
      ⟨.quoted, n, m, field, fields, rs⟩ := by
    simp [step_eq, isBare_quote.ne, Scan.take, Scan.takeFirst]
  rw [List.foldl_cons, hopen, foldl_doubled]
  simp [isBare_quote.ne]

theorem foldl_closed (text : List UInt8) :
    (quote :: (doubled text ++ [quote])).foldl Scan.step ⟨.fieldStart, n, m, field, fields, rs⟩ =
      ⟨.quoteInQuoted, n + (quote :: (doubled text ++ [quote])).count lineFeed, m,
        text.reverse ++ field, fields, rs⟩ := by
  rw [← List.cons_append, List.foldl_append, foldl_quoted]
  simp [step_eq, isBare_quote.ne, Scan.take]

/-- **A field is read up to any place in it.** -/
theorem PartField.foldl {place : Place} {written text : List UInt8}
    (h : PartField place written text) :
    written.foldl Scan.step ⟨.fieldStart, n, m, [], fields, rs⟩ =
      ⟨place, n + written.count lineFeed, m, text.reverse, fields, rs⟩ := by
  cases h with
  | start => rfl
  | bare h hne =>
    rw [foldl_bareText (Or.inl rfl) h hne, count_bare h.bytes]
    simp
  | @behind text rest h hne =>
    have hsplit : quote :: (doubled text ++ quote :: rest) =
        quote :: (doubled text ++ [quote]) ++ rest := by simp
    rw [hsplit, List.foldl_append, foldl_closed, foldl_bareText (Or.inr rfl) h hne,
      List.count_append, count_bare h.bytes]
    simp
  | quoted => rw [foldl_quoted, List.append_nil]
  | closed => rw [foldl_closed, List.append_nil]

/-- A written field stands at a place where it can end. -/
theorem SpellsField.exists_place {written text : List UInt8} (h : SpellsField written text) :
    ∃ place, PartField place written text ∧
      (place = .fieldStart ∨ place = .bare ∨ place = .quoteInQuoted) := by
  cases h with
  | bare h =>
    by_cases hne : written = []
    · subst hne
      exact ⟨_, .start, by simp⟩
    · exact ⟨_, .bare h hne, by simp⟩
  | @quoted text rest h =>
    by_cases hne : rest = []
    · subst hne
      rw [List.append_nil]
      exact ⟨_, .closed text, by simp⟩
    · exact ⟨_, .behind text h hne, by simp⟩

theorem step_comma {place : Place}
    (hplace : place = .fieldStart ∨ place = .bare ∨ place = .quoteInQuoted) :
    Scan.step ⟨place, n, m, field, fields, rs⟩ comma =
      ⟨.fieldStart, n + [comma].count lineFeed, m, [], field.reverse :: fields, rs⟩ := by
  rw [step_eq]
  rcases hplace with rfl | rfl | rfl <;> rfl

theorem step_lineEnd {place : Place} {b : UInt8}
    (hplace : place = .fieldStart ∨ place = .bare ∨ place = .quoteInQuoted)
    (hb : endsLine b = true) :
    Scan.step ⟨place, n, m, field, fields, rs⟩ b =
      ⟨.betweenRecords, n + [b].count lineFeed, n + [b].count lineFeed, [], [],
        ⟨m + 1, (field.reverse :: fields).reverse⟩ :: rs⟩ := by
  have hne : b ≠ quote ∧ b ≠ comma := by
    constructor <;>
    · rintro rfl
      exact absurd hb (by decide)
  rw [step_eq]
  rcases hplace with rfl | rfl | rfl <;>
    simp [Scan.take, Scan.takeFirst, Scan.takeBare, Scan.endRecord, hne.1, hne.2, hb]

theorem SpellsFront.foldl {front : List UInt8} {texts : List (List UInt8)}
    (h : SpellsFront front texts) :
    front.foldl Scan.step ⟨.fieldStart, n, m, [], [], rs⟩ =
      ⟨.fieldStart, n + front.count lineFeed, m, [], texts.reverse, rs⟩ := by
  induction h with
  | nil => rfl
  | snoc _ hlast ih =>
    obtain ⟨place, hpart, hplace⟩ := hlast.exists_place
    rw [List.foldl_append, List.foldl_append, ih, hpart.foldl, List.foldl_cons, List.foldl_nil,
      step_comma hplace]
    simp [Nat.add_assoc]

/-- No field begins with a line end outside of quotes. -/
theorem PartField.first {place : Place} {written text : List UInt8}
    (h : PartField place written text) {b : UInt8} (hb : written.head? = some b) :
    endsLine b = false := by
  cases h with
  | start => cases hb
  | bare h _ => exact (h.bytes b (List.mem_of_head? hb)).2
  | behind | quoted | closed =>
    rw [List.head?_cons, Option.some.injEq] at hb
    rw [← hb]
    rfl

theorem SpellsFront.first {front : List UInt8} {texts : List (List UInt8)}
    (h : SpellsFront front texts) {b : UInt8} (hb : front.head? = some b) : endsLine b = false := by
  induction h with
  | nil => cases hb
  | @snoc front written field fields _ hlast ih =>
    obtain ⟨place, hpart, -⟩ := hlast.exists_place
    rw [List.append_assoc, List.head?_append, Option.or_eq_some_iff] at hb
    rcases hb with hb | ⟨-, hb⟩
    · exact ih hb
    · rw [List.head?_append, Option.or_eq_some_iff] at hb
      rcases hb with hb | ⟨-, hb⟩
      · exact hpart.first hb
      · rw [List.head?_cons, Option.some.injEq] at hb
        rw [← hb]
        rfl

/-- **A record is read up to any place in its last field.** -/
theorem foldl_record {place : Place} {front written text : List UInt8} {texts : List (List UInt8)}
    (hfront : SpellsFront front texts) (hlast : PartField place written text)
    (hbegins : BeginsRecord (front ++ written)) :
    (front ++ written).foldl Scan.step ⟨.betweenRecords, n, m, [], [], rs⟩ =
      ⟨place, n + (front ++ written).count lineFeed, m, text.reverse, texts.reverse, rs⟩ := by
  -- behind a gap the first byte of a record is taken as that of a field
  have hbegin : (front ++ written).foldl Scan.step ⟨.betweenRecords, n, m, [], [], rs⟩ =
      (front ++ written).foldl Scan.step ⟨.fieldStart, n, m, [], [], rs⟩ := by
    obtain ⟨b, hb, hhash⟩ := hbegins
    have hend : endsLine b = false := by
      rw [List.head?_append, Option.or_eq_some_iff] at hb
      rcases hb with hb | ⟨-, hb⟩
      · exact hfront.first hb
      · exact hlast.first hb
    obtain ⟨rest, hrest⟩ := List.head?_eq_some_iff.1 hb
    rw [hrest, List.foldl_cons, List.foldl_cons, step_eq, step_eq]
    congr 1
    simp [Scan.take, Scan.takeFirst, Scan.takeBare, hend, hhash, Scan.endField, Scan.push]
  rw [hbegin, List.foldl_append, hfront.foldl, hlast.foldl, List.count_append, Nat.add_assoc]

theorem Part.IsEnded.foldl {p : Part} (h : p.IsEnded) :
    p.text.foldl Scan.step ⟨.betweenRecords, n, m, [], [], rs⟩ =
      ⟨.betweenRecords, n + p.text.count lineFeed, n + p.text.count lineFeed, [], [],
        ⟨m + 1, p.fields⟩ :: rs⟩ := by
  obtain ⟨gap, body, fields, stop⟩ := p
  obtain ⟨hgap, hbegins, hspells, b, hstop, hb⟩ := h
  dsimp only at hstop hspells hgap hbegins
  subst hstop
  obtain ⟨hfront, hlast⟩ := hspells
  obtain ⟨place, hpart, hplace⟩ := hlast.exists_place
  rw [Part.text, List.foldl_append, foldl_gap hgap, List.foldl_append,
    foldl_record hfront hpart hbegins, List.foldl_cons, List.foldl_nil, step_lineEnd hplace hb]
  simp [Nat.add_assoc]

/-- The record of a part that is not ended is the last one. -/
theorem Part.IsLast.finish {p : Part} (h : p.IsLast) :
    (p.text.foldl Scan.step ⟨.betweenRecords, n, m, [], [], rs⟩).finish =
      (⟨m + 1, p.fields⟩ :: rs).reverse := by
  obtain ⟨gap, body, fields, stop⟩ := p
  obtain ⟨hgap, hbegins, hspells, hstop⟩ := h
  dsimp only at hstop hspells hgap hbegins
  subst hstop
  rw [Part.text, List.append_nil, List.foldl_append, foldl_gap hgap]
  rcases hspells with ⟨hfront, hlast⟩ | @⟨front, text, fields, hfront⟩
  · obtain ⟨place, hpart, hplace⟩ := hlast.exists_place
    rw [foldl_record hfront hpart hbegins]
    rcases hplace with rfl | rfl | rfl <;> simp [Scan.finish, Scan.endRecord]
  · rw [foldl_record hfront (.quoted text) hbegins]
    simp [Scan.finish, Scan.endRecord]

theorem foldl_textOf {parts : List Part} (h : ∀ p ∈ parts, p.IsEnded) (before : List UInt8)
    (rs : List Record) :
    (textOf parts).foldl Scan.step
        ⟨.betweenRecords, before.count lineFeed, before.count lineFeed, [], [], rs⟩ =
      ⟨.betweenRecords, (before ++ textOf parts).count lineFeed,
        (before ++ textOf parts).count lineFeed, [], [],
        (recordsAfter before parts).reverse ++ rs⟩ := by
  induction parts generalizing before rs with
  | nil => simp [textOf, recordsAfter]
  | cons p parts ih =>
    obtain ⟨hp, hparts⟩ := List.forall_mem_cons.1 h
    have hrest := ih hparts (before ++ p.text) (⟨before.count lineFeed + 1, p.fields⟩ :: rs)
    rw [List.count_append] at hrest
    rw [textOf, List.flatMap_cons, List.foldl_append, hp.foldl]
    rw [textOf, List.count_append] at hrest
    rw [hrest]
    simp [recordsAfter, List.count_append, Nat.add_assoc]

end

/-- **The records of a table are those of its parts.** -/
theorem IsDivided.records_eq {bytes : List UInt8} {parts : List Part}
    (h : IsDivided (dropMark bytes) parts) : records bytes = recordsAfter [] parts := by
  unfold records
  have hstart : Scan.start = ⟨.betweenRecords, ([] : List UInt8).count lineFeed,
    ([] : List UInt8).count lineFeed, [], [], []⟩ := rfl
  generalize dropMark bytes = text at h
  cases h with
  | gap hended hlast =>
    rw [List.foldl_append, hstart, foldl_textOf hended, foldl_gap hlast]
    simp [Scan.finish]
  | comment hended hbefore hline =>
    rw [List.foldl_append, hstart, foldl_textOf hended, List.foldl_append, foldl_gap hbefore,
      List.foldl_cons, step_hash, foldl_comment hline]
    simp [Scan.finish]
  | record hended hlast =>
    rw [List.foldl_append, hstart, foldl_textOf hended, hlast.finish, recordsAfter_append]
    simp

/-- A table that is one record without a line end. -/
theorem records_of_spells {body : List UInt8} {fields : List (List UInt8)}
    (hmark : dropMark body = body) (hbegins : BeginsRecord body)
    (hspells : SpellsRecord body fields) : records body = [⟨1, fields⟩] := by
  have hlast : Part.IsLast ⟨[], body, fields, []⟩ := ⟨.nil, hbegins, Or.inl hspells, rfl⟩
  have hnone : ∀ p ∈ ([] : List Part), p.IsEnded := by simp
  have hparts := IsDivided.record hnone hlast
  have htext : textOf [] ++ Part.text ⟨[], body, fields, []⟩ = dropMark body := by
    simp [textOf, Part.text, hmark]
  rw [htext] at hparts
  rw [hparts.records_eq]
  rfl

end GlyphMath.Table
