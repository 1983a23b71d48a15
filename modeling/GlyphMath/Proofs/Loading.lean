import Mathlib.Data.List.Forall2
import Mathlib.Data.List.Nodup
import GlyphMath.Detection.File
import GlyphMath.Proofs.Order
import GlyphMath.Proofs.Spelling

/-!
# What a file of detections loads to

* `TokenLike` -- the labels that are tokens already.
* `Resolves` -- the token that a label has after insertions: that of the last insertion for it, else
  that of the standard entry, else the label itself.
* `Record.IsInverted` -- a rectangle whose corners are out of order, or no numbers.
* `Accounts` -- a symbol for every record whose label resolves, a warning for every other one.
* `Listing`, `Scores` -- the detections of a document as they are written, and their confidences.

`resolve` goes on until the first bad rectangle, whatever is known of the labels before it;
`Accounts` is what it has gathered when there is none.

Principal results:

* `token?_insertAll` -- the tokens of labels after insertions.
* `resolve_of_inverted`, `resolve_accounts` -- resolving with and without a bad rectangle.
* `load_accounts` -- every detection of a file is accounted for, or the first bad one is reported.
-/

set_option autoImplicit false

namespace GlyphMath.Detection

open Decimal (isDigit)
open Formula (functionNames)
open Json (Source)
open Layout (Box Symbol)

/-! ## Labels -/

/-- Labels that are tokens already. -/
inductive TokenLike : String → Prop where
  | digits {label : String} (nonempty : label.toList ≠ [])
      (digits : ∀ c ∈ label.toList, isDigit c = true) : TokenLike label
  | limit : TokenLike "lim"
  | function {label : String} (known : label ∈ functionNames) : TokenLike label
  | letter {label : String} {c : Char} (single : label.toList = [c]) (letter : c ∈ lowerCase) :
      TokenLike label
  | sign {label : String} {c : Char} (single : label.toList = [c]) (sign : c ∈ signTokens) :
      TokenLike label

theorem isTokenLike_iff {label : String} : isTokenLike label = true ↔ TokenLike label := by
  unfold isTokenLike
  constructor
  · intro h
    split at h
    · cases h
    · rename_i hne
      simp only [Bool.or_eq_true, beq_iff_eq, List.contains_iff_mem, List.all_eq_true] at h
      rcases h with ((hdigits | rfl) | hname) | hsingle
      · exact .digits (fun hnil => hne hnil) hdigits
      · exact .limit
      · exact .function hname
      · split at hsingle
        · rename_i c hc
          simp only [Bool.or_eq_true, List.contains_iff_mem] at hsingle
          rcases hsingle with hletter | hsign
          · exact .letter hc hletter
          · exact .sign hc hsign
        · cases hsingle
  · intro h
    cases h with
    | digits hne hdigits =>
      split
      · rename_i hnil
        exact absurd hnil hne
      · simp only [List.all_eq_true.2 hdigits, Bool.true_or]
    | limit => decide
    | function hname =>
      split
      · rename_i hnil
        exact absurd hnil (Formula.functionNames_letters _ hname).1
      · simp only [List.contains_iff_mem.2 hname, Bool.or_true, Bool.true_or]
    | letter hc hletter => simp [hc, hletter]
    | sign hc hsign => simp [hc, hsign]

/-- The token of the last insertion for a label. -/
def LastInserted (entries : List (String × String)) (label token : String) : Prop :=
  ∃ earlier later, entries = earlier ++ (label, token) :: later ∧ ∀ e ∈ later, e.1 ≠ label

/-- The token of a label after insertions into the standard labels. -/
inductive Resolves (entries : List (String × String)) : String → String → Prop where
  | inserted {label token : String} (last : LastInserted entries label token) :
      Resolves entries label token
  | standard {label token : String} (free : ∀ e ∈ entries, e.1 ≠ label)
      (known : (label, token) ∈ LabelMap.standard.entries) : Resolves entries label token
  | itself {label : String} (free : ∀ e ∈ entries, e.1 ≠ label)
      (unknown : ∀ e ∈ LabelMap.standard.entries, e.1 ≠ label) (like : TokenLike label) :
      Resolves entries label label

/-- The last insertion stands in front. -/
theorem entries_insertAll (m : LabelMap) (entries : List (String × String)) :
    (m.insertAll entries).entries = entries.reverse ++ m.entries := by
  induction entries generalizing m with
  | nil => rfl
  | cons e entries ih =>
    rw [LabelMap.insertAll, List.foldl_cons, ← LabelMap.insertAll, ih, List.reverse_cons,
      List.append_assoc]
    rfl

/-- Whether an entry is one for a label. -/
def isFor (label : String) (entry : String × String) : Bool := entry.1 == label

theorem find?_reverse {entries : List (String × String)} {label token : String} :
    entries.reverse.find? (isFor label) = some (label, token) ↔
      LastInserted entries label token := by
  rw [List.find?_eq_some_iff_append]
  constructor
  · rintro ⟨-, later, earlier, hentries, hlater⟩
    refine ⟨earlier.reverse, later.reverse, ?_, fun e he => ?_⟩
    · rw [← List.reverse_reverse entries, hentries, List.reverse_append, List.reverse_cons,
        List.append_assoc, List.singleton_append]
    · simpa [isFor] using hlater e (List.mem_reverse.1 he)
  · rintro ⟨earlier, later, rfl, hlater⟩
    refine ⟨beq_self_eq_true label, later.reverse, earlier.reverse, ?_, fun e he => ?_⟩
    · rw [List.reverse_append, List.reverse_cons, List.append_assoc, List.singleton_append]
    · simpa [isFor] using hlater e (List.mem_reverse.1 he)

theorem nodup_standard : (LabelMap.standard.entries.map Prod.fst).Nodup := by decide +kernel

theorem find?_standard {label token : String} :
    LabelMap.standard.entries.find? (isFor label) = some (label, token) ↔
      (label, token) ∈ LabelMap.standard.entries := by
  constructor
  · exact List.mem_of_find?_eq_some
  · intro h
    have hsome : (LabelMap.standard.entries.find? (isFor label)).isSome :=
      List.find?_isSome.2 ⟨_, h, beq_self_eq_true label⟩
    obtain ⟨e, he⟩ := Option.isSome_iff_exists.1 hsome
    have hfor : isFor label e = true := List.find?_some he
    have hlabel : e.1 = label := beq_iff_eq.1 hfor
    rw [he, List.inj_on_of_nodup_map nodup_standard (List.mem_of_find?_eq_some he) h hlabel]

theorem find?_eq_none_iff {entries : List (String × String)} {label : String} :
    entries.find? (isFor label) = none ↔ ∀ e ∈ entries, e.1 ≠ label := by
  simp [List.find?_eq_none, isFor]

theorem find?_cases (entries : List (String × String)) (label : String) :
    (∃ token, entries.find? (isFor label) = some (label, token)) ∨
      entries.find? (isFor label) = none := by
  cases h : entries.find? (isFor label) with
  | none => exact Or.inr rfl
  | some e =>
    obtain ⟨l, token⟩ := e
    have hfor : isFor label (l, token) = true := List.find?_some h
    have hlabel : l = label := beq_iff_eq.1 hfor
    exact Or.inl ⟨token, by rw [hlabel]⟩

/-- **The token of a label** after insertions. -/
theorem token?_insertAll {entries : List (String × String)} {label token : String} :
    (LabelMap.standard.insertAll entries).token? label = some token ↔
      Resolves entries label token := by
  have hfind : (LabelMap.standard.insertAll entries).token? label =
      (((entries.reverse.find? (isFor label)).or
        (LabelMap.standard.entries.find? (isFor label))).map Prod.snd).or
          (if isTokenLike label then some label else none) := by
    have hfor : (fun entry : String × String => entry.1 == label) = isFor label := rfl
    unfold LabelMap.token?
    rw [hfor, entries_insertAll, ← List.find?_append]
    cases List.find? (isFor label) (entries.reverse ++ LabelMap.standard.entries) <;> rfl
  have hfree : (∀ e ∈ entries, e.1 ≠ label) ↔ entries.reverse.find? (isFor label) = none := by
    simp only [find?_eq_none_iff, List.mem_reverse]
  rw [hfind]
  constructor
  · intro h
    rcases find?_cases entries.reverse label with ⟨t, hlast⟩ | hlast
    · rw [hlast] at h
      cases h
      exact .inserted (find?_reverse.1 hlast)
    · rcases find?_cases LabelMap.standard.entries label with ⟨t, hstandard⟩ | hstandard
      · rw [hlast, hstandard] at h
        cases h
        exact .standard (hfree.2 hlast) (find?_standard.1 hstandard)
      · rw [hlast, hstandard] at h
        by_cases hlike : isTokenLike label = true
        · rw [if_pos hlike] at h
          cases h
          exact .itself (hfree.2 hlast) (find?_eq_none_iff.1 hstandard) (isTokenLike_iff.1 hlike)
        · rw [if_neg hlike] at h
          cases h
  · intro h
    cases h with
    | inserted last =>
      rw [find?_reverse.2 last]
      rfl
    | standard free known =>
      rw [hfree.1 free, find?_standard.2 known]
      rfl
    | itself free unknown like =>
      rw [hfree.1 free, find?_eq_none_iff.2 unknown, if_pos (isTokenLike_iff.2 like)]
      rfl

/-! ## Rectangles -/

/-- A rectangle whose corners are out of order, or no numbers. -/
def Record.IsInverted (r : Record) : Prop :=
  r.x2 < r.x1 ∨ r.y2 < r.y1 ∨ r.x1.isNaN = true ∨ r.y1.isNaN = true ∨ r.x2.isNaN = true ∨
    r.y2.isNaN = true

instance (r : Record) : Decidable r.IsInverted :=
  inferInstanceAs (Decidable (_ ∨ _))

theorem Record.isInverted_iff {r : Record} : r.IsInverted ↔ ¬ (r.x1 ≤ r.x2 ∧ r.y1 ≤ r.y2) := by
  rw [not_and_or, Decimal.not_le_iff, Decimal.not_le_iff]
  unfold Record.IsInverted
  tauto

/-- The rectangle of a detection. -/
def Record.box (r : Record) : Box := ⟨r.x1, r.y1, r.x2, r.y2⟩

theorem Record.ofCorners_of_inverted {r : Record} (h : r.IsInverted) :
    Box.ofCorners r.x1 r.y1 r.x2 r.y2 = .error (.inverted r.x1 r.y1 r.x2 r.y2) :=
  if_neg (Record.isInverted_iff.1 h)

theorem Record.ofCorners_of_not_inverted {r : Record} (h : ¬ r.IsInverted) :
    Box.ofCorners r.x1 r.y1 r.x2 r.y2 = .ok r.box :=
  if_pos (not_not.1 (mt Record.isInverted_iff.2 h))

/-! ## Resolving -/

/-- The first record with a bad rectangle. -/
def FirstInverted (records : List Record) (index : Nat) (r : Record) : Prop :=
  records[index]? = some r ∧ r.IsInverted ∧ ∀ s ∈ records.take index, ¬ s.IsInverted

/-- A symbol for every record whose label resolves, and a warning for every other one, in order. -/
inductive Accounts (entries : List (String × String)) :
    List Record → List Symbol → List LoadWarning → Prop where
  | nil : Accounts entries [] [] []
  | symbol {r : Record} {records : List Record} {symbols : List Symbol}
      {warnings : List LoadWarning} {token : String} (known : Resolves entries r.label token) :
      Accounts entries records symbols warnings →
        Accounts entries (r :: records) (⟨r.label, token, r.score, r.box⟩ :: symbols) warnings
  | warning {r : Record} {records : List Record} {symbols : List Symbol}
      {warnings : List LoadWarning} (unknown : ∀ token, ¬ Resolves entries r.label token) :
      Accounts entries records symbols warnings →
        Accounts entries (r :: records) symbols (.unknownLabel r :: warnings)

theorem Accounts.length {entries : List (String × String)} {records : List Record}
    {symbols : List Symbol} {warnings : List LoadWarning}
    (h : Accounts entries records symbols warnings) :
    symbols.length + warnings.length = records.length := by
  induction h with
  | nil => rfl
  | symbol _ _ ih =>
    rw [List.length_cons, List.length_cons]
    omega
  | warning _ _ ih =>
    rw [List.length_cons, List.length_cons]
    omega

theorem exists_firstInverted {records : List Record} (h : ∃ r ∈ records, r.IsInverted) :
    ∃ index r, FirstInverted records index r := by
  induction records with
  | nil => simp at h
  | cons r records ih =>
    by_cases hr : r.IsInverted
    · exact ⟨0, r, rfl, hr, by simp⟩
    · obtain ⟨s, hs, hinverted⟩ := h
      have hmem : s ∈ records := (List.mem_cons.1 hs).resolve_left fun heq => hr (heq ▸ hinverted)
      obtain ⟨index, r', hat, hr', hbefore⟩ := ih ⟨s, hmem, hinverted⟩
      refine ⟨index + 1, r', hat, hr', ?_⟩
      rw [List.take_succ_cons]
      exact List.forall_mem_cons.2 ⟨hr, hbefore⟩

/-- **The first bad rectangle** is an error, whatever is known of the labels. -/
theorem resolve_of_inverted (labels : LabelMap) (start : Nat) {records : List Record} {index : Nat}
    {r : Record} (h : FirstInverted records index r) :
    resolve labels start records =
      .error (.badBox (start + index) (.inverted r.x1 r.y1 r.x2 r.y2)) := by
  induction records generalizing start index with
  | nil => cases h.1
  | cons s records ih =>
    obtain ⟨hat, hr, hbefore⟩ := h
    cases index with
    | zero =>
      cases hat
      rw [resolve, Record.ofCorners_of_inverted hr]
      rfl
    | succ index =>
      rw [List.take_succ_cons] at hbefore
      obtain ⟨hs, hbefore⟩ := List.forall_mem_cons.1 hbefore
      rw [resolve, Record.ofCorners_of_not_inverted hs, ih (start + 1) ⟨hat, hr, hbefore⟩,
        Nat.add_right_comm, Nat.add_assoc]

/-- **Every record is accounted for** where there is no bad rectangle. -/
theorem resolve_accounts (entries : List (String × String)) (start : Nat) {records : List Record}
    (h : ∀ r ∈ records, ¬ r.IsInverted) :
    ∃ symbols warnings, resolve (LabelMap.standard.insertAll entries) start records =
        .ok (symbols, warnings) ∧ Accounts entries records symbols warnings := by
  induction records generalizing start with
  | nil => exact ⟨[], [], rfl, .nil⟩
  | cons r records ih =>
    obtain ⟨hr, hrest⟩ := List.forall_mem_cons.1 h
    obtain ⟨symbols, warnings, hresolve, haccounts⟩ := ih (start + 1) hrest
    cases htoken : (LabelMap.standard.insertAll entries).token? r.label with
    | some token =>
      refine ⟨⟨r.label, token, r.score, r.box⟩ :: symbols, warnings, ?_,
        .symbol (token?_insertAll.1 htoken) haccounts⟩
      rw [resolve, Record.ofCorners_of_not_inverted hr, hresolve, htoken]
    | none =>
      refine ⟨symbols, .unknownLabel r :: warnings, ?_, .warning (fun token h => ?_) haccounts⟩
      · rw [resolve, Record.ofCorners_of_not_inverted hr, hresolve, htoken]
      · rw [token?_insertAll.2 h] at htoken
        cases htoken

/-! ## Documents -/

/-- The detections of a document as they are written: its second field, or that under their key. -/
inductive Listing : Source → List Source → Prop where
  | placed {size : Source} {items : List Source} : Listing (.list [size, .list items]) items
  | named {d : Source} {fields : List (String × Source)} {items : List Source}
      (keyed : d.fields? = some fields)
      (single : Json.single? "detections" fields = some (.list items)) : Listing d items

/-- The confidence of a detection as it is written: one where there is none. -/
inductive Scores : Source → Float → Prop where
  | missing {d : Source} {fields : List (String × Source)} (keyed : d.fields? = some fields)
      (absent : ∀ f ∈ fields, f.1 ≠ "score") : Scores d 1.0
  | named {d score : Source} {fields : List (String × Source)} {x : Float}
      (keyed : d.fields? = some fields) (single : Json.single? "score" fields = some score)
      (value : float? score = some x) : Scores d x
  | placed {label score box : Source} {x : Float} (value : float? score = some x) :
      Scores (.list [label, score, box]) x

theorem score_of_record? {label box : Source} {score : Option Source} {r : Record}
    (h : record? label score box = some r) : score? score = some r.score := by
  unfold record? at h
  split at h
  · rename_i hscore
    split at h
    · cases h
      exact hscore
    · cases h
  · cases h

/-- The confidence of a record is the one that is written. -/
theorem scores_of_ofDocument? {d : Source} {r : Record} (h : Record.ofDocument? d = some r) :
    Scores d r.score := by
  unfold Record.ofDocument? at h
  split at h
  · exact .placed (score_of_record? h)
  · split at h
    · cases h
    · rename_i fields hkeyed
      split at h
      · rename_i score _ _ hscore _
        have hr := score_of_record? h
        rcases Json.cases_of_atMostOne? hscore with ⟨rfl, habsent⟩ | ⟨s, rfl, hsingle⟩
        · have hfull : r.score = 1.0 := (Option.some.inj hr).symm
          rw [hfull]
          exact .missing hkeyed habsent
        · exact .named hkeyed hsingle hr
      · cases h

theorem recordList?_eq_some {items : List Source} {records : List Record}
    (h : recordList? items = some records) :
    List.Forall₂ (fun item r => Record.ofDocument? item = some r ∧ Scores item r.score)
      items records := by
  induction items generalizing records with
  | nil =>
    cases h
    exact .nil
  | cons item items ih =>
    rw [recordList?] at h
    split at h
    · cases h
    · rename_i hitem
      split at h
      · cases h
      · rename_i hitems
        cases h
        exact .cons ⟨hitem, scores_of_ofDocument? hitem⟩ (ih hitems)

theorem list_of_file? {size records : Source} {file : File} (h : file? size records = some file) :
    ∃ items, records = .list items ∧ recordList? items = some file.records := by
  unfold file? at h
  split at h
  · rename_i hrecords
    cases h
    unfold records? at hrecords
    split at hrecords
    · exact ⟨_, rfl, hrecords⟩
    · cases hrecords
  · cases h

/-- The records of a file are the detections of its document, one by one. -/
theorem listing_of_ofDocument? {d : Source} {file : File} (h : File.ofDocument? d = some file) :
    ∃ items, Listing d items ∧
      List.Forall₂ (fun item r => Record.ofDocument? item = some r ∧ Scores item r.score)
        items file.records := by
  unfold File.ofDocument? at h
  split at h
  · obtain ⟨items, rfl, hitems⟩ := list_of_file? h
    exact ⟨items, .placed, recordList?_eq_some hitems⟩
  · split at h
    · cases h
    · rename_i hkeyed
      split at h
      · rename_i hsingle
        obtain ⟨items, rfl, hitems⟩ := list_of_file? h
        exact ⟨items, .named hkeyed hsingle, recordList?_eq_some hitems⟩
      · cases h

/-! ## Loading -/

/-- **Every detection of a file is accounted for, or the first bad one is reported.** -/
theorem load_accounts (entries : List (String × String)) {text : String} {file : File}
    (h : (Source.ofText? text.toList).bind File.ofDocument? = some file) :
    (∃ d items, Source.ofText? text.toList = some d ∧ Listing d items ∧
      List.Forall₂ (fun item r => Record.ofDocument? item = some r ∧ Scores item r.score)
        items file.records) ∧
    ((∃ r ∈ file.records, r.IsInverted) → ∃ index r, FirstInverted file.records index r ∧
      load (LabelMap.standard.insertAll entries) text =
        .error (.badBox index (.inverted r.x1 r.y1 r.x2 r.y2))) ∧
    ((∀ r ∈ file.records, ¬ r.IsInverted) → ∃ symbols warnings,
      load (LabelMap.standard.insertAll entries) text =
        .ok (⟨file.width, file.height, symbols⟩, warnings) ∧
      Accounts entries file.records symbols warnings ∧
      symbols.length + warnings.length = file.records.length) := by
  obtain ⟨d, hd, hfile⟩ := Option.bind_eq_some_iff.1 h
  refine ⟨?_, fun hbad => ?_, fun hgood => ?_⟩
  · obtain ⟨items, hitems⟩ := listing_of_ofDocument? hfile
    exact ⟨d, items, hd, hitems⟩
  · obtain ⟨index, r, hfirst⟩ := exists_firstInverted hbad
    refine ⟨index, r, hfirst, ?_⟩
    have hresolve := resolve_of_inverted (LabelMap.standard.insertAll entries) 0 hfirst
    rw [Nat.zero_add] at hresolve
    simp only [load, h, hresolve]
  · obtain ⟨symbols, warnings, hresolve, haccounts⟩ := resolve_accounts entries 0 hgood
    refine ⟨symbols, warnings, ?_, haccounts, haccounts.length⟩
    simp only [load, h, hresolve]

/-- A file whose third detection has a bad rectangle and an unknown label. -/
def crookedFile : String :=
  "\x7b\"imageSize\":[8,6],\"detections\":[\x7b\"cls\":\"face\",\"bbox\":[0,0,1,1]\x7d," ++
    "[\"plus\",0.5,[2,0,3,1]],\x7b\"bbox\":[4,3,5,2],\"cls\":\"moon\"\x7d]\x7d"

def crookedContent : File :=
  ⟨8, 6, [⟨"face", 1.0, 0.0, 0.0, 1.0, 1.0⟩, ⟨"plus", 0.5, 2.0, 0.0, 3.0, 1.0⟩,
    ⟨"moon", 1.0, 4.0, 3.0, 5.0, 2.0⟩]⟩

theorem load_accounts_crooked :
    (Source.ofText? crookedFile.toList).bind File.ofDocument? = some crookedContent ∧
    (∃ r ∈ crookedContent.records, r.IsInverted) ∧
    ∃ index r, FirstInverted crookedContent.records index r ∧
      load (LabelMap.standard.insertAll [("plus", "-")]) crookedFile =
        .error (.badBox index (.inverted r.x1 r.y1 r.x2 r.y2)) := by
  have hfile : (Source.ofText? crookedFile.toList).bind File.ofDocument? = some crookedContent := by
    decide +kernel
  have hbad : ∃ r ∈ crookedContent.records, r.IsInverted := by decide +kernel
  exact ⟨hfile, hbad, (load_accounts [("plus", "-")] hfile).2.1 hbad⟩

/-- Without its bad rectangle the file has one symbol, under the token that was inserted. -/
example : resolve (LabelMap.standard.insertAll [("plus", "-")]) 0 (crookedContent.records.take 2) =
    .ok ([⟨"plus", "-", 0.5, ⟨2.0, 0.0, 3.0, 1.0⟩⟩],
      [.unknownLabel ⟨"face", 1.0, 0.0, 0.0, 1.0, 1.0⟩]) := by
  decide +kernel

end GlyphMath.Detection
