import GlyphMath.Expr.Document
import GlyphMath.Proofs.Nesting

/-!
# The version comes before the tree

* `Json.Source.IsSigned` -- a document that is an integer of 64 bits with a sign.
* `Versioned` -- a text that is an object with strings for keys, one of them the version.
* `ofJson_of_versioned` -- such a text goes through the version before its tree.
* `versionNumber_signed`, `versionNumber_invalid` -- what becomes of a version.
* `versioned_of_ofJson` -- a text with a tree has a version.

Principal result:

* `ofJson_version` -- a version other than one is an error whatever else the text holds, and a text
  with a tree has version one.

The members beside the version are looked at for their grammar only.
-/

set_option autoImplicit false

namespace GlyphMath

open Json (Tree Value Source Item Spells)

/-! ## Versions -/

namespace Json

/-- The document is an integer of 64 bits with a sign. -/
def Source.IsSigned (d : Source) (i : Int) : Prop :=
  ∃ n : Numeral, d = .number n ∧ n.Denotes i ∧ -2 ^ 63 ≤ i ∧ i < 2 ^ 63

theorem Source.value?_eq_integer {d : Source} {i : Int} :
    Source.value? d = some (.number (.integer i)) ↔
      ∃ n, d = .number n ∧ n.number? = some (.integer i) := by
  constructor
  · intro h
    cases d <;> unfold Source.value? at h
    case null => cases h
    case bool => cases h
    case number n =>
      split at h
      · cases h
      · rename_i x hx
        cases h
        exact ⟨n, rfl, hx⟩
    all_goals split at h <;> cases h
  · rintro ⟨n, rfl, hn⟩
    rw [Source.value?, hn]

theorem Source.isSigned_iff {d : Source} {i : Int} :
    Source.IsSigned d i ↔ Source.value? d = some (.number (.integer i)) ∧ i < 2 ^ 63 := by
  rw [Source.value?_eq_integer]
  constructor
  · rintro ⟨n, rfl, hn, hlow, hhigh⟩
    exact ⟨⟨n, rfl, Numeral.number?_eq_integer.2 ⟨hn, hlow, by omega⟩⟩, hhigh⟩
  · rintro ⟨⟨n, rfl, hn⟩, hhigh⟩
    obtain ⟨hn, hlow, -⟩ := Numeral.number?_eq_integer.1 hn
    exact ⟨n, rfl, hn, hlow, hhigh⟩

end Json

/-- The text is an object whose keys are strings, exactly one of them the version, and the version
is the document `d`. -/
structure Versioned (text : List Char) (members : List (List Item × Source)) (d : Source) :
    Prop where
  spelled : Spells text (Tree.object members).tokens
  version : ∃ fields, Json.decodeKeys members = some fields ∧ ("version", d) ∈ fields ∧
    (fields.map Prod.fst).count "version" = 1

theorem versionNumber_signed {i : Int} (h : i < 2 ^ 63) :
    versionNumber (some (.number (.integer i))) = .ok i := by
  have hpow : Decimal.twoTo 63 = 2 ^ 63 := rfl
  have hsigned : (Json.Number.integer i).toSigned? = some i :=
    if_pos (by rw [hpow]; exact_mod_cast h)
  rw [versionNumber, hsigned]

/-- A version that is no integer of 64 bits with a sign is reported as it is written without
blanks. -/
theorem versionNumber_invalid {v : Value} (h : ∀ i, v = .number (.integer i) → 2 ^ 63 ≤ i) :
    versionNumber (some v) =
      .error (.invalidVersion (String.ofList (Json.compact (Json.sorted v)))) := by
  have hpow : Decimal.twoTo 63 = 2 ^ 63 := rfl
  unfold versionNumber
  split
  · rename_i hnone
    cases hnone
  · rename_i i hv
    cases hv
    have hlarge := h i rfl
    have hsigned : (Json.Number.integer i).toSigned? = none :=
      if_neg (by rw [hpow]; push_cast; omega)
    rw [hsigned]
    rfl
  · rename_i hv
    cases hv
    rfl

theorem versionNumber_eq_ok {found : Option Value} {i : Int} (h : versionNumber found = .ok i) :
    found = some (.number (.integer i)) ∧ i < 2 ^ 63 := by
  have hpow : Decimal.twoTo 63 = 2 ^ 63 := rfl
  unfold versionNumber at h
  split at h
  · cases h
  · rename_i n
    split at h
    · rename_i hsigned
      cases h
      unfold Json.Number.toSigned? at hsigned
      dsimp only at hsigned
      split at hsigned
      · rename_i hlt
        cases hsigned
        rw [hpow] at hlt
        exact ⟨rfl, by exact_mod_cast hlt⟩
      · cases hsigned
    · cases h
  · cases h

/-! ## From a text to its version -/

section

variable {text : String} {members : List (List Item × Source)} {d : Source}

theorem versionField?_of_versioned (h : Versioned text.toList members d) (hnull : d ≠ .null)
    {v : Value} (hv : Source.value? d = some v) :
    versionField? (.object members) = some (some v) := by
  obtain ⟨fields, hkeys, hversion, honce⟩ := h.version
  have hvalue : versionValue? (some d) = some (some v) := by
    unfold versionValue?
    split
    · rename_i hnone
      cases hnone
    · rename_i heq
      exact absurd (Option.some.inj heq) hnull
    · rename_i heq
      cases heq
      rw [hv, Option.map_some]
  have hmost := Json.atMostOne?_of_single? (Json.single?_eq_some.2 ⟨hversion, honce⟩)
  unfold versionField?
  dsimp only
  rw [hkeys]
  dsimp only
  rw [hmost]
  exact hvalue

/-- **The version comes first.** What a text with a version is read as depends on the version alone
where it is not one. -/
theorem ofJson_of_versioned (h : Versioned text.toList members d)
    (hnesting : (Tree.object members).nesting ≤ 2 * Formula.maxHeight + 2) (hnull : d ≠ .null)
    {v : Value} (hv : Source.value? d = some v) :
    (∀ e, versionNumber (some v) = .error e → Expr.ofJson text = .error e) ∧
      ∀ i, versionNumber (some v) = .ok i → i ≠ 1 →
        Expr.ofJson text = .error (.unsupportedVersion i) := by
  have hshallow : ¬ maxNesting < Json.nestingDepth text.toList := by
    rw [Json.nestingDepth_of_spells h.spelled]
    exact Nat.not_lt.2 hnesting
  have hdocument : Expr.ofJson text = Expr.ofDocument (.object members) := by
    unfold Expr.ofJson
    rw [if_neg hshallow, Json.ofText?_iff.2 h.spelled]
  have hfield := versionField?_of_versioned h hnull hv
  rw [hdocument]
  unfold Expr.ofDocument
  rw [hfield]
  refine ⟨fun e he => ?_, fun i hi hother => ?_⟩
  · dsimp only
    rw [he]
  · dsimp only
    rw [hi]
    exact if_neg hother

/-- A field that is an integer is that of a version which stands once. -/
theorem versioned_of_versionField? {i : Int}
    (hspelled : Spells text.toList (Tree.object members).tokens)
    (h : versionField? (.object members) = some (some (.number (.integer i)))) :
    ∃ d, Versioned text.toList members d ∧ Source.value? d = some (.number (.integer i)) := by
  unfold versionField? at h
  dsimp only at h
  split at h
  · cases h
  · rename_i fields hkeys
    split at h
    · cases h
    · rename_i v hmost
      rcases Json.cases_of_atMostOne? hmost with ⟨rfl, -⟩ | ⟨d, rfl, hsingle⟩
      · cases h
      · refine ⟨d, ⟨hspelled, fields, hkeys, Json.single?_eq_some.1 hsingle⟩, ?_⟩
        unfold versionValue? at h
        split at h
        · cases h
        · cases h
        · rename_i heq
          cases heq
          obtain ⟨v, hv, heq⟩ := Option.map_eq_some_iff.1 h
          cases heq
          exact hv

theorem object_of_documentNode? {node : Node} (h : documentNode? d = some node) :
    ∃ members, d = .object members := by
  unfold documentNode? at h
  split at h
  · cases h
  · rename_i hfields
    unfold Source.fields? at hfields
    split at hfields
    · exact ⟨_, rfl⟩
    · cases hfields

/-- **A text with a tree has version one.** -/
theorem versioned_of_ofJson {t : Expr} (h : Expr.ofJson text = .ok t) :
    ∃ members d, Versioned text.toList members d ∧ Source.IsSigned d 1 := by
  unfold Expr.ofJson at h
  split at h
  · cases h
  · split at h
    · cases h
    · rename_i document hdocument
      unfold Expr.ofDocument at h
      split at h
      · cases h
      · rename_i found hfield
        split at h
        · cases h
        · rename_i version hnumber
          split at h
          · rename_i hone
            split at h
            · cases h
            · rename_i node hnode
              obtain ⟨members, rfl⟩ := object_of_documentNode? hnode
              obtain ⟨rfl, hsigned⟩ := versionNumber_eq_ok hnumber
              obtain ⟨d, hversioned, hd⟩ :=
                versioned_of_versionField? (Json.ofText?_iff.1 hdocument) hfield
              obtain rfl : version = 1 := hone
              exact ⟨members, d, hversioned, Json.Source.isSigned_iff.2 ⟨hd, hsigned⟩⟩
          · cases h

end

/-- **The version gate.** A version other than one is an error whatever else the text holds, and a
text with a tree has version one. -/
theorem ofJson_version (text : String) :
    (∀ members d, Versioned text.toList members d →
      (Tree.object members).nesting ≤ 2 * Formula.maxHeight + 2 →
        (∀ i, Source.IsSigned d i → i ≠ 1 →
          Expr.ofJson text = .error (.unsupportedVersion i)) ∧
        ∀ v, Source.value? d = some v → d ≠ .null → (∀ i, ¬ Source.IsSigned d i) →
          Expr.ofJson text =
            .error (.invalidVersion (String.ofList (Json.compact (Json.sorted v))))) ∧
    ∀ t, Expr.ofJson text = .ok t →
      ∃ members d, Versioned text.toList members d ∧ Source.IsSigned d 1 := by
  refine ⟨fun members d h hnesting => ⟨fun i hi hother => ?_, fun v hv hnull hinvalid => ?_⟩,
    fun t => versioned_of_ofJson⟩
  · obtain ⟨hvalue, hhigh⟩ := Json.Source.isSigned_iff.1 hi
    have hnull : d ≠ .null := by
      rintro rfl
      cases hvalue
    exact (ofJson_of_versioned h hnesting hnull hvalue).2 i (versionNumber_signed hhigh) hother
  · refine (ofJson_of_versioned h hnesting hnull hv).1 _ (versionNumber_invalid fun i hi => ?_)
    subst hi
    exact Int.not_lt.1 fun hlow => hinvalid i (Json.Source.isSigned_iff.2 ⟨hv, hlow⟩)

/-- An object of version two with two nodes that are none and a number out of range. -/
def gatedText : String :=
  "\x7b\"expr\":\x7b\"type\":\"Num\",\"value\":1e999\x7d," ++
    "\"\\u0076ersion\":2,\"expr\":[\"\\ud800\"]\x7d"

def gatedMembers : List (List Item × Source) :=
  [([.char 'e', .char 'x', .char 'p', .char 'r'],
      .object [([.char 't', .char 'y', .char 'p', .char 'e'],
          .string [.char 'N', .char 'u', .char 'm']),
        ([.char 'v', .char 'a', .char 'l', .char 'u', .char 'e'],
          .number ⟨false, ['1'], none, some ⟨false, ['9', '9', '9']⟩⟩)]),
    ([.unit 118, .char 'e', .char 'r', .char 's', .char 'i', .char 'o', .char 'n'],
      .number ⟨false, ['2'], none, none⟩),
    ([.char 'e', .char 'x', .char 'p', .char 'r'], .list [.string [.unit 0xD800]])]

theorem ofJson_version_gated :
    Versioned gatedText.toList gatedMembers (.number ⟨false, ['2'], none, none⟩) ∧
    (Tree.object gatedMembers).nesting ≤ 2 * Formula.maxHeight + 2 ∧
    Source.IsSigned (.number ⟨false, ['2'], none, none⟩) 2 ∧
    Expr.ofJson gatedText = .error (.unsupportedVersion 2) := by
  have htext : Source.ofText? gatedText.toList = some (.object gatedMembers) := by
    with_unfolding_all rfl
  have hversioned : Versioned gatedText.toList gatedMembers (.number ⟨false, ['2'], none, none⟩) :=
    ⟨Json.ofText?_iff.1 htext, _, rfl, List.mem_cons_of_mem _ List.mem_cons_self, by decide⟩
  have hnesting : (Tree.object gatedMembers).nesting ≤ 2 * Formula.maxHeight + 2 := by decide
  have hsigned : Source.IsSigned (.number ⟨false, ['2'], none, none⟩) 2 :=
    ⟨_, rfl, ⟨rfl, rfl, rfl, nofun⟩, by decide, by decide⟩
  exact ⟨hversioned, hnesting, hsigned,
    ((ofJson_version gatedText).1 _ _ hversioned hnesting).1 2 hsigned (by decide)⟩

end GlyphMath
