import GlyphMath.Expr.Printer
import GlyphMath.Proofs.Completeness
import GlyphMath.Proofs.Shape
import GlyphMath.Proofs.Spelling
import Mathlib.Data.List.Basic

/-!
# Printed trees

* `Printable` -- trees with finite numbers, lexable names, sums and products that are not empty, and
  callable calls.
* `tokens` -- the tokens of the text of a tree.
* `norm` -- the tree that the text stands for: a number with a sign becomes a negation, a sum or
  product of one child becomes that child, and one that stands first in another joins it.
* `Printable.printed` -- the text of a printable tree spells its tokens.
* `derives_tokens` -- the tokens are a phrase of the grammar, with the normal tree.

Principal result:

* `parse_print` -- the text of a printable tree is read as its normal form, or refused as too tall.
-/

set_option autoImplicit false

namespace GlyphMath.Formula

open GlyphMath.Decimal

/-! ## Trees that can be read back -/

/-- Trees whose text can be read. -/
inductive Printable : Expr → Prop where
  | number {v : Float} {negative : Bool} {s k : Nat}
      (hv : Binary.ofFloat v = .finite negative s k) : Printable (.number v)
  | name {text : String} (htext : (Token.name text).IsWritten) : Printable (.variable text)
  | sum {terms : List Expr} (hne : terms ≠ []) (h : ∀ e ∈ terms, Printable e) :
      Printable (.sum terms)
  | product {factors : List Expr} (hne : factors ≠ []) (h : ∀ e ∈ factors, Printable e) :
      Printable (.product factors)
  | quotient {a b : Expr} : Printable a → Printable b → Printable (.quotient a b)
  | power {a b : Expr} : Printable a → Printable b → Printable (.power a b)
  | call {f : String} {args : List Expr} (hf : Callable f args.length)
      (h : ∀ e ∈ args, Printable e) : Printable (.call f args)

mutual

/-- The tokens of the text of a tree. -/
def tokens : Expr → List Token
  | .number v => if isSignSet v then [.operator .sub, .number v.abs] else [.number v]
  | .variable text => [.name text]
  | .sum terms => .openParen :: tokensJoined (.operator .add) terms
  | .product factors => .openParen :: tokensJoined (.operator .mul) factors
  | .quotient n d => .openParen :: (tokens n ++ .operator .div :: (tokens d ++ [.closeParen]))
  | .power base exponent =>
    .openParen :: (tokens base ++ .operator .pow :: (tokens exponent ++ [.closeParen]))
  | .call name args =>
    if name = "neg" ∧ args.length = 1 then
      .openParen :: .operator .sub :: tokensJoined .comma args
    else if name = "sub" ∧ args.length = 2 then .openParen :: tokensJoined (.operator .sub) args
    else .function name :: .openParen :: tokensJoined .comma args

/-- The tokens of trees with a separator between them and a closing bracket after them. -/
def tokensJoined (separator : Token) : List Expr → List Token
  | [] => [.closeParen]
  | [e] => tokens e ++ [.closeParen]
  | e :: e' :: es => tokens e ++ separator :: tokensJoined separator (e' :: es)

end

/-- Trees put together by an operator, from the left. -/
def gathered (op : Operator) : List Expr → Expr
  | [] => .sum []
  | e :: es => es.foldl op.tree e

mutual

/-- The tree that the text of a tree stands for. -/
def norm : Expr → Expr
  | .number v => if isSignSet v then .call "neg" [.number v.abs] else .number v
  | .variable text => .variable text
  | .sum terms => gathered .add (normAll terms)
  | .product factors => gathered .mul (normAll factors)
  | .quotient a b => .quotient (norm a) (norm b)
  | .power a b => .power (norm a) (norm b)
  | .call f args => .call f (normAll args)

def normAll : List Expr → List Expr
  | [] => []
  | e :: es => norm e :: normAll es

end

/-! ## The text spells the tokens -/

theorem stops_cons {c : Char} (rest : List Char) (h : isSign c = true) : Stops (c :: rest) := by
  intro d hd
  cases hd
  exact isSign_cases h

theorem stops_nil : Stops [] := fun _ h => by cases h

theorem Spells.symbol {c : Char} {rest : List Char} {ts : List Token} (h : Spells rest ts)
    (hc : isSign c = true) : Spells (c :: rest) (signToken [c] :: ts) := by
  show Spells ([c] ++ rest) (signToken [c] :: ts)
  exact .sign (takeToken?_sign hc rest) (isLiteral_sign hc) h

theorem spells_plain {v : Float} {s k : Nat} (hv : Binary.ofFloat v = .finite false s k)
    {rest : List Char} {ts : List Token} (h : Spells rest ts) (hrest : Stops rest) :
    Spells (plain v ++ rest) (.number v :: ts) := by
  obtain ⟨n, places, htext, -⟩ := plain_positional hv
  have hvalue := literalValue_plain hv
  have hspell := Spells.literal (takeToken?_positional htext hrest) (isLiteral_positional htext)
    (by rw [hvalue]; exact isInf_of_finite hv) h
  rwa [hvalue] at hspell

theorem spells_word {word : String} (hne : word.toList ≠ [])
    (hword : ∀ c ∈ word.toList, isLetter c = true) {rest : List Char} {ts : List Token}
    (h : Spells rest ts) (hrest : Stops rest) :
    Spells (word.toList ++ rest) (wordToken word :: ts) := by
  have hspell := Spells.sign (takeToken?_word hne hword hrest) (isLiteral_word hword) h
  rwa [signToken_word hword, String.ofList_toList] at hspell

theorem spells_number {v : Float} {negative : Bool} {s k : Nat}
    (hv : Binary.ofFloat v = .finite negative s k) {rest : List Char} {ts : List Token}
    (h : Spells rest ts) (hrest : Stops rest) :
    Spells (plain v ++ rest) (tokens (.number v) ++ ts) := by
  obtain ⟨hsign, -⟩ := isCanonical_of_finite hv
  rw [tokens, hsign]
  cases negative with
  | false => exact spells_plain hv h hrest
  | true =>
    rw [plain_of_negative hv]
    exact (spells_plain (ofFloat_abs hv) h hrest).symbol (by decide)

theorem spells_function {f : String} (hf : f ∈ functionNames) {rest : List Char}
    {ts : List Token} (h : Spells rest ts) (hrest : Stops rest) :
    Spells (f.toList ++ rest) (.function f :: ts) := by
  obtain ⟨hne, hword⟩ := functionNames_letters f hf
  have hspell := spells_word hne hword h hrest
  rwa [wordToken, if_pos hf] at hspell

theorem spells_name {text : String} (htext : (Token.name text).IsWritten) {rest : List Char}
    {ts : List Token} (h : Spells rest ts) (hrest : Stops rest) :
    Spells (text.toList ++ rest) (.name text :: ts) := by
  obtain ⟨hne, hword, hmem⟩ := htext
  have hspell := spells_word hne hword h hrest
  rwa [wordToken, if_neg hmem] at hspell

/-- `Printed t`: the text of the tree spells its tokens, in front of any text that does not run
into it. -/
def Printed (t : Expr) : Prop :=
  ∀ {rest : List Char} {ts : List Token}, Spells rest ts → Stops rest →
    Spells (t.print ++ rest) (tokens t ++ ts)

theorem spells_printJoined {separator : Char} (hsep : isSign separator = true) {es : List Expr}
    (hes : ∀ e ∈ es, Printed e) {rest : List Char} {ts : List Token} (h : Spells rest ts) :
    Spells (Expr.printJoined separator es ++ rest)
      (tokensJoined (signToken [separator]) es ++ ts) := by
  have hclose : Spells (')' :: rest) (.closeParen :: ts) := h.symbol (by decide)
  have hstops : Stops (')' :: rest) := stops_cons rest (by decide)
  induction es with
  | nil => exact hclose
  | cons e es ih =>
    rw [List.forall_mem_cons] at hes
    cases es with
    | nil =>
      rw [Expr.printJoined, tokensJoined, List.append_assoc, List.append_assoc]
      exact hes.1 hclose hstops
    | cons e' es =>
      rw [Expr.printJoined, tokensJoined, List.append_assoc, List.append_assoc, List.cons_append,
        List.cons_append]
      exact hes.1 ((ih hes.2).symbol hsep) (stops_cons _ hsep)

theorem spells_bracketed {op : Char} (hop : isSign op = true) {a b : Expr} (ha : Printed a)
    (hb : Printed b) {rest : List Char} {ts : List Token} (h : Spells rest ts) :
    Spells ('(' :: (a.print ++ op :: (b.print ++ [')'])) ++ rest)
      (.openParen :: (tokens a ++ signToken [op] :: (tokens b ++ [.closeParen])) ++ ts) := by
  have hclose : Spells (')' :: rest) (.closeParen :: ts) := h.symbol (by decide)
  have hright := hb hclose (stops_cons rest (by decide))
  have hleft := ha (hright.symbol hop) (stops_cons _ hop)
  simp only [List.cons_append, List.append_assoc, List.nil_append]
  exact hleft.symbol (by decide)

/-- **The text of a printable tree spells its tokens.** -/
theorem Printable.printed {t : Expr} (h : Printable t) : Printed t := by
  induction h with
  | number hv =>
    intro rest ts h hrest
    rw [Expr.print]
    exact spells_number hv h hrest
  | name htext =>
    intro rest ts h hrest
    rw [Expr.print, tokens]
    exact spells_name htext h hrest
  | sum _ _ ih =>
    intro rest ts h _
    rw [Expr.print, tokens]
    exact (spells_printJoined (by decide) ih h).symbol (by decide)
  | product _ _ ih =>
    intro rest ts h _
    rw [Expr.print, tokens]
    exact (spells_printJoined (by decide) ih h).symbol (by decide)
  | quotient _ _ iha ihb =>
    intro rest ts h _
    rw [Expr.print, tokens]
    exact spells_bracketed (by decide) iha ihb h
  | power _ _ iha ihb =>
    intro rest ts h _
    rw [Expr.print, tokens]
    exact spells_bracketed (by decide) iha ihb h
  | @call f args hf _ ih =>
    intro rest ts h _
    rw [Expr.print, tokens]
    split
    · exact ((spells_printJoined (by decide) ih h).symbol (by decide)).symbol (by decide)
    · split
      · exact (spells_printJoined (by decide) ih h).symbol (by decide)
      · rename_i hsub
        have hmem : f ∈ functionNames :=
          hf.elim (fun hc => absurd hc hsub) (fun hc => hc.1)
        rw [List.append_assoc]
        exact spells_function hmem ((spells_printJoined (by decide) ih h).symbol (by decide))
          (stops_cons _ (by decide))

/-! ## The tokens are a phrase -/

theorem tokensJoined_cons (separator : Token) (e : Expr) (es : List Expr) :
    tokensJoined separator (e :: es) =
      tokens e ++ (es.flatMap fun e => separator :: tokens e) ++ [.closeParen] := by
  induction es generalizing e with
  | nil => rw [tokensJoined, List.flatMap_nil, List.append_nil]
  | cons e' es ih =>
    rw [tokensJoined, ih, List.flatMap_cons]
    simp only [List.append_assoc, List.cons_append]

theorem normAll_eq (es : List Expr) : normAll es = es.map norm := by
  induction es with
  | nil => rfl
  | cons e es ih => rw [normAll, ih, List.map_cons]

theorem derives_gathered (op : Operator) (hop : op.lhsLevel = op.level)
    (hrhs : op.rhsLevel.rank ≤ Level.unary.rank) {es : List Expr}
    (hes : ∀ e ∈ es, Derives .unary (tokens e) (norm e)) {ts : List Token} {a : Expr}
    (ha : Derives op.level ts a) :
    Derives op.level (ts ++ es.flatMap fun e => .operator op :: tokens e)
      ((es.map norm).foldl op.tree a) := by
  induction es generalizing ts a with
  | nil =>
    rw [List.flatMap_nil, List.append_nil]
    exact ha
  | cons e es ih =>
    rw [List.forall_mem_cons] at hes
    rw [List.flatMap_cons, List.map_cons, List.foldl_cons, ← List.append_assoc]
    exact ih hes.2 (.binary op (hop ▸ ha) (hes.1.loosen hrhs))

theorem derives_group {es : List Expr} (op : Operator) (hop : op.lhsLevel = op.level)
    (hrhs : op.rhsLevel.rank ≤ Level.unary.rank) (hne : es ≠ [])
    (hes : ∀ e ∈ es, Derives .unary (tokens e) (norm e)) :
    Derives .atom (.openParen :: tokensJoined (.operator op) es) (gathered op (normAll es)) := by
  obtain ⟨e, es, rfl⟩ := List.exists_cons_of_ne_nil hne
  rw [List.forall_mem_cons] at hes
  have hfirst : Derives op.level (tokens e) (norm e) :=
    hes.1.loosen (Nat.le_of_lt op.level_lt_unary)
  rw [tokensJoined_cons, normAll_eq]
  exact .group ((derives_gathered op hop hrhs hes.2 hfirst).loosen (Nat.zero_le _))

theorem derives_bracketed (op : Operator) {ts us : List Token} {a b : Expr}
    (ha : Derives .unary ts a) (hb : Derives .unary us b) :
    Derives .atom (.openParen :: (ts ++ .operator op :: (us ++ [.closeParen]))) (op.tree a b) := by
  have hlhs : op.lhsLevel.rank ≤ Level.unary.rank := by cases op <;> decide
  have hrhs : op.rhsLevel.rank ≤ Level.unary.rank := by cases op <;> decide
  have h := Derives.group ((Derives.binary op (ha.loosen hlhs) (hb.loosen hrhs)).loosen
    (Nat.zero_le _))
  rwa [List.append_assoc, List.cons_append] at h

theorem derives_call {f : String} {args : List Expr} (hf : Callable f args.length)
    (hargs : ∀ e ∈ args, Derives .unary (tokens e) (norm e)) :
    Derives .atom (tokens (.call f args)) (.call f (args.map norm)) := by
  have hsum : ∀ e ∈ args, Derives .sum (tokens e) (norm e) := fun e he =>
    (hargs e he).loosen (Nat.zero_le _)
  rw [tokens]
  rcases hf with ⟨rfl, htwo⟩ | ⟨hmem, htakes⟩
  · obtain ⟨a, b, rfl⟩ := List.length_eq_two.1 htwo
    rw [if_neg (by simp), if_pos ⟨rfl, rfl⟩]
    exact derives_bracketed .sub (hargs a (by simp)) (hargs b (by simp))
  · rw [if_neg (fun h : f = "sub" ∧ args.length = 2 => absurd (h.1 ▸ hmem) (by decide))]
    unfold takesArgs at htakes
    split at htakes
    · subst f
      rw [if_neg (by simp)]
      rw [Bool.or_eq_true, beq_iff_eq, beq_iff_eq] at htakes
      rcases htakes with htwo | hthree
      · obtain ⟨a, b, rfl⟩ := List.length_eq_two.1 htwo
        exact .limitOfTwo (hsum a (by simp)) (hsum b (by simp))
      · obtain ⟨a, b, c, rfl⟩ := List.length_eq_three.1 hthree
        exact .limitOfThree (hsum a (by simp)) (hsum b (by simp)) (hsum c (by simp))
    · rename_i hlimit
      obtain ⟨a, rfl⟩ := List.length_eq_one_iff.1 (beq_iff_eq.1 htakes)
      split
      · rename_i hneg
        obtain ⟨rfl, -⟩ := hneg
        exact .group ((Derives.negate (hargs a (by simp))).loosen (Nat.zero_le _))
      · exact .call hlimit (hsum a (by simp))

/-- **The tokens of a printable tree are a phrase of the grammar, with the normal tree.** -/
theorem derives_tokens {t : Expr} (h : Printable t) : Derives .unary (tokens t) (norm t) := by
  induction h with
  | @number v _ _ _ hv =>
    rw [tokens, norm]
    split
    · exact .negate (.plain (.number v.abs))
    · exact .plain (.number v)
  | name => exact .plain (.name _)
  | sum hne _ ih =>
    rw [tokens, norm]
    exact .plain (derives_group .add rfl (by decide) hne ih)
  | product hne _ ih =>
    rw [tokens, norm]
    exact .plain (derives_group .mul rfl (by decide) hne ih)
  | quotient _ _ iha ihb =>
    rw [tokens, norm]
    exact .plain (derives_bracketed .div iha ihb)
  | power _ _ iha ihb =>
    rw [tokens, norm]
    exact .plain (derives_bracketed .pow iha ihb)
  | call hf _ ih =>
    rw [norm, normAll_eq]
    exact .plain (derives_call hf ih)

/-- **The text of a printable tree is read as its normal form**, or refused where that is too
tall. -/
theorem parse_print {t : Expr} (h : Printable t) :
    ∃ offset, parse t.toText = (Operand.made (norm t) offset).map (·.expr) := by
  have hspells := h.printed .nil stops_nil
  rw [List.append_nil, List.append_nil] at hspells
  obtain ⟨ls, htokenize, hls⟩ := hspells.tokenize
  have hderives : Derives .sum (ls.map (·.token)) (norm t) :=
    hls ▸ (derives_tokens h).loosen (Nat.zero_le _)
  obtain ⟨offset, hparse⟩ := parseTokens_eq_made hderives
  refine ⟨offset, ?_⟩
  rw [parse, Expr.toText, htokenize]
  exact hparse

end GlyphMath.Formula
