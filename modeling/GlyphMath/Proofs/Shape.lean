import GlyphMath.Proofs.Stacks

/-!
# The shape of parsed trees

* `Callable` -- the calls that the parser makes: a difference, a limit of two or three arguments,
  another function of one.
* `Canonical` -- sums and products have at least two children, the first one of another kind, and
  calls are callable.
* `yield` -- the numbers and names of a tree, from left to right.
* `Holds` -- the operand stack: trees of the shape, no taller than allowed, with their own heights,
  whose leaves are the numbers and names that were read.
* `holds_of_step` -- every token keeps the stacks so.

Principal result:

* `shape_of_parseTokens` -- a parsed tree has the shape and the leaves of its tokens, and is no
  taller than allowed.
-/

set_option autoImplicit false

namespace GlyphMath.Formula

/-! ## Trees -/

/-- The names and numbers of arguments of calls. -/
def Callable (f : String) (count : Nat) : Prop :=
  f = "sub" ∧ count = 2 ∨ f ∈ functionNames ∧ takesArgs f count = true

/-- The shape of the trees that the parser builds. -/
inductive Canonical : Expr → Prop where
  | number (v : Float) : Canonical (.number v)
  | name (text : String) : Canonical (.variable text)
  | sum {first : Expr} {rest : List Expr} (hne : rest ≠ [])
      (hfirst : ∀ terms, first ≠ .sum terms) (h : ∀ e ∈ first :: rest, Canonical e) :
      Canonical (.sum (first :: rest))
  | product {first : Expr} {rest : List Expr} (hne : rest ≠ [])
      (hfirst : ∀ factors, first ≠ .product factors) (h : ∀ e ∈ first :: rest, Canonical e) :
      Canonical (.product (first :: rest))
  | quotient {a b : Expr} : Canonical a → Canonical b → Canonical (.quotient a b)
  | power {a b : Expr} : Canonical a → Canonical b → Canonical (.power a b)
  | call {f : String} {args : List Expr} (hf : Callable f args.length)
      (h : ∀ e ∈ args, Canonical e) : Canonical (.call f args)

mutual

/-- The numbers and names of a tree, from left to right. -/
def yield : Expr → List Token
  | .number v => [.number v]
  | .variable text => [.name text]
  | .sum terms => yieldAll terms
  | .product factors => yieldAll factors
  | .quotient a b => yield a ++ yield b
  | .power a b => yield a ++ yield b
  | .call _ args => yieldAll args

/-- The numbers and names of trees that stand side by side. -/
def yieldAll : List Expr → List Token
  | [] => []
  | e :: es => yield e ++ yieldAll es

end

/-- Whether a token is a leaf of a tree. -/
def Token.isLeaf : Token → Bool
  | .number _ => true
  | .name _ => true
  | _ => false

theorem yieldAll_append (as bs : List Expr) : yieldAll (as ++ bs) = yieldAll as ++ yieldAll bs := by
  induction as with
  | nil => rfl
  | cons a as ih => rw [List.cons_append, yieldAll, yieldAll, ih, List.append_assoc]

theorem yieldAll_singleton (e : Expr) : yieldAll [e] = yield e := by
  rw [yieldAll, yieldAll, List.append_nil]

theorem yield_tree (op : Operator) (a b : Expr) : yield (op.tree a b) = yield a ++ yield b := by
  cases op <;> cases a <;>
    simp only [Operator.tree, yield, yieldAll_append, yieldAll, List.append_nil]

theorem mem_snoc {e b first : Expr} {rest : List Expr} (he : e ∈ first :: rest ++ [b]) :
    e ∈ first :: rest ∨ e = b := by
  rwa [List.mem_append, List.mem_singleton] at he

theorem Canonical.pair {a b : Expr} (ha : Canonical a) (hb : Canonical b) :
    ∀ e ∈ [a, b], Canonical e := by
  intro e he
  rcases List.mem_cons.1 he with rfl | he
  · exact ha
  · rw [List.mem_singleton.1 he]
    exact hb

theorem tree_add {a : Expr} (b : Expr) (ha : ∀ terms, a ≠ .sum terms) :
    Operator.add.tree a b = .sum [a, b] := by
  unfold Operator.tree
  split <;> simp_all

theorem tree_mul {a : Expr} (b : Expr) (ha : ∀ factors, a ≠ .product factors) :
    Operator.mul.tree a b = .product [a, b] := by
  unfold Operator.tree
  split <;> simp_all

theorem Canonical.tree (op : Operator) {a b : Expr} (ha : Canonical a) (hb : Canonical b) :
    Canonical (op.tree a b) := by
  cases op with
  | add =>
    by_cases hsum : ∃ terms, a = .sum terms
    · obtain ⟨terms, rfl⟩ := hsum
      cases ha with
      | sum hne hfirst h =>
        refine .sum (by simp) hfirst fun e he => ?_
        exact (mem_snoc he).elim (h e) fun heq => heq ▸ hb
    · have hfirst : ∀ terms, a ≠ .sum terms := fun terms heq => hsum ⟨terms, heq⟩
      rw [tree_add b hfirst]
      exact .sum (by simp) hfirst (ha.pair hb)
  | mul =>
    by_cases hproduct : ∃ factors, a = .product factors
    · obtain ⟨factors, rfl⟩ := hproduct
      cases ha with
      | product hne hfirst h =>
        refine .product (by simp) hfirst fun e he => ?_
        exact (mem_snoc he).elim (h e) fun heq => heq ▸ hb
    · have hfirst : ∀ factors, a ≠ .product factors := fun factors heq => hproduct ⟨factors, heq⟩
      rw [tree_mul b hfirst]
      exact .product (by simp) hfirst (ha.pair hb)
  | sub => exact .call (Or.inl ⟨rfl, rfl⟩) (ha.pair hb)
  | div => exact .quotient ha hb
  | pow => exact .power ha hb

/-! ## The operand stack -/

/-- A tree that the parser may build. -/
structure Sound (e : Expr) : Prop where
  height : e.height ≤ maxHeight
  shape : Canonical e

/-- The operand stack holds sound trees with their own heights, and `ts` are their leaves, the
topmost tree's last. -/
def Holds (operands : List Operand) (ts : List Token) : Prop :=
  ∃ es : List Expr, operands = es.map .ofExpr ∧ (∀ e ∈ es, Sound e) ∧ yieldAll es.reverse = ts

theorem made_map_eq_ok {e : Expr} {offset : Nat} {below operands : List Operand}
    (h : (Operand.made e offset).map (· :: below) = .ok operands) :
    e.height ≤ maxHeight ∧ operands = .ofExpr e :: below := by
  unfold Operand.made at h
  split at h
  · cases h
  · cases h
    exact ⟨by omega, rfl⟩

theorem Holds.push {operands : List Operand} {ts : List Token} (h : Holds operands ts) {e : Expr}
    (he : Sound e) : Holds (.ofExpr e :: operands) (ts ++ yield e) := by
  obtain ⟨es, rfl, hes, rfl⟩ := h
  refine ⟨e :: es, rfl, List.forall_mem_cons.2 ⟨he, hes⟩, ?_⟩
  rw [List.reverse_cons, yieldAll_append, yieldAll_singleton]

theorem base_lt_of_negate {offset base : Nat} {operands operands' : List Operand}
    (h : reduce (.negate offset base) operands = .ok operands') : base < operands.length := by
  rcases reduce_negate_cases offset base operands with ⟨-, heq⟩ | ⟨hbase, -⟩
  · rw [heq] at h
    cases h
  · exact hbase

theorem base_lt_of_binary {op : Operator} {offset base : Nat} {operands operands' : List Operand}
    (h : reduce (.binary op offset base) operands = .ok operands') :
    base < operands.length ∧ 2 ≤ operands.length := by
  rcases reduce_binary_cases op offset base operands with ⟨-, heq⟩ | ⟨hbase, rhs, lhs, rest, rfl, -⟩
  · rw [heq] at h
    cases h
  · simp only [List.length_cons] at hbase ⊢
    omega

theorem Holds.reduce {entry : Entry} {operands operands' : List Operand} {ts : List Token}
    (h : Holds operands ts) (hr : reduce entry operands = .ok operands') : Holds operands' ts := by
  obtain ⟨es, rfl, hes, rfl⟩ := h
  cases entry with
  | paren => cases hr
  | negate offset base =>
    have hbase := base_lt_of_negate hr
    cases es with
    | nil => exact absurd hbase (Nat.not_lt_zero _)
    | cons e es =>
      rw [List.map_cons, List.length_cons] at hbase
      rw [List.map_cons, reduce_negate offset e (by omega)] at hr
      obtain ⟨hheight, rfl⟩ := made_map_eq_ok hr
      rw [List.forall_mem_cons] at hes
      refine ⟨.call "neg" [e] :: es, rfl, List.forall_mem_cons.2 ⟨⟨hheight, ?_⟩, hes.2⟩, ?_⟩
      · exact .call (Or.inr ⟨by decide, rfl⟩) (by simpa using hes.1.shape)
      · simp only [List.reverse_cons, yieldAll_append, yieldAll_singleton, yield]
  | binary op offset base =>
    obtain ⟨hbase, htwo⟩ := base_lt_of_binary hr
    match es with
    | [] => exact absurd hbase (Nat.not_lt_zero _)
    | [e] => exact absurd htwo (Nat.lt_irrefl 1)
    | b :: a :: es =>
      rw [List.map_cons, List.map_cons, List.length_cons, List.length_cons] at hbase
      rw [List.map_cons, List.map_cons, reduce_binary op offset a b (by omega)] at hr
      obtain ⟨hheight, rfl⟩ := made_map_eq_ok hr
      rw [List.forall_mem_cons, List.forall_mem_cons] at hes
      refine ⟨op.tree a b :: es, rfl, List.forall_mem_cons.2 ⟨⟨hheight, ?_⟩, hes.2.2⟩, ?_⟩
      · exact .tree op hes.2.1.shape hes.1.shape
      · simp only [List.reverse_cons, yieldAll_append, yieldAll_singleton, yield_tree,
          List.append_assoc]

theorem Holds.reduceGroup {entries entries' : List Entry} {operands operands' : List Operand}
    {ts : List Token} (h : Holds operands ts)
    (hr : reduceGroup entries operands = .ok (entries', operands')) : Holds operands' ts := by
  induction entries generalizing operands with
  | nil =>
    cases hr
    exact h
  | cons entry entries ih =>
    cases hparen : entry.isParen with
    | true =>
      cases entry with
      | paren =>
        cases hr
        exact h
      | negate => cases hparen
      | binary => cases hparen
    | false =>
      rw [reduceGroup_cons _ _ hparen] at hr
      cases hreduce : Formula.reduce entry operands with
      | error e =>
        rw [hreduce] at hr
        cases hr
      | ok operands₁ =>
        rw [hreduce] at hr
        exact ih (h.reduce hreduce) hr

theorem Holds.reduceFor {op : Operator} {entries entries' : List Entry}
    {operands operands' : List Operand} {ts : List Token} (h : Holds operands ts)
    (hr : reduceFor op entries operands = .ok (entries', operands')) : Holds operands' ts := by
  induction entries generalizing operands with
  | nil =>
    cases hr
    exact h
  | cons entry entries ih =>
    unfold Formula.reduceFor at hr
    split at hr
    · split at hr
      · cases hr
      · rename_i operands₁ hreduce
        exact ih (h.reduce hreduce) hr
    · cases hr
      exact h

theorem Holds.reduceAll {entries : List Entry} {operands operands' : List Operand}
    {ts : List Token} (h : Holds operands ts) (hr : reduceAll entries operands = .ok operands') :
    Holds operands' ts := by
  induction entries generalizing operands with
  | nil =>
    cases hr
    exact h
  | cons entry entries ih =>
    unfold Formula.reduceAll at hr
    split at hr
    · cases hr
    · rename_i operands₁ hreduce
      exact ih (h.reduce hreduce) hr

theorem Holds.applyCall {frame : CallFrame} {operands operands' : List Operand} {ts : List Token}
    (h : Holds operands ts) (hf : frame.name ∈ functionNames)
    (hr : applyCall frame operands = .ok operands') : Holds operands' ts := by
  obtain ⟨es, rfl, hes, rfl⟩ := h
  obtain ⟨f, offset, base⟩ := frame
  rcases Nat.lt_or_ge es.length base with hlt | hbase
  · have hzero : (es.map Operand.ofExpr).length - base = 0 := by
      rw [List.length_map]
      omega
    unfold Formula.applyCall at hr
    dsimp only at hr
    rw [hzero, takesArgs_zero] at hr
    cases hr
  · obtain ⟨args, below, rfl, hbelow⟩ : ∃ args below : List Expr,
        es = args.reverse ++ below ∧ below.length = base := by
      refine ⟨(es.take (es.length - base)).reverse, es.drop (es.length - base), ?_, ?_⟩
      · rw [List.reverse_reverse, List.take_append_drop]
      · rw [List.length_drop]
        omega
    have hcall := applyCall_eq f offset args (below.map Operand.ofExpr)
    rw [List.length_map, hbelow] at hcall
    rw [List.map_append, List.map_reverse, hcall] at hr
    split at hr
    · rename_i hargs
      obtain ⟨hheight, rfl⟩ := made_map_eq_ok hr
      rw [List.forall_mem_append] at hes
      refine ⟨.call f args :: below, rfl, List.forall_mem_cons.2 ⟨⟨hheight, ?_⟩, hes.2⟩, ?_⟩
      · exact .call (Or.inr ⟨hf, hargs⟩) fun e he => (hes.1 e (List.mem_reverse.2 he)).shape
      · rw [List.reverse_append, List.reverse_reverse, List.reverse_cons, yieldAll_append,
          yieldAll_append, yieldAll_singleton, yield]
    · cases hr

/-! ## Taking tokens -/

/-- After the tokens `ts` the operand stack holds their leaves, and only functions wait. -/
structure State.Holds (s : State) (ts : List Token) : Prop where
  operands : Formula.Holds s.operands (ts.filter Token.isLeaf)
  frames : ∀ frame ∈ s.frames, frame.name ∈ functionNames
  pending : ∀ p ∈ s.pending, p.1 ∈ functionNames

theorem filter_snoc (ts : List Token) (x : Token) :
    (ts ++ [x]).filter Token.isLeaf = ts.filter Token.isLeaf ++ if x.isLeaf then [x] else [] := by
  rw [List.filter_append]
  cases hx : x.isLeaf <;> simp [hx]

theorem holds_of_closeGroup {s s' : State} {ts : List Token} {offset : Nat} (h : s.Holds ts)
    (hr : closeGroup s offset = .ok s') : s'.Holds (ts ++ [.closeParen]) := by
  have hfilter : (ts ++ [Token.closeParen]).filter Token.isLeaf = ts.filter Token.isLeaf := by
    rw [filter_snoc]
    exact List.append_nil _
  unfold closeGroup at hr
  split at hr
  · cases hr
  · split at hr
    · cases hr
    · rename_i hgroup
      have hops := h.operands.reduceGroup hgroup
      split at hr
      · cases hr
      · rename_i frame frames hframes
        have hf : ∀ x ∈ frame :: frames, x.name ∈ functionNames := hframes ▸ h.frames
        rw [List.forall_mem_cons] at hf
        split at hr
        · cases hr
        · rename_i hcall
          cases hr
          exact ⟨hfilter ▸ hops.applyCall hf.1 hcall, hf.2, by simp⟩
    · rename_i hgroup
      have hops := h.operands.reduceGroup hgroup
      split at hr
      · cases hr
      · cases hr
        exact ⟨hfilter ▸ hops, h.frames, by simp⟩
      · cases hr
    · cases hr

theorem holds_of_takeToken {s s' : State} {ts : List Token} {token : Token} {offset : Nat}
    (h : s.Holds ts) (hl : ∀ f, token = .function f → f ∈ functionNames)
    (hr : takeToken s token offset = .ok s') : s'.Holds (ts ++ [token]) := by
  cases token with
  | number v =>
    cases hr
    refine ⟨?_, h.frames, h.pending⟩
    rw [filter_snoc]
    exact h.operands.push ⟨by simp [Expr.height, maxHeight], .number v⟩
  | name text =>
    cases hr
    refine ⟨?_, h.frames, h.pending⟩
    rw [filter_snoc]
    exact h.operands.push ⟨by simp [Expr.height, maxHeight], .name text⟩
  | function f =>
    cases hr
    refine ⟨?_, h.frames, by simpa using hl f rfl⟩
    rw [filter_snoc]
    exact (List.append_nil _).symm ▸ h.operands
  | openParen =>
    cases hr
    refine ⟨?_, h.frames, h.pending⟩
    rw [filter_snoc]
    exact (List.append_nil _).symm ▸ h.operands
  | closeParen => exact holds_of_closeGroup h hr
  | comma =>
    unfold takeToken at hr
    dsimp only at hr
    split at hr
    · split at hr
      · cases hr
      · rename_i hgroup
        cases hr
        refine ⟨?_, h.frames, h.pending⟩
        rw [filter_snoc]
        exact (List.append_nil _).symm ▸ h.operands.reduceGroup hgroup
    · cases hr
  | operator op =>
    have hfilter : (ts ++ [Token.operator op]).filter Token.isLeaf = ts.filter Token.isLeaf := by
      rw [filter_snoc]
      exact List.append_nil _
    unfold takeToken at hr
    dsimp only at hr
    split at hr
    · split at hr
      · cases hr
      · rename_i hfor
        cases hr
        exact ⟨hfilter ▸ h.operands.reduceFor hfor, h.frames, h.pending⟩
    · split at hr
      · cases hr
        exact ⟨hfilter ▸ h.operands, h.frames, h.pending⟩
      · cases hr

/-- **Every token keeps the stacks so.** -/
theorem holds_of_step {s s' : State} {ts : List Token} {l : Lexeme} (h : s.Holds ts)
    (hl : ∀ f, l.token = .function f → f ∈ functionNames) (hr : step s l = .ok s') :
    s'.Holds (ts ++ [l.token]) := by
  unfold step at hr
  split at hr
  · exact holds_of_takeToken h hl hr
  · rename_i name offset hpending
    split at hr
    · rename_i hopen
      cases hr
      have hname : name ∈ functionNames := h.pending (name, offset) hpending
      refine ⟨?_, List.forall_mem_cons.2 ⟨hname, h.frames⟩, by simp⟩
      rw [hopen, filter_snoc]
      exact (List.append_nil _).symm ▸ h.operands
    · cases hr

theorem holds_of_steps {s s' : State} {ts : List Token} {ls : List Lexeme} (h : s.Holds ts)
    (hls : ∀ l ∈ ls, ∀ f, l.token = .function f → f ∈ functionNames)
    (hr : steps s ls = .ok s') : s'.Holds (ts ++ ls.map (·.token)) := by
  induction ls generalizing s ts with
  | nil =>
    cases hr
    rw [List.map_nil, List.append_nil]
    exact h
  | cons l ls ih =>
    rw [List.forall_mem_cons] at hls
    unfold steps at hr
    split at hr
    · cases hr
    · rename_i s₁ hstep
      rw [List.map_cons, List.append_cons]
      exact ih (holds_of_step h hls.1 hstep) hls.2 hr

/-- **A parsed tree has the shape, the height and the leaves that it should have.**  Nothing is
asked of the tokens but that the functions among them exist: values that stand side by side and
commas that nothing follows are read as well. -/
theorem shape_of_parseTokens {ls : List Lexeme} {t : Expr}
    (hls : ∀ l ∈ ls, ∀ f, l.token = .function f → f ∈ functionNames)
    (h : parseTokens ls = .ok t) :
    Sound t ∧ yield t = (ls.map (·.token)).filter Token.isLeaf := by
  unfold parseTokens at h
  split at h
  · cases h
  · rename_i s hsteps
    have hstart : State.start.Holds [] := ⟨⟨[], rfl, by simp, rfl⟩, by simp [State.start],
      by simp [State.start]⟩
    have hs := holds_of_steps hstart hls hsteps
    rw [List.nil_append] at hs
    unfold finish at h
    split at h
    · cases h
    · split at h
      · cases h
      · cases h
      · rename_i operand hall
        cases h
        obtain ⟨es, heq, hes, hyield⟩ := hs.operands.reduceAll hall
        obtain ⟨e, es', rfl, rfl, hnil⟩ := List.map_eq_cons_iff.1 heq.symm
        rw [List.map_eq_nil_iff.1 hnil] at hes hyield
        rw [List.reverse_singleton, yieldAll_singleton] at hyield
        exact ⟨hes e (List.mem_singleton.2 rfl), hyield⟩
      · cases h

end GlyphMath.Formula
