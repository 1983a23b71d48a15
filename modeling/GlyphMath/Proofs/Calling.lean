import GlyphMath.Proofs.Drawing
import GlyphMath.Proofs.Neighbours

/-!
# Functions, called

* `bracketBalance` -- how many more opening than closing brackets a row has.
* `noDerivative_cons` -- derivative signs of a row, a piece at a time.
* `writeCalls_eq_cons` -- a piece that is no function is the piece that it has been.

Principal results:

* `Calls.names` -- the functions of a row whose functions are called have names that are called.
* `noDerivative_writeCalls` -- no derivative sign is left.
* `writeCalls_wellFormed` -- calling the functions of a row leaves nothing to call, and keeps its
  brackets balanced and nested as they are.
-/

set_option autoImplicit false

namespace GlyphMath.Line

open Formula (functionNames)

/-! ## Brackets -/

/-- How many more opening than closing brackets a row has. -/
def bracketBalance (row : List Piece) : Int :=
  row.countP (·.kind = .opening) - row.countP (·.kind = .closing)

theorem bracketBalance_eq (row : List Piece) :
    bracketBalance row = (brackets row).count .U - (brackets row).count .D := by
  unfold bracketBalance
  induction row with
  | nil => rfl
  | cons p row ih =>
    by_cases hopen : p.kind = .opening
    · simp [brackets_opening hopen, hopen]
      omega
    · by_cases hclose : p.kind = .closing
      · simp [brackets_closing hclose, hclose]
        omega
      · simp [brackets_plain (step?_eq_none hopen hclose), hopen, hclose, ih]

theorem Climbs.bracketBalance_eq {start stop : Nat} {row : List Piece}
    (h : Climbs start stop row) : bracketBalance row = stop - start := by
  have hcount := (height?_eq_some_iff.1 h).1
  rw [Line.bracketBalance_eq]
  omega

/-- Every row climbs from a height that is great enough. -/
theorem exists_climbs (row : List Piece) : ∃ start stop, Climbs start stop row :=
  ⟨(surplus (brackets row)).closings, _, by rw [Climbs, height?_eq_surplus, if_pos le_rfl]⟩

/-! ## Functions -/

/-- The functions of a row whose functions are called have names that the formula reader knows. -/
theorem Calls.names {pieces out : List Piece} (hcalls : Calls pieces out)
    (hread : ∀ p ∈ pieces, p.IsRead) :
    ∀ q ∈ out, q.kind ≠ .root ∧ (q.kind = .function → q.text ∈ functionNames) := by
  refine hcalls.forall hread ?_ ?_ ⟨nofun, fun _ => ?_⟩ ⟨nofun, nofun⟩ ⟨nofun, nofun⟩
  · intro p hp hcallable
    exact ⟨nofun, fun _ => callName_mem hp hcallable⟩
  · intro p _ hplain
    simp only [isCallable, Bool.or_eq_false_iff, beq_eq_false_iff_ne] at hplain
    exact ⟨hplain.1, fun hfunction => absurd hfunction hplain.2⟩
  · show "diff" ∈ functionNames
    decide

/-! ## Derivative signs -/

theorem noDerivative_cons {p : Piece} {row : List Piece} :
    NoDerivative (p :: row) ↔ derivative? (p :: row) = none ∧ NoDerivative row := by
  constructor
  · intro h
    refine ⟨derivative?_eq_none h, fun a b c v hpart => h a b c v ?_⟩
    exact hpart.trans (List.suffix_cons p row).isInfix
  · rintro ⟨hnone, hrow⟩ a b c v hpart ha hb hc hv
    rcases List.infix_cons_iff.1 hpart with ⟨rest, hfront⟩ | hlater
    · have hsign : derivative? (p :: row) = some (v, rest) :=
        derivative?_eq_some.2 ⟨a, b, c, hfront.symm, ha, hb, hc, hv⟩
      rw [hnone] at hsign
      cases hsign
    · exact hrow a b c v hlater ha hb hc hv

theorem noDerivative_nil : NoDerivative [] := by
  intro a b c v hpart
  simp at hpart

theorem derivative?_of_text {p : Piece} {row : List Piece} (h : p.text ≠ "d") :
    derivative? (p :: row) = none := by
  rw [Option.eq_none_iff_forall_ne_some]
  rintro ⟨v, rest⟩ hsign
  obtain ⟨d, slash, d', heq, hd, -⟩ := derivative?_eq_some.1 hsign
  cases heq
  exact h hd

theorem derivative?_closeParen {as : List Piece} (h : derivative? as = none) (bs : List Piece) :
    derivative? (as ++ Piece.closeParen :: bs) = none := by
  rw [Option.eq_none_iff_forall_ne_some] at h ⊢
  rintro ⟨v, rest⟩ hsign
  obtain ⟨d, slash, d', heq, hd, hslash, hd', hv⟩ := derivative?_eq_some.1 hsign
  match as, heq with
  | [], heq => cases heq; exact absurd hd (by decide)
  | [_], heq => cases heq; exact absurd hslash (by decide)
  | [_, _], heq => cases heq; exact absurd hd' (by decide)
  | [_, _, _], heq => cases heq; exact absurd hv (by decide)
  | _ :: _ :: _ :: _ :: as, heq =>
    cases heq
    exact h (v, as) (derivative?_eq_some.2 ⟨_, _, _, rfl, hd, hslash, hd', hv⟩)

theorem NoDerivative.closeParen {as bs : List Piece} (has : NoDerivative as)
    (hbs : NoDerivative bs) : NoDerivative (as ++ Piece.closeParen :: bs) := by
  induction as with
  | nil => exact noDerivative_cons.2 ⟨derivative?_of_text (by decide), hbs⟩
  | cons p as ih =>
    obtain ⟨hnone, has⟩ := noDerivative_cons.1 has
    exact noDerivative_cons.2 ⟨derivative?_closeParen hnone bs, ih has⟩

/-- A piece at the front that is no function is the piece that has been there. -/
theorem writeCalls_eq_cons {position : Nat} {pieces out : List Piece} {q : Piece}
    (h : (writeCalls position pieces).1 = q :: out) (hq : q.kind ≠ .function) :
    ∃ rest, pieces = q :: rest ∧ out = (writeCalls (position + 1) rest).1 := by
  revert h
  fun_cases writeCalls position pieces with
  | case1 => nofun
  | case2 p rest v after hsign out' notes hout =>
    intro h
    rw [← (List.cons.inj h).1] at hq
    exact absurd rfl hq
  | case3 p rest hsign hp head hcalled out' notes hout =>
    intro h
    rw [← (List.cons.inj h).1] at hq
    exact absurd rfl hq
  | case4 p rest hsign hp head hbare length inner innerNotes hinner out' notes hout =>
    intro h
    rw [← (List.cons.inj h).1] at hq
    exact absurd rfl hq
  | case5 p rest hsign hp out' notes hout =>
    intro h
    obtain ⟨rfl, rfl⟩ := List.cons.inj h
    exact ⟨rest, rfl, by rw [hout]⟩

/-- The front of a row is a derivative sign if it is one after the calls have been written: none of
its pieces is a function, and so none of them has been put there. -/
theorem derivative?_plain (position : Nat) {p : Piece} {rest : List Piece}
    (hread : ∀ q ∈ rest, q.IsRead) (h : derivative? (p :: rest) = none) :
    derivative? (p :: (writeCalls position rest).1) = none := by
  have hnames := (calls_writeCalls position rest).names hread
  have htexts : ∀ name ∈ functionNames, name ≠ "d" ∧ name ≠ "/" := by decide
  rw [Option.eq_none_iff_forall_ne_some] at h ⊢
  rintro ⟨v, after⟩ hsign
  obtain ⟨d, slash, d', heq, hd, hslash, hd', hv⟩ := derivative?_eq_some.1 hsign
  obtain ⟨rfl, hout⟩ := List.cons.inj heq
  rw [hout] at hnames
  have hplain : ∀ q ∈ [slash, d', v], q.kind ≠ .function := by
    simp only [List.mem_cons, List.not_mem_nil, or_false]
    rintro q (rfl | rfl | rfl) hfunction
    · exact (htexts _ ((hnames _ (by simp)).2 hfunction)).2 hslash
    · exact (htexts _ ((hnames _ (by simp)).2 hfunction)).1 hd'
    · rw [hv] at hfunction
      cases hfunction
  obtain ⟨afterSlash, rfl, hout₁⟩ := writeCalls_eq_cons hout (hplain slash (by simp))
  obtain ⟨afterD, rfl, hout₂⟩ := writeCalls_eq_cons hout₁.symm (hplain d' (by simp))
  obtain ⟨afterV, rfl, -⟩ := writeCalls_eq_cons hout₂.symm (hplain v (by simp))
  exact h (v, afterV) (derivative?_eq_some.2 ⟨p, slash, d', rfl, hd, hslash, hd', hv⟩)

/-- **No derivative sign is left.** -/
theorem noDerivative_writeCalls {position : Nat} {pieces : List Piece}
    (hread : ∀ p ∈ pieces, p.IsRead) : NoDerivative (writeCalls position pieces).1 := by
  have hname : ∀ name ∈ functionNames, name ≠ "d" := by decide
  fun_induction writeCalls position pieces with
  | case1 => exact noDerivative_nil
  | case2 position p rest v after hsign out notes hout ih =>
    rw [hout] at ih
    obtain ⟨d, slash, d', heq, -, -, -, hv⟩ := derivative?_eq_some.1 hsign
    rw [heq] at hread
    have hafter := ih fun p hp => hread p (by simp [hp])
    have hvariable : NoDerivative [v] := noDerivative_cons.2 ⟨rfl, noDerivative_nil⟩
    exact noDerivative_cons.2 ⟨derivative?_of_text (by decide), noDerivative_cons.2
      ⟨derivative?_of_text (by decide), hvariable.closeParen hafter⟩⟩
  | case3 position p rest hsign hp head hcalled out notes hout ih =>
    rw [hout] at ih
    have hhead : head.text ≠ "d" := hname _ (callName_mem (hread p List.mem_cons_self) hp)
    exact noDerivative_cons.2
      ⟨derivative?_of_text hhead, ih fun q hq => hread q (List.mem_cons_of_mem _ hq)⟩
  | case4 position p rest hsign hp head hbare length inner innerNotes hinner out notes hout =>
    rename_i ih ih'
    rw [hinner] at ih
    rw [hout] at ih'
    have hhead : head.text ≠ "d" := hname _ (callName_mem (hread p List.mem_cons_self) hp)
    have hrest : ∀ q ∈ rest, q.IsRead := fun q hq => hread q (List.mem_cons_of_mem _ hq)
    have hoperand := ih fun q hq => hrest q (List.mem_of_mem_take hq)
    have hafter := ih' fun q hq => hrest q (List.mem_of_mem_drop hq)
    exact noDerivative_cons.2 ⟨derivative?_of_text hhead, noDerivative_cons.2
      ⟨derivative?_of_text (by decide), hoperand.closeParen hafter⟩⟩
  | case5 position p rest hsign hp out notes hout ih =>
    have hrest : ∀ q ∈ rest, q.IsRead := fun q hq => hread q (List.mem_cons_of_mem _ hq)
    have hfront := derivative?_plain (position + 1) hrest hsign
    rw [hout] at ih hfront
    exact noDerivative_cons.2 ⟨hfront, ih hrest⟩

/-! ## The row that is left -/

/-- **Calling functions leaves only calls.**  Where every piece has its kind from its text, no root
and no bare limit is left, every function stands before an opening bracket, there are as many
brackets too many as before, well-nested brackets stay so, and there is nothing left to call. -/
theorem writeCalls_wellFormed {row : List Piece} (hread : ∀ p ∈ row, p.IsRead) (position : Nat) :
    let out := (writeCalls position row).1
    (∀ q ∈ out, q.kind ≠ .root ∧ ¬(q.kind = .function ∧ q.text = "lim")) ∧
      Called (fun q => q.kind = .opening) out ∧
      bracketBalance out = bracketBalance row ∧
      (WellNested row → WellNested out) ∧
      ∀ position', writeCalls position' out = (out, []) := by
  intro out
  have hcalls : Calls row out := calls_writeCalls position row
  have hnames := hcalls.names hread
  have hcalled := hcalls.functions hread
  refine ⟨fun q hq => ⟨(hnames q hq).1, ?_⟩, hcalled, ?_, ?_, ?_⟩
  · rintro ⟨hfunction, htext⟩
    have hmem := (hnames q hq).2 hfunction
    rw [htext] at hmem
    exact absurd hmem (by decide)
  · obtain ⟨start, stop, hclimbs⟩ := exists_climbs row
    rw [hclimbs.bracketBalance_eq, (hcalls.climbs hread hclimbs).bracketBalance_eq]
  · intro hnested
    exact wellNested_iff.2 (hcalls.climbs hread (wellNested_iff.1 hnested))
  · have hself : ∀ name ∈ functionNames, callName name = name := by decide
    exact writeCalls_eq hcalled (fun q hq => (hnames q hq).1)
      (fun q hq hfunction => hself _ ((hnames q hq).2 hfunction)) (noDerivative_writeCalls hread)

/-- A root over a bare limit of a bare function, beside a derivative sign. -/
def mixedRow : List Piece :=
  ["(", "√", "-", "lim", "sin", "x", "+", "d", "/", "d", "x", "x", ")", "*", "cos", "(", "x"].map
    fun text => ⟨text, Kind.of text, none⟩

theorem writeCalls_wellFormed_mixed :
    let out := (writeCalls 0 mixedRow).1
    lineText out = "(sqrt(-limit(sin(x)))+diff(x)x)*cos(x" ∧ ¬ WellNested mixedRow ∧
      Called (fun q => q.kind = .opening) out ∧ bracketBalance out = 1 ∧
      ∀ position, writeCalls position out = (out, []) := by
  have hread : ∀ p ∈ mixedRow, p.IsRead := by
    intro p hp
    obtain ⟨text, -, rfl⟩ := List.mem_map.1 hp
    rfl
  obtain ⟨-, hcalled, hbalance, -, hagain⟩ := writeCalls_wellFormed hread 0
  exact ⟨by decide +kernel, by decide +kernel, hcalled, hbalance.trans (by decide +kernel), hagain⟩

end GlyphMath.Line
