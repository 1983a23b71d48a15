import GlyphMath.Proofs.Places
import GlyphMath.Proofs.Supply
import Mathlib.Data.Fintype.EquivFin

/-!
# The marks on the stacks

* `Entry.base` -- the number of operands that an entry remembers.
* `Operand.IsMeasured` -- an operand whose height is that of its tree.
* `Marked` -- waiting entries and operands that fit together: no entry remembers more operands than
  the ones above it do, or than there are.
* `State.Marked` -- the stacks fit together, and one of them holds something once a token has been
  taken.

An operator is applied only where there are more operands than it remembers, and it leaves one
less at most.  So it never reaches below its base, and what lies there stays as the entries below
remember it, also where operands pile up because a text is no sentence.

Principal results:

* `marked_step`, `marked_of_steps` -- every token keeps it so.
* `parseTokens_eq_empty` -- only where there are no tokens nothing is found.
-/

set_option autoImplicit false

namespace GlyphMath.Formula

/-- The number of operands that an entry remembers. -/
def Entry.base : Entry → Nat
  | .binary _ _ base => base
  | .negate _ base => base
  | .paren _ base _ => base

/-! ## Heights -/

/-- An operand whose height is that of its tree, from one up to the greatest that is built. -/
structure Operand.IsMeasured (operand : Operand) : Prop where
  height_eq : operand.height = operand.expr.height
  one_le : 1 ≤ operand.height
  le_max : operand.height ≤ maxHeight

theorem Operand.IsMeasured.eq_ofExpr {operand : Operand} (h : operand.IsMeasured) :
    operand = .ofExpr operand.expr := by
  obtain ⟨expr, height⟩ := operand
  exact congrArg (Operand.mk expr) h.height_eq

theorem isMeasured_node {e : Expr} {childHeight offset : Nat} {operand : Operand}
    (hheight : childHeight + 1 = e.height) (h : Operand.node e childHeight offset = .ok operand) :
    operand.IsMeasured := by
  unfold Operand.node at h
  split at h
  · cases h
  · rename_i hle
    cases h
    exact ⟨hheight, Nat.succ_pos _, Nat.le_of_not_lt hle⟩

theorem height_joined (op : Operator) {lhs rhs : Operand} (hl : lhs.IsMeasured)
    (hr : rhs.IsMeasured) : (joined op lhs rhs).2 + 1 = (joined op lhs rhs).1.height := by
  rw [hl.eq_ofExpr, hr.eq_ofExpr, (joined_ofExpr op _ _).2, (joined_ofExpr op _ _).1]

theorem tallestOperand_eq {operands : List Operand}
    (h : ∀ operand ∈ operands, operand.IsMeasured) :
    tallestOperand operands = Expr.tallest (operands.map (·.expr)) := by
  have hoperands : (operands.map (·.expr)).map Operand.ofExpr = operands := by
    rw [List.map_map]
    exact (List.map_congr_left fun operand hmem => (h operand hmem).eq_ofExpr.symm).trans
      (List.map_id operands)
  rw [← tallestOperand_ofExpr, hoperands]

/-! ## Entries and operands -/

/-- Waiting entries and operands that fit together. -/
structure Marked (entries : List Entry) (operands : List Operand) : Prop where
  /-- From the bottom to the top the bases never decrease. -/
  ordered : entries.Pairwise fun above below => below.base ≤ above.base
  /-- No base exceeds the number of operands. -/
  bounded : ∀ entry ∈ entries, entry.base ≤ operands.length
  /-- An operator between two values has the first of them below it. -/
  supplied : ∀ op offset base, .binary op offset base ∈ entries → 0 < base
  measured : ∀ operand ∈ operands, operand.IsMeasured

section

variable {entry : Entry} {entries entries' pending : List Entry} {operands operands' : List Operand}
  {operand : Operand}

theorem Marked.base_le (h : Marked (entry :: entries) operands) :
    entry.base ≤ operands.length :=
  h.bounded entry List.mem_cons_self

/-- The entries below the topmost one, with operands at least down to its base. -/
theorem Marked.below (h : Marked (entry :: entries) operands)
    (hbase : entry.base ≤ operands'.length)
    (hmeasured : ∀ operand ∈ operands', operand.IsMeasured) : Marked entries operands' where
  ordered := (List.pairwise_cons.1 h.ordered).2
  bounded below hbelow :=
    Nat.le_trans ((List.pairwise_cons.1 h.ordered).1 below hbelow) hbase
  supplied op offset base hmem := h.supplied op offset base (List.mem_cons_of_mem _ hmem)
  measured := hmeasured

theorem Marked.push (h : Marked entries operands) (hoperand : operand.IsMeasured) :
    Marked entries (operand :: operands) where
  ordered := h.ordered
  bounded entry hentry := Nat.le_succ_of_le (h.bounded entry hentry)
  supplied := h.supplied
  measured := List.forall_mem_cons.2 ⟨hoperand, h.measured⟩

/-- A further entry, which remembers all the operands that there are. -/
theorem Marked.wait (h : Marked entries operands) (hbase : entry.base = operands.length)
    (hsupplied : ∀ op offset base, entry = .binary op offset base → 0 < base) :
    Marked (entry :: entries) operands where
  ordered := List.pairwise_cons.2 ⟨fun below hbelow => hbase ▸ h.bounded below hbelow, h.ordered⟩
  bounded := List.forall_mem_cons.2 ⟨Nat.le_of_eq hbase, h.bounded⟩
  supplied op offset base hmem := by
    rcases List.mem_cons.1 hmem with heq | hmem
    · exact hsupplied op offset base heq.symm
    · exact h.supplied op offset base hmem
  measured := h.measured

theorem map_eq_ok {α β : Type} {r : Except ParseError α} {f : α → β} {b : β}
    (h : r.map f = .ok b) : ∃ a, r = .ok a ∧ f a = b := by
  cases r with
  | error e => cases h
  | ok a => exact ⟨a, rfl, Except.ok.inj h⟩

/-- **An operator that is applied** leaves an operand above its base and does not touch the ones
below. -/
theorem Marked.of_reduce (h : Marked (entry :: entries) operands)
    (hr : reduce entry operands = .ok operands') :
    Marked entries operands' ∧ 0 < operands'.length := by
  have hmeasured := h.measured
  cases entry with
  | paren => cases hr
  | negate offset base =>
    rcases reduce_negate_cases offset base operands with
      ⟨-, heq⟩ | ⟨hbase, only, rest, rfl, heq⟩ <;> rw [heq] at hr
    · cases hr
    · obtain ⟨operand, hnode, rfl⟩ := map_eq_ok hr
      obtain ⟨honly, hrest⟩ := List.forall_mem_cons.1 hmeasured
      have hheight : only.height + 1 = (Expr.call "neg" [only.expr]).height := by
        rw [Expr.height, tallest_singleton, honly.height_eq]
      refine ⟨h.below ?_ (List.forall_mem_cons.2 ⟨isMeasured_node hheight hnode, hrest⟩),
        Nat.succ_pos _⟩
      exact Nat.le_of_lt hbase
  | binary op offset base =>
    rcases reduce_binary_cases op offset base operands with
      ⟨-, heq⟩ | ⟨hbase, rhs, lhs, rest, rfl, heq⟩ <;> rw [heq] at hr
    · cases hr
    · obtain ⟨operand, hnode, rfl⟩ := map_eq_ok hr
      obtain ⟨hrhs, hmeasured⟩ := List.forall_mem_cons.1 hmeasured
      obtain ⟨hlhs, hrest⟩ := List.forall_mem_cons.1 hmeasured
      refine ⟨h.below ?_ (List.forall_mem_cons.2
        ⟨isMeasured_node (height_joined op hlhs hrhs) hnode, hrest⟩), Nat.succ_pos _⟩
      exact Nat.le_of_lt_succ hbase

theorem Marked.of_reduceAll (h : Marked (pending ++ entries) operands)
    (hr : reduceAll pending operands = .ok operands') :
    Marked entries operands' ∧
      (0 < pending.length + operands.length → 0 < operands'.length) := by
  induction pending generalizing operands with
  | nil =>
    cases hr
    exact ⟨h, fun hpos => by rwa [List.length_nil, Nat.zero_add] at hpos⟩
  | cons entry pending ih =>
    rw [reduceAll] at hr
    split at hr
    · cases hr
    · rename_i hone
      obtain ⟨hnext, hpos⟩ := h.of_reduce hone
      obtain ⟨hall, hleft⟩ := ih hnext hr
      exact ⟨hall, fun _ => hleft (Nat.add_pos_right _ hpos)⟩

theorem Marked.of_reduceWhile (h : Marked entries operands) {sort : Entry → Bool}
    (hr : (reduceAll (entries.takeWhile sort) operands).map (entries.dropWhile sort, ·) =
      .ok (entries', operands')) :
    entries' = entries.dropWhile sort ∧ Marked entries' operands' ∧
      (0 < operands.length → 0 < operands'.length) := by
  obtain ⟨left, hall, heq⟩ := map_eq_ok hr
  cases heq
  rw [← @List.takeWhile_append_dropWhile _ sort entries] at h
  obtain ⟨hmarked, hleft⟩ := h.of_reduceAll hall
  exact ⟨rfl, hmarked, fun hpos => hleft (Nat.add_pos_right _ hpos)⟩

theorem Marked.of_reduceGroup (h : Marked entries operands)
    (hr : reduceGroup entries operands = .ok (entries', operands')) :
    entries' = entries.dropWhile (!·.isParen) ∧ Marked entries' operands' ∧
      (0 < operands.length → 0 < operands'.length) :=
  h.of_reduceWhile (reduceGroup_eq entries operands ▸ hr)

theorem Marked.of_reduceFor (h : Marked entries operands) {op : Operator}
    (hr : reduceFor op entries operands = .ok (entries', operands')) :
    Marked entries' operands' ∧ (0 < operands.length → 0 < operands'.length) :=
  (h.of_reduceWhile (reduceFor_eq op entries operands ▸ hr)).2

theorem measured_applyCall {frame : CallFrame}
    (hmeasured : ∀ operand ∈ operands, operand.IsMeasured)
    (h : applyCall frame operands = .ok operands') :
    ∀ operand ∈ operands', operand.IsMeasured := by
  unfold applyCall at h
  dsimp only at h
  split at h
  · split at h
    · cases h
    · rename_i operand hnode
      cases h
      refine List.forall_mem_cons.2 ⟨isMeasured_node ?_ hnode, fun operand hmem =>
        hmeasured operand (List.mem_of_mem_drop hmem)⟩
      rw [Expr.height, tallestOperand_eq fun operand hmem =>
        hmeasured operand (List.mem_of_mem_take (List.mem_reverse.1 hmem))]
  · cases h

end

/-! ## Taking tokens -/

/-- The stacks fit together, and one of them holds something once a token has been taken. -/
structure State.Marked (s : State) : Prop where
  fits : Formula.Marked s.entries s.operands
  begun : s.previous ≠ none → s.pending = none → s.entries = [] → 0 < s.operands.length

section

variable {s s' : State} {place offset : Nat} {l : Lexeme} {ls : List Lexeme}

theorem marked_start : State.start.Marked where
  fits := ⟨.nil, nofun, nofun, nofun⟩
  begun hprevious := absurd rfl hprevious

theorem marked_wait {entry : Entry} {entries : List Entry} {operands : List Operand}
    {frames : List CallFrame} {pending : Option (String × Nat)} {previous : Option Token}
    (h : Formula.Marked entries operands) (hbase : entry.base = operands.length)
    (hsupplied : ∀ op offset base, entry = .binary op offset base → 0 < base) :
    State.Marked ⟨entry :: entries, frames, operands, pending, previous⟩ where
  fits := h.wait hbase hsupplied
  begun _ _ hentries := absurd hentries (List.cons_ne_nil _ _)

theorem marked_closeGroup (h : s.Marked) (hs : s.Supplies place)
    (hr : closeGroup s offset = .ok s') : s'.Marked := by
  have hfits := h.fits
  unfold closeGroup at hr
  split at hr
  · cases hr
  split at hr
  · cases hr
  · rename_i hgroup
    split at hr
    · cases hr
    · rename_i entries operands _ frame frames hframes
      split at hr
      · cases hr
      · rename_i hcall
        cases hr
        obtain ⟨hentries, hgroup, -⟩ := hfits.of_reduceGroup hgroup
        have hlength := spares_applyCall place frame operands
        rw [hcall] at hlength
        have hbases := hs.calls
        rw [← @callBases_dropWhile s.entries (!·.isParen) (by simp), ← hentries,
          hframes] at hbases
        have hbase := (List.cons.inj hbases).1
        dsimp only [Spares] at hlength hbase
        exact ⟨hgroup.below (Nat.le_of_lt (by rw [hlength, ← hbase]; exact Nat.lt_succ_self _))
          (measured_applyCall hgroup.measured hcall), fun _ _ _ => by dsimp only; omega⟩
  · rename_i entries operands hgroup
    obtain ⟨-, hgroup, -⟩ := hfits.of_reduceGroup hgroup
    split at hr
    · cases hr
    · cases hr
      exact ⟨hgroup.below hgroup.base_le hgroup.measured, fun _ _ _ => by dsimp only; omega⟩
    · cases hr
  · cases hr

theorem Operand.isMeasured_leaf {e : Expr} (h : e.height = 1) : (Operand.leaf e).IsMeasured :=
  ⟨h.symm, Nat.le_refl 1, show 1 ≤ maxHeight by decide⟩

/-- **One token** keeps the stacks fitting together. -/
theorem marked_step (h : s.Marked) (hs : s.Supplies place) (hr : step s l = .ok s') :
    s'.Marked := by
  obtain ⟨token, offset⟩ := l
  have hfits := h.fits
  unfold step at hr
  split at hr
  · dsimp only at hr
    cases token with
    | number v =>
      cases hr
      exact ⟨hfits.push (Operand.isMeasured_leaf (Expr.height.eq_1 v)),
        fun _ _ _ => Nat.succ_pos _⟩
    | name text =>
      cases hr
      exact ⟨hfits.push (Operand.isMeasured_leaf (Expr.height.eq_2 text)),
        fun _ _ _ => Nat.succ_pos _⟩
    | function f =>
      cases hr
      exact ⟨hfits, fun _ hpending => absurd hpending (Option.some_ne_none _)⟩
    | openParen =>
      cases hr
      exact marked_wait hfits rfl (by simp)
    | closeParen => exact marked_closeGroup h hs hr
    | comma =>
      rw [takeToken] at hr
      split at hr
      · rename_i hvalue
        split at hr
        · cases hr
        · rename_i hgroup
          cases hr
          obtain ⟨-, hgroup, hleft⟩ := hfits.of_reduceGroup hgroup
          exact ⟨hgroup, fun _ _ _ => hleft (hs.value hvalue)⟩
      · cases hr
    | operator op =>
      rw [takeToken] at hr
      split at hr
      · rename_i hvalue
        split at hr
        · cases hr
        · rename_i hfor
          cases hr
          obtain ⟨hfor, hleft⟩ := hfits.of_reduceFor hfor
          refine marked_wait hfor rfl ?_
          rintro _ _ _ ⟨⟩
          exact hleft (hs.value hvalue)
      · split at hr
        · cases hr
          exact marked_wait hfits rfl (by simp)
        · cases hr
  · split at hr
    · cases hr
      exact marked_wait hfits rfl (by simp)
    · cases hr

/-- **Any number of tokens.** -/
theorem marked_steps (h : s.Marked) (hs : s.Supplies place) (hls : ∀ l ∈ ls, l.offset ≠ place)
    (hr : steps s ls = .ok s') : s'.Marked ∧ s'.Supplies place := by
  induction ls generalizing s with
  | nil =>
    cases hr
    exact ⟨h, hs⟩
  | cons l ls ih =>
    obtain ⟨hl, hls⟩ := List.forall_mem_cons.1 hls
    have hsupplies := spares_step hs hl
    rw [steps] at hr
    split at hr
    · cases hr
    · rename_i hone
      rw [hone] at hsupplies
      exact ih (marked_step h hs hone) hsupplies hls hr

theorem exists_free_place (ls : List Lexeme) : ∃ place, ∀ l ∈ ls, l.offset ≠ place := by
  obtain ⟨place, hplace⟩ := Infinite.exists_notMem_finset (ls.map (·.offset)).toFinset
  refine ⟨place, ?_⟩
  rintro l hl rfl
  exact hplace (List.mem_toFinset.2 (List.mem_map_of_mem hl))

/-- The stacks after any tokens.  At a place where no token stands no operator wants an operand, so
that all that is known of the calls and of the last value holds. -/
theorem marked_of_steps (hr : steps State.start ls = .ok s) :
    s.Marked ∧ ∃ place, s.Supplies place := by
  obtain ⟨place, hplace⟩ := exists_free_place ls
  obtain ⟨hmarked, hsupplies⟩ := marked_steps marked_start (supplies_start place) hplace hr
  exact ⟨hmarked, place, hsupplies⟩

/-! ## No tokens -/

theorem ne_empty_of_isApplied {e : ParseError} (h : e.isApplied = true) : e ≠ .empty := by
  rintro rfl
  cases h

theorem closeGroup_ne_empty : closeGroup s offset ≠ .error .empty := by
  intro h
  unfold closeGroup at h
  split at h
  · cases h
  split at h
  · rename_i hgroup
    cases h
    exact ne_empty_of_isApplied (isApplied_reduceGroup hgroup) rfl
  · split at h
    · cases h
    · split at h
      · rename_i hcall
        cases h
        exact ne_empty_of_isApplied (isApplied_applyCall hcall) rfl
      · cases h
  · split at h <;> cases h
  · cases h

theorem step_ne_empty : step s l ≠ .error .empty := by
  obtain ⟨token, offset⟩ := l
  intro h
  unfold step at h
  split at h
  · dsimp only at h
    cases token with
    | number | name | function | openParen => cases h
    | closeParen => exact closeGroup_ne_empty h
    | comma =>
      rw [takeToken] at h
      split at h
      · split at h
        · rename_i hgroup
          cases h
          exact ne_empty_of_isApplied (isApplied_reduceGroup hgroup) rfl
        · cases h
      · cases h
    | operator op =>
      rw [takeToken] at h
      split at h
      · split at h
        · rename_i hfor
          cases h
          exact ne_empty_of_isApplied (isApplied_reduceFor hfor) rfl
        · cases h
      · split at h <;> cases h
  · split at h <;> cases h

theorem steps_ne_empty : steps s ls ≠ .error .empty := by
  induction ls generalizing s with
  | nil => exact nofun
  | cons l ls ih =>
    rw [steps]
    split
    · rename_i hone
      rintro ⟨⟩
      exact step_ne_empty hone
    · exact ih

/-- Where a token has been taken something is found at the end. -/
theorem previous_eq_none_of_finish (h : s.Marked) (hfinish : finish s = .error .empty) :
    s.previous = none := by
  unfold finish at hfinish
  split at hfinish
  · cases hfinish
  · rename_i hpending
    split at hfinish
    · rename_i hall
      cases hfinish
      rcases isApplied_reduceAll hall with happlied | ⟨opened, hopen, -⟩
      · exact absurd rfl (ne_empty_of_isApplied happlied)
      · cases hopen
    · rename_i hall
      have hfits := h.fits
      rw [← List.append_nil s.entries] at hfits
      have hleft := (hfits.of_reduceAll hall).2
      by_contra hprevious
      have hpos : 0 < s.entries.length + s.operands.length := by
        cases hentries : s.entries with
        | nil => exact Nat.add_pos_right _ (h.begun hprevious hpending hentries)
        | cons entry entries => exact Nat.add_pos_left (Nat.succ_pos _) _
      exact absurd (hleft hpos) (Nat.lt_irrefl 0)
    · cases hfinish
    · cases hfinish

/-- **Nothing is found only where there are no tokens.** -/
theorem parseTokens_eq_empty : parseTokens ls = .error .empty ↔ ls = [] := by
  constructor
  · intro h
    unfold parseTokens at h
    split at h
    · rename_i hsteps
      cases h
      exact absurd hsteps steps_ne_empty
    · rename_i s hsteps
      have hprevious := previous_eq_none_of_finish (marked_of_steps hsteps).1 h
      have hrecords := follows_steps records_start ls
      rw [hsteps] at hrecords
      rw [hrecords.previous, List.nil_append, Option.map_eq_none_iff,
        List.getLast?_eq_none_iff] at hprevious
      exact hprevious
  · rintro rfl
    rfl

end

end GlyphMath.Formula
