/-
  Proofs/Excess: where a formula nests too deeply.

  The look over a text counts parentheses.  The first one that makes the count too great is at
  the limit exactly, since each adds one (`excess?_eq_some`), and in a formula the count is the
  number of expressions that stand around the parenthesis (`openings_of_tree`).  So the look
  refuses a formula if its expressions nest more levels than allowed, and points just past the
  parenthesis that opens the first level too many (`check_levels`).
-/
import MetricFormula.Proofs.Grammar.Enclosure
import MetricFormula.Proofs.Grammar.Sound
import MetricFormula.Proofs.Nesting
import Mathlib.Order.Bounds.Basic

set_option autoImplicit false

namespace MetricFormula.Nesting

open MetricFormula.Grammar MetricFormula.Text

variable {limit depth offset place : Nat} {cs : List Char}

/-! ## Parentheses among characters -/

/-- The opening parentheses of a text from an offset on, where `depth` of them are open
already.  The expression outside of all parentheses stands around each of them as well. -/
def openings : (depth offset : Nat) → List Char → List Parenthesis
  | _, _, [] => []
  | depth, offset, c :: cs =>
      if c = '(' then ⟨offset, depth + 1⟩ :: openings (depth + 1) (offset + c.utf8Size) cs
      else if c = ')' then openings (depth - 1) (offset + c.utf8Size) cs
      else openings depth (offset + c.utf8Size) cs

theorem le_of_mem_openings {o : Parenthesis} (h : o ∈ openings depth offset cs) :
    offset ≤ o.place := by
  induction cs generalizing depth offset with
  | nil => simp [openings] at h
  | cons c cs ih =>
      have hstep : ∀ {depth' : Nat}, o ∈ openings depth' (offset + c.utf8Size) cs →
          offset ≤ o.place := fun h => Nat.le_trans (Nat.le_add_right _ _) (ih h)
      rw [openings] at h
      split at h
      · rcases List.mem_cons.mp h with rfl | h
        · exact Nat.le_refl _
        · exact hstep h
      · split at h
        · exact hstep h
        · exact hstep h

/-- The parenthesis at which there are too many is the first with as many expressions around
it as the limit allows levels. -/
theorem excess?_eq_some {position : Nat} (hdepth : depth < limit)
    (h : excess? limit depth offset cs = some position) :
    ∃ place, position = place + 1 ∧ ⟨place, limit⟩ ∈ openings depth offset cs ∧
      ∀ o ∈ openings depth offset cs, limit ≤ o.enclosing → place ≤ o.place := by
  induction cs generalizing depth offset with
  | nil => simp [excess?] at h
  | cons c cs ih =>
      rw [excess?] at h
      rw [openings]
      by_cases hopen : c = '('
      · rw [if_pos hopen] at h ⊢
        by_cases hlimit : limit ≤ depth + 1
        · have heq : depth + 1 = limit := by omega
          rw [if_pos hlimit] at h
          refine ⟨offset, (Option.some.inj h).symm, ?_, ?_⟩
          · rw [heq]
            exact List.mem_cons_self
          · intro o ho _
            rcases List.mem_cons.mp ho with rfl | ho
            · exact Nat.le_refl _
            · exact Nat.le_trans (Nat.le_add_right _ _) (le_of_mem_openings ho)
        · rw [if_neg hlimit] at h
          obtain ⟨place, hposition, hmem, hfirst⟩ := ih (by omega) h
          refine ⟨place, hposition, List.mem_cons_of_mem _ hmem, ?_⟩
          intro o ho hle
          rcases List.mem_cons.mp ho with rfl | ho
          · exact absurd hle hlimit
          · exact hfirst o ho hle
      · rw [if_neg hopen] at h ⊢
        by_cases hclose : c = ')'
        · rw [if_pos hclose] at h ⊢
          exact ih (by omega) h
        · rw [if_neg hclose] at h ⊢
          exact ih hdepth h

/-- There is an opening parenthesis wherever the text has that character. -/
theorem exists_mem_openings_iff :
    (∃ enclosing, ⟨place, enclosing⟩ ∈ openings depth offset cs) ↔
      offset ≤ place ∧ charAt? cs (place - offset) = some '(' := by
  induction cs generalizing depth offset with
  | nil => simp [openings, charAt?]
  | cons c cs ih =>
      -- Beyond its first character the text is the rest, at a greater offset.
      have hrest : ∀ n : Nat, offset ≠ place →
          ((∃ enclosing, ⟨place, enclosing⟩ ∈ openings n (offset + c.utf8Size) cs) ↔
            offset ≤ place ∧ charAt? (c :: cs) (place - offset) = some '(') := by
        intro n hne
        rw [ih]
        by_cases hle : offset + c.utf8Size ≤ place
        · rw [charAt?, if_neg (by omega), if_neg (by omega), Nat.sub_add_eq]
          exact and_congr_left' (iff_of_true hle (by omega))
        · refine iff_of_false (fun h => hle h.1) ?_
          rintro ⟨hle', hchar⟩
          rw [charAt?, if_neg (by omega), if_pos (by omega)] at hchar
          simp at hchar
      by_cases heq : offset = place
      · subst heq
        have hnot : ∀ {depth' enclosing : Nat},
            ⟨offset, enclosing⟩ ∉ openings depth' (offset + c.utf8Size) cs := by
          intro depth' enclosing hmem
          have hle := le_of_mem_openings hmem
          have hpos := c.utf8Size_pos
          dsimp only at hle
          omega
        rw [openings, Nat.sub_self, charAt?_zero]
        by_cases hopen : c = '('
        · simp [hopen]
        · rw [if_neg hopen]
          split
          · simp [hnot, hopen]
          · simp [hnot, hopen]
      · rw [openings]
        split
        · rw [← hrest (depth + 1) heq]
          simp [Ne.symm heq]
        · split
          · exact hrest (depth - 1) heq
          · exact hrest depth heq

/-! ## From characters to tokens -/

/-- Text without parentheses is passed over. -/
theorem openings_append {rest : List Char} (h : ∀ c ∈ cs, c ≠ '(' ∧ c ≠ ')') (offset : Nat) :
    openings depth offset (cs ++ rest) = openings depth (offset + byteLength cs) rest := by
  induction cs generalizing offset with
  | nil => rfl
  | cons c cs ih =>
      obtain ⟨hopen, hclose⟩ := h c List.mem_cons_self
      rw [List.cons_append, openings, if_neg hopen, if_neg hclose,
        ih fun d hd => h d (List.mem_cons_of_mem c hd), byteLength_cons, Nat.add_assoc]

/-- The parentheses of a text are those among its tokens. -/
theorem openings_eq {c : Cursor} {ps : List PlacedToken} (h : CutAt c ps) :
    openings depth c.offset c.rest = Grammar.openings depth ps := by
  induction h generalizing depth with
  | nil hrest =>
      rw [hrest]
      rfl
  | @gap c d cs ps hrest hgap _ ih =>
      have hd : ∀ e ∈ [d], e ≠ '(' ∧ e ≠ ')' := by
        intro e he
        obtain rfl := List.mem_singleton.mp he
        constructor <;> rintro rfl <;> simp [Scan.isGap] at hgap
      rw [hrest, ← List.singleton_append, openings_append hd]
      exact ih
  | @token c rest t ps hm _ ih =>
      rw [← hm.append]
      by_cases hsymbol : ∃ d, t = .symbol d
      · obtain ⟨d, rfl⟩ := hsymbol
        rw [Token.text, List.singleton_append, openings, Grammar.openings]
        simp only [Token.symbol.injEq]
        by_cases hopen : d = '('
        · rw [if_pos hopen, if_pos hopen]
          exact congrArg _ ih
        · rw [if_neg hopen, if_neg hopen]
          by_cases hclose : d = ')'
          · rw [if_pos hclose, if_pos hclose]
            exact ih
          · rw [if_neg hclose, if_neg hclose]
            exact ih
      · have hplain : ∀ d, t ≠ .symbol d := fun d hd => hsymbol ⟨d, hd⟩
        rw [openings_append (not_parenthesis_of_mem hm.valid hplain),
          openings_cons (hplain '(') (hplain ')')]
        exact ih

end MetricFormula.Nesting

namespace MetricFormula

open MetricFormula.Grammar

/-! ## Formulas -/

/-- An opening parenthesis of a text opens a level of its parse tree: one more than there are
expressions around it. -/
structure OpensLevel (source : String) (t : ExpressionTree) (level place : Nat) : Prop where
  opening : Text.charAt? source.toList place = some '('
  level_eq : level = t.enclosing place + 1

/-- Around each opening parenthesis of a formula stand as many expressions as the count says. -/
theorem openings_of_tree {source : String} {t : ExpressionTree} (h : tree source = .ok t) :
    ∀ o ∈ Nesting.openings 0 0 source.toList, o.enclosing = t.enclosing o.place := by
  obtain ⟨ps, n, m, hcut, hstands⟩ := tree_stands h
  obtain ⟨os, heq, hos⟩ := hstands.encloses.openings 0
  have htokens : Nesting.openings 0 0 source.toList = Grammar.openings 0 ps :=
    Nesting.openings_eq hcut
  rw [htokens, heq]
  intro o ho
  rw [(hos o (by simpa [Grammar.openings] using ho)).2.2, Nat.zero_add]
  rfl

theorem mem_openings_of_opensLevel {source : String} {t : ExpressionTree} {level place : Nat}
    (h : tree source = .ok t) (hopens : OpensLevel source t (level + 1) place) :
    ⟨place, level⟩ ∈ Nesting.openings 0 0 source.toList := by
  obtain ⟨enclosing, hmem⟩ :=
    Nesting.exists_mem_openings_iff.mpr ⟨Nat.zero_le place, hopens.opening⟩
  have henclosing := openings_of_tree h _ hmem
  have hlevel := hopens.level_eq
  dsimp only at henclosing
  rwa [show level = enclosing by omega]

theorem opensLevel_of_mem_openings {source : String} {t : ExpressionTree} {level place : Nat}
    (h : tree source = .ok t) (hmem : ⟨place, level⟩ ∈ Nesting.openings 0 0 source.toList) :
    OpensLevel source t (level + 1) place where
  opening := (Nesting.exists_mem_openings_iff.mp ⟨level, hmem⟩).2
  level_eq := congrArg (· + 1) (openings_of_tree h _ hmem)

/-- The look over the parentheses refuses a formula exactly if its expressions nest more levels
than allowed, and then points just past the first parenthesis that opens the level after the
last one that is allowed. -/
theorem check_levels {maxDepth : Nat} {source : String} {t : ExpressionTree}
    (hpos : 1 ≤ maxDepth) (ht : tree source = .ok t) :
    ((∃ e, Nesting.check maxDepth source = .error e) ↔ maxDepth < t.levels) ∧
      ∀ e, Nesting.check maxDepth source = .error e →
        ∃ place, e = .malformed (place + 1) (.tooDeep maxDepth) ∧
          IsLeast {p | OpensLevel source t (maxDepth + 1) p} place := by
  constructor
  · obtain ⟨ts, hcut, hsentence⟩ := tree_sound ht
    have hok : Nesting.check maxDepth source = .ok () ↔ _ :=
      Nesting.check_eq_ok_iff hcut hsentence
    rw [t.levels_eq]
    cases hcheck : Nesting.check maxDepth source with
    | ok u =>
        have hdepth := hok.mp hcheck
        exact iff_of_false (by simp) (by omega)
    | error e =>
        rw [hcheck] at hok
        have hdepth := mt hok.mpr (by simp)
        exact iff_of_true ⟨e, rfl⟩ (by omega)
  · intro e he
    unfold Nesting.check at he
    split at he
    · rename_i position hposition
      obtain ⟨place, rfl, hmem, hfirst⟩ := Nesting.excess?_eq_some hpos hposition
      refine ⟨place, (Except.error.inj he).symm, opensLevel_of_mem_openings ht hmem, ?_⟩
      intro p hp
      exact hfirst _ (mem_openings_of_opensLevel ht hp) (Nat.le_refl _)
    · simp at he

/-- The group in the call is one level too deep, the group before the call is not. -/
theorem check_levels_groupInCall :
    1 ≤ 2 ∧ ∃ t, tree "(a) + f(b, (c))" = .ok t ∧ 2 < t.levels ∧
      Nesting.check 2 "(a) + f(b, (c))" = .error (.malformed 12 (.tooDeep 2)) ∧
      IsLeast {p | OpensLevel "(a) + f(b, (c))" t 3 p} 11 := by
  have hcheck : Nesting.check 2 "(a) + f(b, (c))" = .error (.malformed 12 (.tooDeep 2)) := by
    decide +kernel
  have htree : (tree "(a) + f(b, (c))").isOk = true := by decide +kernel
  cases ht : tree "(a) + f(b, (c))" with
  | error frontier => simp [ht, Except.isOk, Except.toBool] at htree
  | ok t =>
      obtain ⟨hlevels, hplace⟩ := check_levels (by decide : 1 ≤ 2) ht
      obtain ⟨place, heq, hleast⟩ := hplace _ hcheck
      obtain rfl : place = 11 := by simpa using heq
      exact ⟨by decide, t, rfl, hlevels.mp ⟨_, hcheck⟩, hcheck, hleast⟩

end MetricFormula
