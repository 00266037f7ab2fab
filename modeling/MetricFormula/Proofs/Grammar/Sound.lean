/-
  Proofs/Grammar/Sound: what the matchers read is a phrase of the grammar, and stands where
  the tree says.

  A reading cuts its stretch of the text into tokens, and the tree stands at them whatever
  tokens follow, unless an opening parenthesis would turn a name into a call
  (`ExpressionAt.stands`).  So the tokens of a text that is read as a whole are those of its
  parse tree (`tree_stands`).
-/
import MetricFormula.Proofs.Grammar.Reading

set_option autoImplicit false

namespace MetricFormula.Grammar

open Text

/-! ## Words -/

section Words

variable {c c' : Cursor} {t : Token} {d : Char} {l : Lexeme}

namespace TokenAt

theorem cutTo (h : TokenAt c t c') : CutTo c [⟨t, ⟨c.offset, c'.offset⟩⟩] c' := by
  obtain ⟨rest, hm, rfl⟩ := h
  exact .token hm .nil

theorem between (h : TokenAt c t c') : c.Between t.text c' := by
  obtain ⟨rest, hm, rfl⟩ := h
  exact .past hm.append.symm

theorem offset_lt (h : TokenAt c t c') : c.offset < c'.offset := by
  obtain ⟨rest, hm, rfl⟩ := h
  exact Nat.lt_add_of_pos_right hm.byteLength_pos

theorem valid (h : TokenAt c t c') : t.Valid := by
  obtain ⟨rest, hm, rfl⟩ := h
  exact hm.valid

theorem symbol_offset (h : TokenAt c (.symbol d) c') : c'.offset = c.offset + 1 := by
  obtain ⟨rest, hm, rfl⟩ := h
  exact congrArg (c.offset + ·) (utf8Size_of_mem_symbols d hm.valid)

theorem symbol_cutTo (h : TokenAt c (.symbol d) c') : CutTo c [.symbol d c.offset] c' := by
  have hcut := h.cutTo
  rwa [h.symbol_offset] at hcut

theorem name_cutTo (h : TokenAt c (.name l.text.toList) c')
    (hspan : l.span = ⟨c.offset, c'.offset⟩) : CutTo c [.name l] c' := by
  have hcut := h.cutTo
  rwa [← hspan] at hcut

theorem literal_cutTo (h : TokenAt c (.literal l.text.toList) c')
    (hspan : l.span = ⟨c.offset, c'.offset⟩) : CutTo c [.literal l] c' := by
  have hcut := h.cutTo
  rwa [← hspan] at hcut

end TokenAt

theorem Cursor.offset_le_beyond {α : Type} (c : Cursor) (parts : List α) :
    c.offset ≤ (c.beyond parts).offset := by
  cases parts with
  | nil => exact c.offset_le_afterGap
  | cons _ _ => exact Nat.le_refl _

theorem CutTo.beyond {α : Type} {ps : List PlacedToken} (h : CutTo c ps c') (parts : List α) :
    CutTo c ps (c'.beyond parts) := by
  cases parts with
  | nil =>
      have hgap := h.trans (.afterGap c')
      rwa [List.append_nil] at hgap
  | cons _ _ => exact h

end Words

/-! ## Readings at their tokens -/

/-- No opening parenthesis is next. -/
def NotOpening (qs : List PlacedToken) : Prop :=
  (qs.map PlacedToken.token).head? ≠ some (.symbol '(')

theorem notOpening_symbol {d : Char} {n : Nat} {qs : List PlacedToken} (h : d ≠ '(') :
    NotOpening (.symbol d n :: qs) := by
  intro hhead
  exact h (by simpa [PlacedToken.symbol] using hhead)

mutual

/-- The tokens of an expression that is read. -/
theorem ExpressionAt.stands : ∀ {t : ExpressionTree} {c c' : Cursor}, ExpressionAt c t c' →
    ∃ ps, CutTo c ps c' ∧
      ∀ qs, NotOpening qs → ExpressionStands c.offset (ps ++ qs) t c'.offset qs
  | .mk _ _ steps, _, _, .mk hfirst hsteps => by
      obtain ⟨ps, hps, hterm⟩ := hfirst.stands
      obtain ⟨rs, hrs, hrest⟩ := hsteps.stand
      refine ⟨ps ++ rs, (hps.trans hrs).beyond steps, fun qs hqs => ?_⟩
      obtain ⟨hnext, hstand⟩ := hrest qs hqs _ (Cursor.offset_le_beyond _ steps)
      rw [List.append_assoc]
      exact .mk (hterm _ hnext) hstand

theorem ExpressionStepsAt.stand : ∀ {steps : List ExpressionStep} {c c' : Cursor},
    ExpressionStepsAt c steps c' →
    ∃ ps, CutTo c ps c' ∧ ∀ qs, NotOpening qs → ∀ m, c'.offset ≤ m →
      NotOpening (ps ++ qs) ∧ ExpressionStepsStand c.offset (ps ++ qs) steps m qs
  | [], _, _, .nil => ⟨[], .nil, fun _ hqs _ hle => ⟨hqs, .nil hle⟩⟩
  | .mk operator _ _ :: _, c, _, .cons (d := d) hoperator hterm hsteps => by
      obtain ⟨ps, hps, hstands⟩ := hterm.stands
      obtain ⟨rs, hrs, hrest⟩ := hsteps.stand
      have hcut := ((CutTo.afterGap c).trans hoperator.symbol_cutTo).trans
        ((CutTo.afterGap d).trans hps)
      refine ⟨_, hcut.trans hrs, fun qs hqs m hle => ?_⟩
      obtain ⟨hnext, hstand⟩ := hrest qs hqs m hle
      have hlt := hoperator.offset_lt
      have hgap := d.offset_le_afterGap
      simp only [List.nil_append, List.cons_append, List.append_assoc]
      exact ⟨notOpening_symbol (by cases operator <;> decide),
        .cons c.offset_le_afterGap (by omega) (hstands _ hnext) hstand⟩

theorem TermAt.stands : ∀ {t : TermTree} {c c' : Cursor}, TermAt c t c' →
    ∃ ps, CutTo c ps c' ∧ ∀ qs, NotOpening qs → TermStands c.offset (ps ++ qs) t c'.offset qs
  | .mk _ _ steps, _, _, .mk hfirst hsteps => by
      obtain ⟨ps, hps, hfactor⟩ := hfirst.stands
      obtain ⟨rs, hrs, hrest⟩ := hsteps.stand
      refine ⟨ps ++ rs, (hps.trans hrs).beyond steps, fun qs hqs => ?_⟩
      obtain ⟨hnext, hstand⟩ := hrest qs hqs _ (Cursor.offset_le_beyond _ steps)
      rw [List.append_assoc]
      exact .mk (hfactor _ hnext) hstand

theorem TermStepsAt.stand : ∀ {steps : List TermStep} {c c' : Cursor},
    TermStepsAt c steps c' →
    ∃ ps, CutTo c ps c' ∧ ∀ qs, NotOpening qs → ∀ m, c'.offset ≤ m →
      NotOpening (ps ++ qs) ∧ TermStepsStand c.offset (ps ++ qs) steps m qs
  | [], _, _, .nil => ⟨[], .nil, fun _ hqs _ hle => ⟨hqs, .nil hle⟩⟩
  | .mk operator _ _ :: _, c, _, .cons (d := d) hoperator hfactor hsteps => by
      obtain ⟨ps, hps, hstands⟩ := hfactor.stands
      obtain ⟨rs, hrs, hrest⟩ := hsteps.stand
      have hcut := ((CutTo.afterGap c).trans hoperator.symbol_cutTo).trans
        ((CutTo.afterGap d).trans hps)
      refine ⟨_, hcut.trans hrs, fun qs hqs m hle => ?_⟩
      obtain ⟨hnext, hstand⟩ := hrest qs hqs m hle
      have hlt := hoperator.offset_lt
      have hgap := d.offset_le_afterGap
      simp only [List.nil_append, List.cons_append, List.append_assoc]
      exact ⟨notOpening_symbol (by cases operator <;> decide),
        .cons c.offset_le_afterGap (by omega) (hstands _ hnext) hstand⟩

theorem FactorAt.stands : ∀ {x : FactorTree} {c c' : Cursor}, FactorAt c x c' →
    ∃ ps, CutTo c ps c' ∧ ∀ qs, NotOpening qs → FactorStands c.offset (ps ++ qs) x c'.offset qs
  | .call _ _ _ _, _, _, .call (d := d) (e := e) (k := k) hname hspan hopen hfirst hothers
      hclose => by
      obtain ⟨ps, hps, hargument⟩ := hfirst.stands
      obtain ⟨rs, hrs, hrest⟩ := hothers.stand
      have hopening := (hname.name_cutTo hspan).trans ((CutTo.afterGap d).trans hopen.symbol_cutTo)
      have hinside := ((CutTo.afterGap e).trans hps).trans (hrs.trans (.afterGap k))
      refine ⟨_, hopening.trans (hinside.trans hclose.symbol_cutTo), fun qs _ => ?_⟩
      obtain ⟨hnext, hstand⟩ := hrest (.symbol ')' k.afterGap.offset :: qs)
        (notOpening_symbol (by decide)) _ (Nat.le_refl _)
      have hlt := hname.offset_lt
      have hgap := d.offset_le_afterGap
      have hlt' := hopen.offset_lt
      have hgap' := e.offset_le_afterGap
      rw [hclose.symbol_offset]
      simp only [List.nil_append, List.append_nil, List.cons_append, List.append_assoc]
      exact .call hspan hgap (by omega) (by omega) (hargument _ hnext) hstand
        k.offset_le_afterGap
  | .reference _ _, c, _, .reference (d := d) hname hspan =>
      ⟨_, (hname.name_cutTo hspan).trans (.afterGap d), fun _ hqs =>
        .reference hspan hname.offset_lt d.offset_le_afterGap hqs⟩
  | .constant _, _, _, .constant hliteral hspan =>
      ⟨_, hliteral.literal_cutTo hspan, fun _ _ =>
        .constant hliteral.valid hspan hliteral.offset_lt⟩
  | .group _, _, _, .group (d := d) (e := e) hopen hinner hclose => by
      obtain ⟨ps, hps, hstands⟩ := hinner.stands
      have hinside := ((CutTo.afterGap d).trans hps).trans (.afterGap e)
      refine ⟨_, hopen.symbol_cutTo.trans (hinside.trans hclose.symbol_cutTo), fun qs _ => ?_⟩
      have hlt := hopen.offset_lt
      have hgap := d.offset_le_afterGap
      rw [hclose.symbol_offset]
      simp only [List.nil_append, List.append_nil, List.cons_append, List.append_assoc]
      exact .group (by omega) (hstands _ (notOpening_symbol (by decide))) e.offset_le_afterGap

theorem ArgumentsAt.stand : ∀ {es : List ExpressionTree} {c c' : Cursor},
    ArgumentsAt c es c' →
    ∃ ps, CutTo c ps c' ∧ ∀ qs, NotOpening qs → ∀ m, c'.offset ≤ m →
      NotOpening (ps ++ qs) ∧ ArgumentsStand c.offset (ps ++ qs) es m qs
  | [], _, _, .nil => ⟨[], .nil, fun _ hqs _ hle => ⟨hqs, .nil hle⟩⟩
  | _ :: _, c, _, .cons (d := d) hcomma hargument hothers => by
      obtain ⟨ps, hps, hstands⟩ := hargument.stands
      obtain ⟨rs, hrs, hrest⟩ := hothers.stand
      have hcut := ((CutTo.afterGap c).trans hcomma.symbol_cutTo).trans
        ((CutTo.afterGap d).trans hps)
      refine ⟨_, hcut.trans hrs, fun qs hqs m hle => ?_⟩
      obtain ⟨hnext, hstand⟩ := hrest qs hqs m hle
      have hlt := hcomma.offset_lt
      have hgap := d.offset_le_afterGap
      simp only [List.nil_append, List.cons_append, List.append_assoc]
      exact ⟨notOpening_symbol (by decide),
        .cons c.offset_le_afterGap (by omega) (hstands _ hnext) hstand⟩

end

/-! ## Texts -/

/-- The tokens of a text that is read as a whole are those of its parse tree, and stand
where the tree says. -/
theorem tree_stands {source : String} {t : ExpressionTree} (h : tree source = .ok t) :
    ∃ ps n m, CutAt (Cursor.ofString source) ps ∧ ExpressionStands n ps t m [] := by
  obtain ⟨d, hread, hend⟩ := tree_at h
  obtain ⟨ps, hps, hstands⟩ := hread.stands
  have hcut := ((CutTo.afterGap (Cursor.ofString source)).trans hps).trans (.afterGap d)
  have hstand := hstands [] (by simp [NotOpening])
  refine ⟨ps, _, _, ?_, by simpa using hstand⟩
  simpa using hcut.cutAt (.nil hend)

/-- A text that is read as a whole is a sentence of the grammar. -/
theorem tree_sound {source : String} {t : ExpressionTree} (h : tree source = .ok t) :
    ∃ ts, Cut source.toList ts ∧ IsExpression ts t.phrase [] := by
  obtain ⟨ps, n, m, hcut, hstands⟩ := tree_stands h
  exact ⟨_, hcut.cut, hstands.phrase⟩

end MetricFormula.Grammar
