/-
  Proofs/Substitution: a formula in place of a variable.

  A group has the value that is looked up for a variable, so putting groups in for variables
  changes a formula's value as binding the variables to the values of the groups does
  (`ExpressionPhrase.value?_substitute`).  A group without a value leaves its variable unbound,
  and then the whole has none.

  For texts this is evaluating a formula with another one in parentheses in place of a
  variable (`evaluate_substitute`).  Only the nesting has to be asked for, since it grows.
-/
import MetricFormula.Proofs.Bindings
import MetricFormula.Proofs.Grammar.Substitution
import MetricFormula.Proofs.Localisation
import Mathlib.Logic.Function.Basic

set_option autoImplicit false

namespace MetricFormula

open MetricFormula.Grammar

/-! ## Depth -/

namespace Grammar

section Depth

variable {put : List Char → FactorPhrase}

mutual

/-- Putting factors in takes no nesting away. -/
theorem ExpressionPhrase.depth_le_substitute : ∀ e : ExpressionPhrase,
    e.depth ≤ (e.substitute put).depth
  | .mk first steps => by
      have hfirst := first.depth_le_substitute
      have hsteps := ExpressionPhrase.depth_le_substituteSteps steps
      rw [ExpressionPhrase.substitute, ExpressionPhrase.depth, ExpressionPhrase.depth]
      omega

theorem ExpressionPhrase.depth_le_substituteSteps : ∀ steps : List ExpressionPhraseStep,
    ExpressionPhrase.stepsDepth steps ≤
      ExpressionPhrase.stepsDepth (ExpressionPhrase.substituteSteps put steps)
  | [] => Nat.le_refl _
  | .mk operator term :: steps => by
      have hterm := term.depth_le_substitute
      have hsteps := ExpressionPhrase.depth_le_substituteSteps steps
      rw [ExpressionPhrase.substituteSteps, ExpressionPhrase.stepsDepth,
        ExpressionPhrase.stepsDepth]
      omega

theorem TermPhrase.depth_le_substitute : ∀ t : TermPhrase, t.depth ≤ (t.substitute put).depth
  | .mk first steps => by
      have hfirst := first.depth_le_substitute
      have hsteps := TermPhrase.depth_le_substituteSteps steps
      rw [TermPhrase.substitute, TermPhrase.depth, TermPhrase.depth]
      omega

theorem TermPhrase.depth_le_substituteSteps : ∀ steps : List TermPhraseStep,
    TermPhrase.stepsDepth steps ≤ TermPhrase.stepsDepth (TermPhrase.substituteSteps put steps)
  | [] => Nat.le_refl _
  | .mk operator factor :: steps => by
      have hfactor := factor.depth_le_substitute
      have hsteps := TermPhrase.depth_le_substituteSteps steps
      rw [TermPhrase.substituteSteps, TermPhrase.stepsDepth, TermPhrase.stepsDepth]
      omega

theorem FactorPhrase.depth_le_substitute : ∀ x : FactorPhrase, x.depth ≤ (x.substitute put).depth
  | .call function first others => by
      have hfirst := first.depth_le_substitute
      have hothers := ExpressionPhrase.depths_le_substitute others
      rw [FactorPhrase.substitute, FactorPhrase.depth, FactorPhrase.depth]
      omega
  | .reference _ => Nat.zero_le _
  | .constant _ => Nat.le_refl _
  | .group inner => Nat.succ_le_succ inner.depth_le_substitute

theorem ExpressionPhrase.depths_le_substitute : ∀ es : List ExpressionPhrase,
    ExpressionPhrase.depths es ≤
      ExpressionPhrase.depths (ExpressionPhrase.substituteArguments put es)
  | [] => Nat.le_refl _
  | e :: es => by
      have he := e.depth_le_substitute
      have hes := ExpressionPhrase.depths_le_substitute es
      rw [ExpressionPhrase.substituteArguments, ExpressionPhrase.depths, ExpressionPhrase.depths]
      omega

end

mutual

/-- What is put in for a reference nests no deeper than the whole. -/
theorem ExpressionTree.depth_put_le {l : Lexeme} : ∀ {t : ExpressionTree}, l ∈ t.references →
    (put l.text.toList).depth ≤ (t.phrase.substitute put).depth
  | .mk _ first steps, h => by
      rw [ExpressionTree.phrase, ExpressionPhrase.substitute, ExpressionPhrase.depth]
      rcases List.mem_append.mp h with h | h
      · exact Nat.le_trans (first.depth_put_le h) (Nat.le_max_left _ _)
      · exact Nat.le_trans (ExpressionTree.depth_put_le_steps h) (Nat.le_max_right _ _)

theorem ExpressionTree.depth_put_le_steps {l : Lexeme} : ∀ {steps : List ExpressionStep},
    l ∈ ExpressionTree.stepReferences steps →
    (put l.text.toList).depth ≤ ExpressionPhrase.stepsDepth
      (ExpressionPhrase.substituteSteps put (ExpressionTree.stepPhrases steps))
  | .mk _ _ term :: steps, h => by
      rw [ExpressionTree.stepPhrases, ExpressionPhrase.substituteSteps,
        ExpressionPhrase.stepsDepth]
      rcases List.mem_append.mp h with h | h
      · exact Nat.le_trans (term.depth_put_le h) (Nat.le_max_left _ _)
      · exact Nat.le_trans (ExpressionTree.depth_put_le_steps h) (Nat.le_max_right _ _)

theorem TermTree.depth_put_le {l : Lexeme} : ∀ {t : TermTree}, l ∈ t.references →
    (put l.text.toList).depth ≤ (t.phrase.substitute put).depth
  | .mk _ first steps, h => by
      rw [TermTree.phrase, TermPhrase.substitute, TermPhrase.depth]
      rcases List.mem_append.mp h with h | h
      · exact Nat.le_trans (first.depth_put_le h) (Nat.le_max_left _ _)
      · exact Nat.le_trans (TermTree.depth_put_le_steps h) (Nat.le_max_right _ _)

theorem TermTree.depth_put_le_steps {l : Lexeme} : ∀ {steps : List TermStep},
    l ∈ TermTree.stepReferences steps →
    (put l.text.toList).depth ≤
      TermPhrase.stepsDepth (TermPhrase.substituteSteps put (TermTree.stepPhrases steps))
  | .mk _ _ factor :: steps, h => by
      rw [TermTree.stepPhrases, TermPhrase.substituteSteps, TermPhrase.stepsDepth]
      rcases List.mem_append.mp h with h | h
      · exact Nat.le_trans (factor.depth_put_le h) (Nat.le_max_left _ _)
      · exact Nat.le_trans (TermTree.depth_put_le_steps h) (Nat.le_max_right _ _)

theorem FactorTree.depth_put_le {l : Lexeme} : ∀ {x : FactorTree}, l ∈ x.references →
    (put l.text.toList).depth ≤ (x.phrase.substitute put).depth
  | .call _ _ first others, h => by
      rw [FactorTree.phrase, FactorPhrase.substitute, FactorPhrase.depth]
      refine Nat.le_succ_of_le ?_
      rcases List.mem_append.mp h with h | h
      · exact Nat.le_trans (first.depth_put_le h) (Nat.le_max_left _ _)
      · exact Nat.le_trans (ExpressionTree.depth_put_le_arguments h) (Nat.le_max_right _ _)
  | .reference _ _, h => by
      obtain rfl := List.mem_singleton.mp h
      exact Nat.le_refl _
  | .group inner, h => Nat.le_succ_of_le (inner.depth_put_le h)

theorem ExpressionTree.depth_put_le_arguments {l : Lexeme} : ∀ {es : List ExpressionTree},
    l ∈ ExpressionTree.argumentReferences es →
    (put l.text.toList).depth ≤ ExpressionPhrase.depths
      (ExpressionPhrase.substituteArguments put (ExpressionTree.phrases es))
  | e :: es, h => by
      rw [ExpressionTree.phrases, ExpressionPhrase.substituteArguments, ExpressionPhrase.depths]
      rcases List.mem_append.mp h with h | h
      · exact Nat.le_trans (e.depth_put_le h) (Nat.le_max_left _ _)
      · exact Nat.le_trans (ExpressionTree.depth_put_le_arguments h) (Nat.le_max_right _ _)

end

end Depth

end Grammar

/-! ## Values -/

section Values

variable {σ : Type} [Series σ] (put : List Char → FactorPhrase) (bindings : Bindings σ)

/-- Every variable is bound to the value of what is put in for it. -/
def putBindings : Bindings σ := fun name => (put name.toList).factor.value? bindings

mutual

/-- Putting factors in for variables is binding the variables to the values of the factors. -/
theorem Grammar.ExpressionPhrase.value?_substitute : ∀ e : ExpressionPhrase,
    (e.substitute put).sum.value? bindings = e.sum.value? (putBindings put bindings)
  | .mk first steps => by
      rw [ExpressionPhrase.substitute, ExpressionPhrase.sum, ExpressionPhrase.sum, Sum.value?,
        Sum.value?, Product.values?, Product.values?, first.value?_substitute,
        ExpressionPhrase.values?_added steps, ExpressionPhrase.values?_subtracted steps]

theorem Grammar.ExpressionPhrase.values?_added : ∀ steps : List ExpressionPhraseStep,
    Product.values? bindings
        (ExpressionPhrase.added (ExpressionPhrase.substituteSteps put steps)) =
      Product.values? (putBindings put bindings) (ExpressionPhrase.added steps)
  | [] => rfl
  | .mk .plus term :: steps => by
      rw [ExpressionPhrase.substituteSteps, ExpressionPhrase.added, ExpressionPhrase.added,
        Product.values?, Product.values?, term.value?_substitute,
        ExpressionPhrase.values?_added steps]
  | .mk .minus _ :: steps => ExpressionPhrase.values?_added steps

theorem Grammar.ExpressionPhrase.values?_subtracted : ∀ steps : List ExpressionPhraseStep,
    Product.values? bindings
        (ExpressionPhrase.subtracted (ExpressionPhrase.substituteSteps put steps)) =
      Product.values? (putBindings put bindings) (ExpressionPhrase.subtracted steps)
  | [] => rfl
  | .mk .plus _ :: steps => ExpressionPhrase.values?_subtracted steps
  | .mk .minus term :: steps => by
      rw [ExpressionPhrase.substituteSteps, ExpressionPhrase.subtracted,
        ExpressionPhrase.subtracted, Product.values?, Product.values?, term.value?_substitute,
        ExpressionPhrase.values?_subtracted steps]

theorem Grammar.TermPhrase.value?_substitute : ∀ t : TermPhrase,
    (t.substitute put).product.value? bindings = t.product.value? (putBindings put bindings)
  | .mk first steps => by
      rw [TermPhrase.substitute, TermPhrase.product, TermPhrase.product, Product.value?,
        Product.value?, Factor.values?, Factor.values?, first.value?_substitute,
        TermPhrase.values?_multiplied steps, TermPhrase.values?_divided steps]

theorem Grammar.TermPhrase.values?_multiplied : ∀ steps : List TermPhraseStep,
    Factor.values? bindings (TermPhrase.multiplied (TermPhrase.substituteSteps put steps)) =
      Factor.values? (putBindings put bindings) (TermPhrase.multiplied steps)
  | [] => rfl
  | .mk .times factor :: steps => by
      rw [TermPhrase.substituteSteps, TermPhrase.multiplied, TermPhrase.multiplied,
        Factor.values?, Factor.values?, factor.value?_substitute,
        TermPhrase.values?_multiplied steps]
  | .mk .dividedBy _ :: steps => TermPhrase.values?_multiplied steps

theorem Grammar.TermPhrase.values?_divided : ∀ steps : List TermPhraseStep,
    Factor.values? bindings (TermPhrase.divided (TermPhrase.substituteSteps put steps)) =
      Factor.values? (putBindings put bindings) (TermPhrase.divided steps)
  | [] => rfl
  | .mk .times _ :: steps => TermPhrase.values?_divided steps
  | .mk .dividedBy factor :: steps => by
      rw [TermPhrase.substituteSteps, TermPhrase.divided, TermPhrase.divided, Factor.values?,
        Factor.values?, factor.value?_substitute, TermPhrase.values?_divided steps]

/-- A call has no value, whatever its arguments. -/
theorem Grammar.FactorPhrase.value?_substitute : ∀ x : FactorPhrase,
    (x.substitute put).factor.value? bindings = x.factor.value? (putBindings put bindings)
  | .call _ _ _ => rfl
  | .reference word => by
      rw [FactorPhrase.substitute, FactorPhrase.factor.eq_def (.reference word), Factor.value?,
        putBindings, String.toList_ofList]
  | .constant _ => rfl
  | .group inner => inner.value?_substitute

end

end Values

/-- Putting a group in for a variable binds it to the value of the group. -/
theorem putBindings_putGroup {σ : Type} [Series σ] (bindings : Bindings σ) (x : String)
    (g : ExpressionPhrase) :
    putBindings (putGroup x.toList g) bindings =
      Function.update bindings x (g.sum.value? bindings) := by
  funext name
  unfold putBindings putGroup
  by_cases hname : name = x
  · rw [hname, if_pos rfl, Function.update_self]
    rfl
  · rw [if_neg fun h => hname (String.toList_inj.mp h), Function.update_of_ne hname,
      FactorPhrase.factor, Factor.value?, String.ofList_toList]

/-- A formula with a reference to an unbound variable has no value. -/
theorem value?_of_unbound {σ : Type} [Series σ] {bindings : Bindings σ} {t : ExpressionTree}
    {l : Lexeme} (hl : l ∈ t.references) (hunbound : bindings l.text = none) :
    t.phrase.sum.value? bindings = none := by
  rw [Option.eq_none_iff_forall_ne_some]
  intro v hv
  have hreports := Evaluation.walk_reports bindings t
  rw [Interpretation.walk_value.mpr hv] at hreports
  cases hreports with
  | value _ _ hbound =>
      have hsome := (hbound l hl).resolve_left List.not_mem_nil
      simp [hunbound] at hsome

/-! ## Texts -/

/-- Evaluating a formula with another one in parentheses in place of a variable is, if that one
has a value, evaluating it with the variable bound to the value.  If that one has none and the
variable occurs, it fails. -/
theorem evaluate_substitute {σ : Type} [Series σ] {p : Policy} {x f g : String}
    (hf : ∃ t, tree f = .ok t) (hg : ∃ u, tree g = .ok u)
    (hnesting : Nesting.check p.maxDepth (substitute x g f) = .ok ()) (bindings : Bindings σ) :
    (∀ v, p.evaluate g bindings = .ok v → ∀ r,
      p.evaluate (substitute x g f) bindings = .ok r ↔
        p.evaluate f (Function.update bindings x (some v)) = .ok r) ∧
      ∀ e, p.evaluate g bindings = .error e →
        (∃ ps, CutAt (Cursor.ofString f) ps ∧ ∃ l ∈ references ps, l.text = x) →
        ∃ e', p.evaluate (substitute x g f) bindings = .error e' := by
  obtain ⟨t, ht⟩ := hf
  obtain ⟨u, hu⟩ := hg
  obtain ⟨t', ht', hphrase⟩ := exists_tree_substitute (x := x) ht hu
  have hparse' := Interpretation.parse_eq_ok.mpr ⟨hnesting, ht'⟩
  have hparse : Interpretation.parse p.maxDepth f = .ok t := by
    refine Interpretation.parse_of_depth_le hparse' ht ?_
    rw [hphrase]
    exact t.phrase.depth_le_substitute
  have hvalue : t'.phrase.sum.value? bindings =
      t.phrase.sum.value? (Function.update bindings x (u.phrase.sum.value? bindings)) := by
    rw [hphrase, ExpressionPhrase.value?_substitute, putBindings_putGroup]
  refine ⟨fun v hv r => ?_, fun e he ⟨ps, hps, l, hl, hname⟩ => ?_⟩
  · have hparse_g : Interpretation.parse p.maxDepth g = .ok u := by
      rw [Policy.evaluate_eq, bind_eq_ok] at hv
      obtain ⟨u', hu', -⟩ := hv
      rwa [Except.ok.inj ((Interpretation.parse_eq_ok.mp hu').2.symm.trans hu)] at hu'
    rw [Policy.evaluate_of_parse hparse', Policy.evaluate_of_parse hparse, hvalue,
      (Policy.evaluate_of_parse hparse_g).mp hv]
  · obtain ⟨qs, hqs, -, hreferences⟩ := Interpretation.exists_cut_of_parse hparse
    obtain rfl := (hqs ps).mp hps
    rw [hreferences] at hl
    -- The group stands in the text, so it nests less deeply.
    have hdepth : u.phrase.depth ≤ t'.phrase.depth := by
      have hput : (putGroup x.toList u.phrase l.text.toList).depth ≤
          (t.phrase.substitute (putGroup x.toList u.phrase)).depth := t.depth_put_le hl
      rw [hname, putGroup, if_pos rfl, FactorPhrase.depth, ← hphrase] at hput
      exact Nat.le_of_succ_le hput
    have hparse_g := Interpretation.parse_of_depth_le hparse' hu hdepth
    have hnone : u.phrase.sum.value? bindings = none := by
      rw [Option.eq_none_iff_forall_ne_some]
      intro v hv
      rw [(Policy.evaluate_of_parse hparse_g).mpr hv] at he
      simp at he
    cases hresult : p.evaluate (substitute x g f) bindings with
    | error e' => exact ⟨e', rfl⟩
    | ok r =>
        rw [Policy.evaluate_of_parse hparse', hvalue, hnone] at hresult
        rw [value?_of_unbound hl (by rw [hname, Function.update_self])] at hresult
        simp at hresult

/-- A text that refers to the variable `e1` in a denominator and in a product, beside a
numeral that ends with these letters. -/
def reciprocal : String := "y/e1 - 1e1 *e1 "

theorem evaluate_substitute_reciprocal :
    substitute "e1" "x + y" reciprocal = "y/(x + y) - 1e1 *(x + y) " ∧
      (∃ v r, Policy.standard.evaluate "x + y" numberBindings = .ok v ∧
        Policy.standard.evaluate (substitute "e1" "x + y" reciprocal) numberBindings = .ok r ∧
        Policy.standard.evaluate reciprocal (Function.update numberBindings "e1" (some v)) =
          .ok r) ∧
      ∃ e, Policy.standard.evaluate (substitute "e1" "z" reciprocal) numberBindings = .error e := by
  have htext : substitute "e1" "x + y" reciprocal = "y/(x + y) - 1e1 *(x + y) " := by
    decide +kernel
  have hf : ∃ t, tree reciprocal = .ok t := exists_eq_ok (by decide +kernel)
  have hg : ∃ u, tree "x + y" = .ok u := exists_eq_ok (by decide +kernel)
  have hz : ∃ u, tree "z" = .ok u := exists_eq_ok (by decide +kernel)
  have hnesting : Nesting.check Policy.standard.maxDepth (substitute "e1" "x + y" reciprocal) =
      .ok () := by decide +kernel
  have hnesting' : Nesting.check Policy.standard.maxDepth (substitute "e1" "z" reciprocal) =
      .ok () := by decide +kernel
  obtain ⟨v, hv⟩ : ∃ v, Policy.standard.evaluate "x + y" numberBindings = .ok v :=
    exists_eq_ok (by decide +kernel)
  obtain ⟨r, hr⟩ : ∃ r, Policy.standard.evaluate (substitute "e1" "x + y" reciprocal)
      numberBindings = .ok r := exists_eq_ok (by decide +kernel)
  obtain ⟨e, he⟩ : ∃ e, Policy.standard.evaluate "z" numberBindings = .error e :=
    exists_eq_error (by decide +kernel)
  have hnames : (Interpretation.parse Policy.defaultMaxDepth reciprocal).map
      (fun t => t.references.map Lexeme.text) = .ok ["y", "e1", "e1"] := by decide +kernel
  obtain ⟨ps, hcut, hreferences⟩ := Interpretation.exists_cut_of_names hnames
  have hoccurs : ∃ l ∈ references ps, l.text = "e1" := by
    rw [← List.mem_map, hreferences]
    decide
  have hvalue := (evaluate_substitute hf hg hnesting numberBindings).1 v hv r
  have hfault := (evaluate_substitute hf hz hnesting' numberBindings).2 e he
  exact ⟨htext, ⟨v, r, hv, hr, hvalue.mp hr⟩, hfault ⟨ps, (hcut ps).mpr rfl, hoccurs⟩⟩

end MetricFormula
