/-
  Proofs/Interpretation/Evaluation: the part of a formula at which evaluation fails.

  Evaluation goes through a formula from left to right.  It comes to a literal or a call where
  they start, and to a term or an expression where they end (`reachedAt`), and the places of
  the tree say in which order (`ExpressionStands.reachedIn`).  It fails with a fault of the
  faulty part that it comes to first, and has a value if no part is faulty (`walk_finds`).
-/
import MetricFormula.Proofs.Interpretation.Faulty

set_option autoImplicit false

namespace MetricFormula

open MetricFormula.Grammar

variable {σ : Type} [Series σ]

namespace Evaluation

/-! ## The first faulty part -/

/-- The offset at which evaluation comes to a part: to an expression or a term where it ends,
and to a factor where it starts. -/
def reachedAt : Part → Nat
  | .expression t => t.span.stop
  | .term (.mk span _ _) => span.stop
  | .factor (.call span _ _ _) => span.start
  | .factor (.reference span _) => span.start
  | .factor (.constant literal) => literal.span.start
  | .factor (.group inner) => inner.span.start

/-- The faulty part, among some, that evaluation comes to first, and a fault of it. -/
structure IsFirstFaulty (bindings : Bindings σ) (ps : List Part) (p : Part) (e : Fault) :
    Prop where
  mem : p ∈ ps
  faulty : Faulty bindings p e
  first : ∀ q ∈ ps, ∀ e', Faulty bindings q e' → q = p ∨ reachedAt p < reachedAt q

/-- The outcome of a step that evaluates some parts: a value if none of them is faulty, and
otherwise a fault of the first one that is. -/
inductive Finds {α : Type} (bindings : Bindings σ) (ps : List Part) : Except Fault α → Prop
  | value {a : α} : (∀ p ∈ ps, ∀ e, ¬Faulty bindings p e) → Finds bindings ps (.ok a)
  | fault {p : Part} {e : Fault} : IsFirstFaulty bindings ps p e → Finds bindings ps (.error e)

namespace Finds

variable {α β : Type} {bindings : Bindings σ} {ps qs : List Part} {v : Except Fault α}

theorem nil (a : α) : Finds bindings [] (.ok a) := .value (by simp)

/-- The order in which the parts are listed does not matter. -/
theorem of_mem_iff (ps : List Part) (h : Finds bindings ps v) (hmem : ∀ p, p ∈ qs ↔ p ∈ ps) :
    Finds bindings qs v := by
  cases h with
  | value hnone => exact .value fun p hp => hnone p ((hmem p).mp hp)
  | fault hfirst =>
      exact .fault ⟨(hmem _).mpr hfirst.mem, hfirst.faulty,
        fun q hq => hfirst.first q ((hmem q).mp hq)⟩

/-- A single part, which fails with a fault of its own. -/
theorem singleton {p : Part} (hvalue : ∀ a, v = .ok a → ∀ e, ¬Faulty bindings p e)
    (herror : ∀ e, v = .error e → Faulty bindings p e) : Finds bindings [p] v := by
  cases v with
  | ok a => exact .value (List.forall_mem_singleton.mpr (hvalue a rfl))
  | error e =>
      refine .fault ⟨List.mem_singleton_self p, herror e rfl, fun q hq _ _ => ?_⟩
      exact Or.inl (List.mem_singleton.mp hq)

/-- Some parts, and others that evaluation comes to after all of those. -/
theorem bind {w : α → Except Fault β} (hv : Finds bindings ps v)
    (hlate : ∀ e, v = .error e → ∀ p ∈ ps, ∀ q ∈ qs, ∀ e', Faulty bindings q e' →
      reachedAt p < reachedAt q)
    (hw : ∀ a, v = .ok a → Finds bindings qs (w a)) : Finds bindings (ps ++ qs) (v >>= w) := by
  cases hv with
  | @value a hnone =>
      change Finds bindings (ps ++ qs) (w a)
      have hfinds := hw a rfl
      cases hresult : w a with
      | ok b =>
          rw [hresult] at hfinds
          cases hfinds with
          | value hnone' => exact .value (List.forall_mem_append.mpr ⟨hnone, hnone'⟩)
      | error e =>
          rw [hresult] at hfinds
          cases hfinds with
          | fault hfirst =>
              refine .fault ⟨List.mem_append_right ps hfirst.mem, hfirst.faulty, ?_⟩
              exact List.forall_mem_append.mpr
                ⟨fun q hq e' hfaulty => absurd hfaulty (hnone q hq e'), hfirst.first⟩
  | fault hfirst =>
      refine .fault ⟨List.mem_append_left qs hfirst.mem, hfirst.faulty, ?_⟩
      exact List.forall_mem_append.mpr
        ⟨hfirst.first, fun q hq e' hfaulty => Or.inr (hlate _ rfl _ hfirst.mem q hq e' hfaulty)⟩

/-- A result that is only rearranged. -/
theorem map (hv : Finds bindings ps v) (f : α → β) :
    Finds bindings ps (v >>= fun a => .ok (f a)) := by
  have h : Finds bindings (ps ++ []) (v >>= fun a => .ok (f a)) :=
    hv.bind (by simp) fun a _ => .nil (f a)
  rwa [List.append_nil] at h

end Finds

end Evaluation

/-! ## The order of the parts -/

section Order

omit [Series σ]

open Evaluation

/-- Evaluation comes to some parts at the offset `n` or after it, and before the offset `m`. -/
def ReachedIn (n m : Nat) (ps : List Part) : Prop := ∀ p ∈ ps, n ≤ reachedAt p ∧ reachedAt p < m

namespace ReachedIn

variable {k l n m : Nat} {p : Part} {ps qs : List Part}

theorem nil : ReachedIn n m [] := by simp [ReachedIn]

theorem cons (hp : n ≤ reachedAt p ∧ reachedAt p < m) (hps : ReachedIn n m ps) :
    ReachedIn n m (p :: ps) :=
  List.forall_mem_cons.mpr ⟨hp, hps⟩

theorem mono (h : ReachedIn k l ps) (hn : n ≤ k) (hm : l ≤ m) : ReachedIn n m ps := by
  intro p hp
  obtain ⟨hstart, hstop⟩ := h p hp
  exact ⟨Nat.le_trans hn hstart, Nat.lt_of_lt_of_le hstop hm⟩

/-- Parts before an offset, and parts after it. -/
theorem append (hps : ReachedIn n k ps) (hqs : ReachedIn k m qs) (hn : n ≤ k) (hm : k ≤ m) :
    ReachedIn n m (ps ++ qs) :=
  List.forall_mem_append.mpr ⟨hps.mono (Nat.le_refl n) hm, hqs.mono hn (Nat.le_refl m)⟩

theorem lt (hps : ReachedIn n k ps) (hqs : ReachedIn k m qs) :
    ∀ p ∈ ps, ∀ q ∈ qs, reachedAt p < reachedAt q :=
  fun p hp q hq => Nat.lt_of_lt_of_le (hps p hp).2 (hqs q hq).1

end ReachedIn

mutual

/-- Evaluation is through with an expression at its end. -/
theorem Grammar.ExpressionStands.reachedIn :
    ∀ {t : ExpressionTree} {n m : Nat} {ps qs : List PlacedToken},
      ExpressionStands n ps t m qs → ReachedIn n (m + 1) t.parts
  | .mk _ _ _, n, m, _, _, .mk hfirst hsteps => by
      have hlt := hfirst.lt
      have hle := hsteps.le
      have hself : n ≤ m ∧ m < m + 1 := by omega
      exact .cons hself (hfirst.reachedIn.append hsteps.reachedIn (by omega) (by omega))

theorem Grammar.ExpressionStepsStand.reachedIn :
    ∀ {steps : List ExpressionStep} {n m : Nat} {ps qs : List PlacedToken},
      ExpressionStepsStand n ps steps m qs →
      ReachedIn (n + 1) (m + 1) (ExpressionTree.stepParts steps)
  | [], _, _, _, _, .nil _ => .nil
  | .mk _ _ _ :: _, _, _, _, _, .cons hplace hstart hterm hsteps => by
      have hlt := hterm.lt
      have hle := hsteps.le
      have hparts := hterm.reachedIn.append hsteps.reachedIn (by omega) (by omega)
      exact hparts.mono (by omega) (Nat.le_refl _)

/-- Evaluation is through with the factors of a term before the end of the term. -/
theorem Grammar.TermStands.reachedIn :
    ∀ {t : TermTree} {n m : Nat} {ps qs : List PlacedToken},
      TermStands n ps t m qs → ReachedIn n (m + 1) t.parts
  | .mk _ _ _, n, m, _, _, .mk hfirst hsteps => by
      have hlt := hfirst.lt
      have hle := hsteps.le
      have hself : n ≤ m ∧ m < m + 1 := by omega
      have hinside := hfirst.reachedIn.append hsteps.reachedIn (Nat.le_of_lt hlt) hle
      exact .cons hself (hinside.mono (Nat.le_refl n) (Nat.le_succ m))

theorem Grammar.TermStepsStand.reachedIn :
    ∀ {steps : List TermStep} {n m : Nat} {ps qs : List PlacedToken},
      TermStepsStand n ps steps m qs → ReachedIn n m (TermTree.stepParts steps)
  | [], _, _, _, _, .nil _ => .nil
  | .mk _ _ _ :: _, _, m, _, _, .cons hplace hstart hfactor hsteps => by
      have hparts :=
        hfactor.reachedIn.append hsteps.reachedIn (Nat.le_of_lt hfactor.lt) hsteps.le
      exact hparts.mono (Nat.le_of_lt (Nat.lt_of_le_of_lt hplace hstart)) (Nat.le_refl m)

/-- Evaluation is through with a factor before its end. -/
theorem Grammar.FactorStands.reachedIn :
    ∀ {x : FactorTree} {n m : Nat} {ps qs : List PlacedToken},
      FactorStands n ps x m qs → ReachedIn n m x.parts
  | .call _ _ _ _, n, _, _, _,
      @FactorStands.call _ _ _ _ _ _ closing _ _ _ _ _ _ _ _ hopening hstart hfirst hothers
        hclosing => by
      have hlt := hfirst.lt
      have hle := hothers.le
      have hinside := hfirst.reachedIn.append hothers.reachedIn (by omega) (by omega)
      have hself : n ≤ n ∧ n < closing + 1 := by omega
      exact .cons hself (hinside.mono (by omega) (by omega))
  | .reference _ _, n, _, _, _, .reference _ hlt hle _ =>
      .cons ⟨Nat.le_refl n, Nat.lt_of_lt_of_le hlt hle⟩ .nil
  | .constant _, n, _, _, _, .constant _ hspan hlt => by
      refine .cons ?_ .nil
      rw [reachedAt, hspan]
      exact ⟨Nat.le_refl n, hlt⟩
  | .group _, _, _, _, _, .group hstart hinner hclosing => by
      have hlt := hinner.lt
      refine .cons ?_ (hinner.reachedIn.mono (Nat.le_of_lt hstart) (Nat.succ_le_succ hclosing))
      rw [reachedAt, hinner.span_eq]
      constructor
      · exact Nat.le_of_lt hstart
      · exact Nat.lt_succ_of_le (Nat.le_trans (Nat.le_of_lt hlt) hclosing)

theorem Grammar.ArgumentsStand.reachedIn :
    ∀ {es : List ExpressionTree} {n m : Nat} {ps qs : List PlacedToken},
      ArgumentsStand n ps es m qs →
      ReachedIn (n + 1) (m + 1) (ExpressionTree.argumentParts es)
  | [], _, _, _, _, .nil _ => .nil
  | _ :: _, _, _, _, _, .cons hplace hstart he hes => by
      have hlt := he.lt
      have hle := hes.le
      have hparts := he.reachedIn.append hes.reachedIn (by omega) (by omega)
      exact hparts.mono (by omega) (Nat.le_refl _)

end

/-- Evaluation comes to a call before it comes to what is inside. -/
theorem Grammar.FactorStands.reachedAt_call_lt {span : Span} {name : Lexeme}
    {first : ExpressionTree} {others : List ExpressionTree} {n m : Nat}
    {ps qs : List PlacedToken} (h : FactorStands n ps (.call span name first others) m qs) :
    ∀ p ∈ first.parts ++ ExpressionTree.argumentParts others, span.start < reachedAt p := by
  cases h with
  | call _ _ hopening hstart hfirst hothers _ =>
      have hlt := hfirst.lt
      have hle := hothers.le
      have hinside := hfirst.reachedIn.append hothers.reachedIn (by omega) (by omega)
      exact fun p hp => Nat.lt_of_lt_of_le (Nat.lt_trans hopening hstart) (hinside p hp).1

end Order

namespace Evaluation

/-! ## Handlers -/

section Handlers

open Interpretation

variable {bindings : Bindings σ}

theorem finds_term {span : Span} {first : FactorTree} {steps : List TermStep} {a : Operand σ}
    {as : List (MultiplicativeOperator × Operand σ)}
    (ha : ((evaluation bindings).walkFactor first).outcome = .ok a)
    (has : ((evaluation bindings).walkTermSteps steps).outcome = .ok as) :
    Finds bindings [.term (.mk span first steps)]
      (quotient bindings (multiplied a as) (divided as) span) := by
  refine .singleton (fun x hx => ?_) fun e he => faulty_of_quotient ha has he
  exact not_faulty_of_walkTerm
    (Handled.outcome_bind_eq_ok.mpr ⟨a, ha, Handled.outcome_bind_eq_ok.mpr ⟨as, has, hx⟩⟩)

theorem finds_expression {span : Span} {first : TermTree} {steps : List ExpressionStep} {a : σ}
    {as : List (AdditiveOperator × σ)}
    (ha : ((evaluation bindings).walkTerm first).outcome = .ok a)
    (has : ((evaluation bindings).walkSteps steps).outcome = .ok as) :
    Finds bindings [.expression (.mk span first steps)]
      (difference (added a as) (subtracted as)) := by
  refine .singleton (fun x hx e hfaulty => ?_) fun e he => ?_
  · obtain ⟨a', as', ha', has', h⟩ := walk_of_faulty hfaulty
    obtain rfl := Except.ok.inj (ha.symm.trans ha')
    obtain rfl := Except.ok.inj (has.symm.trans has')
    simp [hx] at h
  · obtain ⟨cause, rfl⟩ := series_of_difference he
    exact .terms (sum_mismatched_iff.mpr ⟨a, as, ha, has, he⟩)

theorem finds_constant (literal : Lexeme) :
    Finds bindings [.factor (.constant literal)]
      ((literalValue literal.text literal.span).map Series.broadcast : Except Fault σ) := by
  refine .singleton (fun x hx e hfaulty => ?_) fun e he => .literal (map_eq_error.mp he)
  cases hfaulty with
  | literal herror =>
      rw [map_eq_error.mpr herror] at hx
      simp at hx

/-- Nothing is wrong with parentheses. -/
theorem finds_group {α : Type} {inner : ExpressionTree} {v : Except Fault α}
    (h : Finds bindings inner.parts v) :
    Finds bindings (FactorTree.parts (.group inner)) v := by
  cases h with
  | value hnone => exact .value (List.forall_mem_cons.mpr ⟨fun _ he => (nomatch he), hnone⟩)
  | fault hfirst =>
      refine .fault ⟨List.mem_cons_of_mem _ hfirst.mem, hfirst.faulty, ?_⟩
      exact List.forall_mem_cons.mpr ⟨fun _ he => (nomatch he), hfirst.first⟩

end Handlers

/-! ## The walk -/

section Walk

open Interpretation

variable {bindings : Bindings σ}

mutual

/-- Evaluation finds the faulty part of an expression that it comes to first. -/
theorem walk_finds : ∀ {t : ExpressionTree} {n m : Nat} {ps qs : List PlacedToken},
    ExpressionStands n ps t m qs →
    Finds bindings t.parts ((evaluation bindings).walk t).outcome
  | .mk span first steps, _, _, _, _, .mk hfirst hsteps => by
      simp only [walk, Handled.outcome_bind]
      refine .of_mem_iff
        (first.parts ++ (ExpressionTree.stepParts steps ++ [.expression (.mk span first steps)]))
        ((walkTerm_finds hfirst).bind (fun e he p hp => ?_) fun a ha =>
          (walkSteps_finds hsteps).bind (fun e he p _ => ?_) fun as has =>
            finds_expression ha has) fun p => ?_
      · refine List.forall_mem_append.mpr ⟨fun q hq _ _ => ?_, ?_⟩
        · exact hfirst.reachedIn.lt hsteps.reachedIn p hp q hq
        · refine List.forall_mem_singleton.mpr fun e' hfaulty => ?_
          obtain ⟨a, -, ha, -⟩ := walk_of_faulty hfaulty
          simp [he] at ha
      · refine List.forall_mem_singleton.mpr fun e' hfaulty => ?_
        obtain ⟨-, as, -, has, -⟩ := walk_of_faulty hfaulty
        simp [he] at has
      · grind [ExpressionTree.parts]

theorem walkSteps_finds :
    ∀ {steps : List ExpressionStep} {n m : Nat} {ps qs : List PlacedToken},
      ExpressionStepsStand n ps steps m qs →
      Finds bindings (ExpressionTree.stepParts steps)
        ((evaluation bindings).walkSteps steps).outcome
  | [], _, _, _, _, .nil _ => .nil []
  | .mk operator _ term :: steps, _, _, _, _, .cons _ _ hterm hsteps => by
      simp only [walkSteps, walkStep, Handled.outcome_bind]
      refine ((walkTerm_finds hterm).map _).bind (fun e he p hp q hq _ _ => ?_) fun s _ =>
        (walkSteps_finds hsteps).map _
      exact hterm.reachedIn.lt hsteps.reachedIn p hp q hq

theorem walkTerm_finds : ∀ {t : TermTree} {n m : Nat} {ps qs : List PlacedToken},
    TermStands n ps t m qs →
    Finds bindings t.parts ((evaluation bindings).walkTerm t).outcome
  | .mk span first steps, _, _, _, _, .mk hfirst hsteps => by
      simp only [walkTerm, Handled.outcome_bind]
      refine .of_mem_iff
        (first.parts ++ (TermTree.stepParts steps ++ [.term (.mk span first steps)]))
        ((walkFactor_finds hfirst).bind (fun e he p hp => ?_) fun a ha =>
          (walkTermSteps_finds hsteps).bind (fun e he p hp => ?_) fun as has =>
            finds_term ha has) fun p => ?_
      · have hbefore := Nat.lt_of_lt_of_le (hfirst.reachedIn p hp).2 hsteps.le
        refine List.forall_mem_append.mpr ⟨fun q hq _ _ => ?_, ?_⟩
        · exact hfirst.reachedIn.lt hsteps.reachedIn p hp q hq
        · exact List.forall_mem_singleton.mpr fun _ _ => hbefore
      · exact List.forall_mem_singleton.mpr fun _ _ => (hsteps.reachedIn p hp).2
      · grind [TermTree.parts]

theorem walkTermSteps_finds :
    ∀ {steps : List TermStep} {n m : Nat} {ps qs : List PlacedToken},
      TermStepsStand n ps steps m qs →
      Finds bindings (TermTree.stepParts steps)
        ((evaluation bindings).walkTermSteps steps).outcome
  | [], _, _, _, _, .nil _ => .nil []
  | .mk operator _ factor :: steps, _, _, _, _, .cons _ _ hfactor hsteps => by
      simp only [walkTermSteps, walkTermStep, Handled.outcome_bind]
      refine ((walkFactor_finds hfactor).map _).bind (fun e he p hp q hq _ _ => ?_) fun s _ =>
        (walkTermSteps_finds hsteps).map _
      exact hfactor.reachedIn.lt hsteps.reachedIn p hp q hq

theorem walkFactor_finds : ∀ {x : FactorTree} {n m : Nat} {ps qs : List PlacedToken},
    FactorStands n ps x m qs →
    Finds bindings x.parts ((evaluation bindings).walkFactor x).outcome
  | .call _ _ _ _, _, _, _, _, hcall => by
      -- The call is refused before its arguments are looked at.
      refine .fault ⟨List.mem_cons_self, .call, List.forall_mem_cons.mpr ⟨?_, ?_⟩⟩
      · exact fun _ _ => Or.inl rfl
      · exact fun q hq _ _ => Or.inr (hcall.reachedAt_call_lt q hq)
  | .reference _ _, _, _, _, _, _ =>
      .value (List.forall_mem_singleton.mpr fun e he => nomatch he)
  | .constant literal, _, _, _, _, _ => by
      simp only [walkFactor, Handled.outcome_bind]
      exact (finds_constant literal).map _
  | .group _, _, _, _, _, .group _ hinner _ => by
      simp only [walkFactor, Handled.outcome_bind]
      exact finds_group ((walk_finds hinner).map _)

end

end Walk

/-! ## Literals out of range -/

section Literals

variable {α : Type} {bindings : Bindings σ} {ps : List Part} {v : Except Fault α}
  {position : Nat} {reason : Malformation}

/-- Only a literal is malformed, and where it starts. -/
theorem Faulty.reachedAt_eq {p : Part} (h : Faulty bindings p (.malformed position reason)) :
    reachedAt p = position := by
  cases h with
  | literal hvalue => exact (literalValue_eq_malformed hvalue).symm

/-- A literal out of range is what evaluation fails at unless it comes to another faulty part
before, and then it fails at the first of those. -/
theorem Finds.of_literal {literal : Lexeme} (h : Finds bindings ps v)
    (hmem : .factor (.constant literal) ∈ ps)
    (hvalue : literalValue literal.text literal.span = .error (.malformed position reason)) :
    (v = .error (.malformed position reason) ↔
        ∀ q ∈ ps, ∀ e, Faulty bindings q e → position ≤ reachedAt q) ∧
      (v ≠ .error (.malformed position reason) →
        ∃ q e, IsFirstFaulty bindings ps q e ∧ reachedAt q < position ∧ v = .error e) := by
  have hliteral : Faulty bindings (.factor (.constant literal)) _ := .literal hvalue
  have hplace := hliteral.reachedAt_eq
  cases h with
  | value hnone => exact absurd hliteral (hnone _ hmem _)
  | @fault p e hfirst =>
      rcases hfirst.first _ hmem _ hliteral with rfl | hlt
      · have hsame : e = .malformed position reason := by
          cases hfirst.faulty with
          | literal hvalue' => exact Except.error.inj (hvalue'.symm.trans hvalue)
        subst hsame
        refine ⟨iff_of_true rfl fun q hq e' hfaulty => ?_, fun hne => absurd rfl hne⟩
        rcases hfirst.first q hq e' hfaulty with rfl | hlt
        · exact Nat.le_of_eq hplace.symm
        · exact hplace ▸ Nat.le_of_lt hlt
      · rw [hplace] at hlt
        have hother : (.error e : Except Fault α) ≠ .error (.malformed position reason) := by
          intro hsame
          obtain rfl := Except.error.inj hsame
          exact absurd hfirst.faulty.reachedAt_eq (Nat.ne_of_lt hlt)
        refine ⟨iff_of_false hother fun hlate => ?_, fun _ => ⟨p, e, hfirst, hlt, rfl⟩⟩
        exact Nat.not_le_of_lt hlt (hlate p hfirst.mem e hfirst.faulty)

end Literals

end Evaluation

/-! ## Texts -/

/-- What evaluating a text with a parse tree comes to. -/
theorem Policy.evaluate_finds {p : Policy} {source : String} {t : ExpressionTree}
    (h : Interpretation.parse p.maxDepth source = .ok t) (bindings : Bindings σ) :
    Evaluation.Finds bindings t.parts (p.evaluate source bindings) := by
  obtain ⟨_, _, _, -, hstands⟩ := tree_stands (Interpretation.parse_eq_ok.mp h).2
  rw [Policy.evaluate_eq, h]
  exact Evaluation.walk_finds hstands

end MetricFormula
