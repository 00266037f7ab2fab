/-
  Proofs/Interpretation/Recorded: what validation has recorded where it stops.

  A term records the variables among its own factors when it is complete, and a walk stops at
  the first literal or call that offends.  Terms that end before the offender does are complete
  by then, and no others are: a term around the offender ends no earlier than it, and what
  comes later is not begun (`walk_collects`).
-/
import MetricFormula.Proofs.Rejection
import MetricFormula.Proofs.Variables
import MetricFormula.Proofs.Interpretation.Term

set_option autoImplicit false

namespace MetricFormula

namespace Grammar

/-! ## The variables of a term -/

/-- Where a term stands. -/
def TermTree.span : TermTree → Span
  | .mk span _ _ => span

/-- The variable that a factor is, if it is one. -/
def FactorTree.variables : FactorTree → List Lexeme
  | .call _ _ _ _ => []
  | .reference _ name => [name]
  | .constant _ => []
  | .group _ => []

/-- The variables among the factors of steps. -/
def TermTree.stepVariables : List TermStep → List Lexeme
  | [] => []
  | .mk _ _ factor :: steps => factor.variables ++ TermTree.stepVariables steps

/-- The variables among the factors of a term, without those of the terms inside it. -/
def TermTree.variables : TermTree → List Lexeme
  | .mk _ first steps => first.variables ++ TermTree.stepVariables steps

/-- A name is that of a variable of some terms. -/
def NamedIn (us : List TermTree) (name : String) : Prop :=
  ∃ u ∈ us, name ∈ u.variables.map Lexeme.text

/-- A name is that of a variable of some terms, one that ends before an offset. -/
def NamedBefore (stop : Nat) (us : List TermTree) (name : String) : Prop :=
  ∃ u ∈ us, u.span.stop < stop ∧ name ∈ u.variables.map Lexeme.text

section Names

variable {us vs : List TermTree} {stop : Nat} {name : String}

theorem namedIn_append : NamedIn (us ++ vs) name ↔ NamedIn us name ∨ NamedIn vs name := by
  simp only [NamedIn, List.mem_append, or_and_right, exists_or]

theorem namedBefore_append :
    NamedBefore stop (us ++ vs) name ↔ NamedBefore stop us name ∨ NamedBefore stop vs name := by
  simp only [NamedBefore, List.mem_append, or_and_right, exists_or]

theorem namedBefore_iff_namedIn (h : ∀ u ∈ us, u.span.stop < stop) :
    NamedBefore stop us name ↔ NamedIn us name :=
  exists_congr fun u => and_congr_right fun hu => and_iff_right (h u hu)

theorem not_namedBefore (h : ∀ u ∈ us, stop ≤ u.span.stop) : ¬NamedBefore stop us name := by
  rintro ⟨u, hu, hlt, -⟩
  exact absurd hlt (Nat.not_lt.mpr (h u hu))

end Names

/-! ## Where terms end -/

/-- Constructs and terms that end between two offsets. -/
structure EndBetween (n m : Nat) (cs : List Construct) (us : List TermTree) : Prop where
  constructs : ∀ c ∈ cs, n < c.span.stop ∧ c.span.stop ≤ m
  terms : ∀ u ∈ us, n ≤ u.span.stop ∧ u.span.stop ≤ m

namespace EndBetween

variable {n k l m : Nat} {cs ds : List Construct} {us vs : List TermTree}

theorem nil : EndBetween n m [] [] := ⟨by simp, by simp⟩

theorem mono (h : EndBetween k l cs us) (hn : n ≤ k) (hm : l ≤ m) : EndBetween n m cs us where
  constructs c hc :=
    ⟨Nat.lt_of_le_of_lt hn (h.constructs c hc).1, Nat.le_trans (h.constructs c hc).2 hm⟩
  terms u hu := ⟨Nat.le_trans hn (h.terms u hu).1, Nat.le_trans (h.terms u hu).2 hm⟩

theorem append (h : EndBetween n k cs us) (h' : EndBetween k m ds vs) (hn : n ≤ k) (hm : k ≤ m) :
    EndBetween n m (cs ++ ds) (us ++ vs) where
  constructs := List.forall_mem_append.mpr
    ⟨(h.mono (Nat.le_refl n) hm).constructs, (h'.mono hn (Nat.le_refl m)).constructs⟩
  terms := List.forall_mem_append.mpr
    ⟨(h.mono (Nat.le_refl n) hm).terms, (h'.mono hn (Nat.le_refl m)).terms⟩

/-- A call that is closed at `m`. -/
theorem call (n m : Nat) (name : String) : EndBetween m (m + 1) [.call name ⟨n, m + 1⟩] [] :=
  ⟨List.forall_mem_singleton.mpr ⟨Nat.lt_succ_self m, Nat.le_refl _⟩, by simp⟩

/-- A call ends after everything in it. -/
theorem enclose (h : EndBetween n m cs us) (hle : n ≤ m) (name : String) :
    EndBetween n (m + 1) (cs ++ [.call name ⟨n, m + 1⟩]) us := by
  have hall := h.append (.call n m name) hle (Nat.le_succ m)
  rwa [List.append_nil] at hall

end EndBetween

mutual

/-- The constructs and the terms of an expression end where it does, or before. -/
theorem ExpressionStands.endBetween :
    ∀ {t : ExpressionTree} {n m : Nat} {ps qs : List PlacedToken},
      ExpressionStands n ps t m qs → EndBetween n m t.constructs t.terms
  | .mk _ _ _, _, _, _, _, .mk hfirst hsteps =>
      hfirst.endBetween.append hsteps.endBetween (Nat.le_of_lt hfirst.lt) hsteps.le

theorem ExpressionStepsStand.endBetween :
    ∀ {steps : List ExpressionStep} {n m : Nat} {ps qs : List PlacedToken},
      ExpressionStepsStand n ps steps m qs →
      EndBetween n m (ExpressionTree.stepConstructs steps) (ExpressionTree.stepTerms steps)
  | [], _, _, _, _, .nil _ => .nil
  | .mk _ _ _ :: _, _, _, _, _, .cons hplace hstart hterm hsteps => by
      have hle := Nat.le_of_lt (Nat.lt_of_le_of_lt hplace hstart)
      exact (hterm.endBetween.append hsteps.endBetween (Nat.le_of_lt hterm.lt) hsteps.le).mono
        hle (Nat.le_refl _)

theorem TermStands.endBetween : ∀ {t : TermTree} {n m : Nat} {ps qs : List PlacedToken},
    TermStands n ps t m qs → EndBetween n m t.constructs t.terms
  | .mk _ _ _, _, _, _, _, .mk hfirst hsteps => by
      have hinside := hfirst.endBetween.append hsteps.endBetween (Nat.le_of_lt hfirst.lt)
        hsteps.le
      have hle := Nat.le_trans (Nat.le_of_lt hfirst.lt) hsteps.le
      exact ⟨hinside.constructs, List.forall_mem_cons.mpr ⟨⟨hle, Nat.le_refl _⟩, hinside.terms⟩⟩

theorem TermStepsStand.endBetween :
    ∀ {steps : List TermStep} {n m : Nat} {ps qs : List PlacedToken},
      TermStepsStand n ps steps m qs →
      EndBetween n m (TermTree.stepConstructs steps) (TermTree.stepTerms steps)
  | [], _, _, _, _, .nil _ => .nil
  | .mk _ _ _ :: _, _, _, _, _, .cons hplace hstart hfactor hsteps => by
      have hle := Nat.le_of_lt (Nat.lt_of_le_of_lt hplace hstart)
      exact (hfactor.endBetween.append hsteps.endBetween (Nat.le_of_lt hfactor.lt) hsteps.le).mono
        hle (Nat.le_refl _)

theorem FactorStands.endBetween : ∀ {x : FactorTree} {n m : Nat} {ps qs : List PlacedToken},
    FactorStands n ps x m qs → EndBetween n m x.constructs x.terms
  | .call _ name _ _, _, _, _, _, .call _ _ hopening hstart hfirst hothers hclosing => by
      have hle := Nat.le_of_lt (Nat.lt_trans hopening hstart)
      have hinside := (hfirst.endBetween.append hothers.endBetween (Nat.le_of_lt hfirst.lt)
        hothers.le).mono hle hclosing
      have hlt := hfirst.lt
      have hothersLe := hothers.le
      rw [FactorTree.constructs, ← List.append_assoc]
      exact hinside.enclose (by omega) name.text
  | .reference _ _, _, _, _, _, .reference _ _ _ _ => .nil
  | .constant _, _, _, _, _, .constant _ hspan hlt => by
      rw [FactorTree.constructs, hspan]
      exact ⟨List.forall_mem_singleton.mpr ⟨hlt, Nat.le_refl _⟩, by simp [FactorTree.terms]⟩
  | .group _, _, _, _, _, .group hstart hinner hclosing =>
      hinner.endBetween.mono (Nat.le_of_lt hstart) (Nat.le_succ_of_le hclosing)

theorem ArgumentsStand.endBetween :
    ∀ {es : List ExpressionTree} {n m : Nat} {ps qs : List PlacedToken},
      ArgumentsStand n ps es m qs →
      EndBetween n m (ExpressionTree.argumentConstructs es) (ExpressionTree.argumentTerms es)
  | [], _, _, _, _, .nil _ => .nil
  | _ :: _, _, _, _, _, .cons hplace hstart he hes => by
      have hle := Nat.le_of_lt (Nat.lt_of_le_of_lt hplace hstart)
      exact (he.endBetween.append hes.endBetween (Nat.le_of_lt he.lt) hes.le).mono hle
        (Nat.le_refl _)

end

/-! ## The first offender of two rows -/

namespace Construct.IsFirstOffender

variable {functions : NameSet} {cs ds : List Construct} {c : Construct}

theorem append_left (h : c.IsFirstOffender functions cs)
    (hlater : ∀ d ∈ ds, c.span.stop < d.span.stop) : c.IsFirstOffender functions (cs ++ ds) where
  mem := List.mem_append_left ds h.mem
  offends := h.offends
  first d hd hoffends hne := by
    rcases List.mem_append.mp hd with hd | hd
    · exact h.first d hd hoffends hne
    · exact hlater d hd

theorem append_right (h : c.IsFirstOffender functions ds)
    (hnone : ∀ d ∈ cs, ¬d.Offends functions) : c.IsFirstOffender functions (cs ++ ds) where
  mem := List.mem_append_right cs h.mem
  offends := h.offends
  first d hd hoffends hne := by
    rcases List.mem_append.mp hd with hd | hd
    · exact absurd hoffends (hnone d hd)
    · exact h.first d hd hoffends hne

end Construct.IsFirstOffender

end Grammar

open Grammar

/-! ## What is recorded up to the first offender -/

namespace Validation

open Handled

variable {α β : Type} {functions : NameSet} {n m l : Nat} {cs ds : List Construct}
  {us vs : List TermTree} {pending : α → List Lexeme} {pending' : β → List Lexeme}
  {ls ls' : List Lexeme} {x : Handled NameSet α} {k : α → Handled NameSet β}

/-- What a step comes to from the names `s`, if it meets the constructs `cs`, completes the terms
`us`, and its result leaves the references `ls`.  Either none of the constructs offends and the
variables of all terms are recorded, or it stops at the first that offends, and the variables of
the terms that end before it are. -/
inductive Collected (functions : NameSet) (cs : List Construct) (us : List TermTree)
    (pending : α → List Lexeme) (ls : List Lexeme) (s : NameSet) :
    Except Fault α × NameSet → Prop
  | ok {a : α} {s' : NameSet} : (∀ c ∈ cs, ¬c.Offends functions) → pending a = ls →
      (∀ name, name ∈ s' ↔ name ∈ s ∨ NamedIn us name) →
      Collected functions cs us pending ls s (.ok a, s')
  | error {c : Construct} {s' : NameSet} : c.IsFirstOffender functions cs →
      (∀ name, name ∈ s' ↔ name ∈ s ∨ NamedBefore c.span.stop us name) →
      Collected functions cs us pending ls s (.error c.fault, s')

/-- A step comes to that from every set of names. -/
def Collects (functions : NameSet) (cs : List Construct) (us : List TermTree)
    (pending : α → List Lexeme) (ls : List Lexeme) (x : Handled NameSet α) : Prop :=
  ∀ s, Collected functions cs us pending ls s (x.runFrom s)

theorem collects_pure (pending : α → List Lexeme) (a : α) :
    Collects functions [] [] pending (pending a) (pure a) := by
  intro s
  exact .ok (by simp) rfl (by simp [NamedIn])

namespace Collects

/-- A step and then another one, whose constructs end later than all before them, and whose
terms end no earlier than the constructs before them. -/
theorem andThen (hx : Collects functions cs us pending ls x)
    (hk : ∀ a, pending a = ls → Collects functions ds vs pending' ls' (k a))
    (hlater : ∀ c ∈ cs, ∀ d ∈ ds, c.span.stop < d.span.stop)
    (hended : ∀ u ∈ us, ∀ d ∈ ds, u.span.stop < d.span.stop)
    (hopen : ∀ c ∈ cs, ∀ v ∈ vs, c.span.stop ≤ v.span.stop) :
    Collects functions (cs ++ ds) (us ++ vs) pending' ls' (x >>= k) := by
  intro s
  have hrun := hx s
  rw [runFrom_bind]
  generalize x.runFrom s = r at hrun
  cases hrun with
  | @ok a s' hnone hpending hnames =>
      have hrun' := hk a hpending s'
      dsimp only
      generalize (k a).runFrom s' = r' at hrun'
      cases hrun' with
      | ok hnone' hpending' hnames' =>
          refine .ok (List.forall_mem_append.mpr ⟨hnone, hnone'⟩) hpending' fun name => ?_
          rw [hnames', hnames, namedIn_append, or_assoc]
      | @error d _ hfirst hnames' =>
          refine .error (hfirst.append_right hnone) fun name => ?_
          rw [hnames', hnames, namedBefore_append,
            namedBefore_iff_namedIn fun u hu => hended u hu d hfirst.mem, or_assoc]
  | @error c _ hfirst hnames =>
      refine .error (hfirst.append_left (hlater c hfirst.mem)) fun name => ?_
      rw [hnames, namedBefore_append, or_iff_left (not_namedBefore (hopen c hfirst.mem))]

/-- A step and then another one, before and after an offset. -/
theorem bind (hx : Collects functions cs us pending ls x) (hcs : EndBetween n l cs us)
    (hds : EndBetween l m ds vs)
    (hk : ∀ a, pending a = ls → Collects functions ds vs pending' ls' (k a)) :
    Collects functions (cs ++ ds) (us ++ vs) pending' ls' (x >>= k) := by
  refine hx.andThen hk (fun c hc d hd => ?_) (fun u hu d hd => ?_) fun c hc v hv => ?_
  · exact Nat.lt_of_le_of_lt (hcs.constructs c hc).2 (hds.constructs d hd).1
  · exact Nat.lt_of_le_of_lt (hcs.terms u hu).2 (hds.constructs d hd).1
  · exact Nat.le_trans (hcs.constructs c hc).2 (hds.terms v hv).1

/-- A step and then one that meets no construct and completes no term. -/
theorem finish (hx : Collects functions cs us pending ls x)
    (hk : ∀ a, pending a = ls → Collects functions [] [] pending' ls' (k a)) :
    Collects functions cs us pending' ls' (x >>= k) := by
  have h := hx.andThen hk (by simp) (by simp) (by simp)
  rwa [List.append_nil, List.append_nil] at h

/-- A step whose result is only rearranged. -/
theorem map (hx : Collects functions cs us pending ls x) (f : α → β)
    (hf : ∀ a, pending a = ls → pending' (f a) = ls') :
    Collects functions cs us pending' ls' (x >>= fun a => pure (f a)) :=
  hx.finish fun a ha => hf a ha ▸ collects_pure pending' (f a)

/-- The order of the terms does not count. -/
theorem congr (hx : Collects functions cs us pending ls x) (h : ∀ u, u ∈ us ↔ u ∈ vs) :
    Collects functions cs vs pending ls x := by
  intro s
  have hrun := hx s
  generalize x.runFrom s = r at hrun
  cases hrun with
  | ok hnone hpending hnames =>
      refine .ok hnone hpending fun name => ?_
      simp only [hnames, NamedIn, h]
  | error hfirst hnames =>
      refine .error hfirst fun name => ?_
      simp only [hnames, NamedBefore, h]

end Collects

/-- A step that is about one construct and fails as that does. -/
theorem collects_construct {c : Construct}
    (hc : ∀ text span, c = .literal text span → IsNumeral text.toList)
    (hfails : FailsWith x (c.fault? functions.contains)) (hsame : ∀ s, (x.runFrom s).2 = s) :
    Collects functions [c] [] nothingPending [] x := by
  intro s
  have hresult := hfails s
  have hstate := hsame s
  rcases hrun : x.runFrom s with ⟨e | a, s'⟩ <;> rw [hrun] at hresult hstate
  · obtain rfl : s' = s := hstate
    obtain ⟨hoffends, rfl⟩ := (Construct.fault?_eq_some_iff hc).mp ((hresult e).mp rfl)
    have hfirst : c.IsFirstOffender functions [c] :=
      ⟨List.mem_singleton_self c, hoffends, fun d hd _ hne =>
        absurd (List.mem_singleton.mp hd) hne⟩
    exact .error hfirst (by simp [NamedBefore])
  · obtain rfl : s' = s := hstate
    have hpasses : ¬c.Offends functions := by
      intro hoffends
      have herror := (hresult c.fault).mpr ((Construct.fault?_eq_some_iff hc).mpr ⟨hoffends, rfl⟩)
      simp at herror
    exact .ok (List.forall_mem_singleton.mpr hpasses) rfl (by simp [NamedIn])

/-- A term never fails, and records the variables among its operands. -/
theorem term_runFrom (functions : NameSet) (numerator denominator : List (Operand Factor))
    (span : Span) (s : NameSet) :
    ∃ a s', ((Interpretation.validation functions).term numerator denominator span).runFrom s =
        (.ok a, s') ∧
      ∀ name, name ∈ s' ↔ name ∈ s ∨ name ∈ (numerator.flatMap Operand.pending ++
        denominator.flatMap Operand.pending).map Lexeme.text := by
  have hfails := (validation_judges functions).term numerator denominator span s
  have hrecords := (validation_accounts functions).term numerator denominator span s
  rcases hrun : ((Interpretation.validation functions).term numerator denominator span).runFrom s
    with ⟨e | a, s'⟩
  · rw [hrun] at hfails
    simpa using (hfails e).mp rfl
  · refine ⟨a, s', rfl, fun name => ?_⟩
    have hname := hrecords a s' hrun name
    simpa [nothingPending] using hname

section Walk

open Interpretation

/-- A term that is complete. -/
theorem collects_term {first : FactorTree} {steps : List TermStep} {span : Span}
    {a : Operand Factor} {as : List (MultiplicativeOperator × Operand Factor)}
    (ha : a.pending = first.variables) (has : pendingSteps as = TermTree.stepVariables steps) :
    Collects functions [] [.mk span first steps] nothingPending []
      ((validation functions).term (multiplied a as) (divided as) span) := by
  intro s
  obtain ⟨b, s', hrun, hnames⟩ := term_runFrom functions (multiplied a as) (divided as) span s
  rw [hrun]
  refine .ok (by simp) rfl fun name => ?_
  simp only [hnames, NamedIn, List.mem_singleton, exists_eq_left, TermTree.variables, ← ha, ← has,
    List.mem_map, mem_pending_operands]

mutual

/-- Validation of an expression meets its constructs and completes its terms. -/
theorem walk_collects : ∀ {t : ExpressionTree} {n m : Nat} {ps qs : List PlacedToken},
    ExpressionStands n ps t m qs →
    Collects functions t.constructs t.terms nothingPending [] ((validation functions).walk t)
  | .mk _ _ _, _, _, _, _, .mk hfirst hsteps =>
      (walkTerm_collects hfirst).bind hfirst.endBetween hsteps.endBetween fun _ _ =>
        (walkSteps_collects hsteps).map _ fun _ _ => rfl

theorem walkSteps_collects :
    ∀ {steps : List ExpressionStep} {n m : Nat} {ps qs : List PlacedToken},
      ExpressionStepsStand n ps steps m qs →
      Collects functions (ExpressionTree.stepConstructs steps) (ExpressionTree.stepTerms steps)
        nothingPending [] ((validation functions).walkSteps steps)
  | [], _, _, _, _, .nil _ => collects_pure nothingPending []
  | .mk operator place term :: _, _, _, _, _, .cons _ _ hterm hsteps => by
      have hstep : Collects functions term.constructs term.terms nothingPending []
          ((validation functions).walkStep (.mk operator place term)) :=
        (walkTerm_collects hterm).map (operator, ·) fun _ _ => rfl
      exact hstep.bind hterm.endBetween hsteps.endBetween fun s _ =>
        (walkSteps_collects hsteps).map (s :: ·) fun _ _ => rfl

theorem walkTerm_collects : ∀ {t : TermTree} {n m : Nat} {ps qs : List PlacedToken},
    TermStands n ps t m qs →
    Collects functions t.constructs t.terms nothingPending [] ((validation functions).walkTerm t)
  | .mk _ first steps, n, m, _, _, .mk hfirst hsteps => by
      have hself : EndBetween m m [] [.mk ⟨n, m⟩ first steps] :=
        ⟨by simp, by simp [TermTree.span]⟩
      have hinside := hsteps.endBetween.append hself hsteps.le (Nat.le_refl m)
      have h := (walkFactor_collects hfirst).bind hfirst.endBetween hinside fun a ha =>
        (walkTermSteps_collects hsteps).bind hsteps.endBetween hself fun as has =>
          collects_term ha has
      rw [List.append_nil] at h
      refine h.congr fun u => ?_
      rw [TermTree.terms]
      grind

theorem walkTermSteps_collects :
    ∀ {steps : List TermStep} {n m : Nat} {ps qs : List PlacedToken},
      TermStepsStand n ps steps m qs →
      Collects functions (TermTree.stepConstructs steps) (TermTree.stepTerms steps)
        pendingSteps (TermTree.stepVariables steps) ((validation functions).walkTermSteps steps)
  | [], _, _, _, _, .nil _ => collects_pure pendingSteps []
  | .mk operator place factor :: _, _, _, _, _, .cons _ _ hfactor hsteps => by
      have hstep : Collects functions factor.constructs factor.terms (fun s => s.2.pending)
          factor.variables ((validation functions).walkTermStep (.mk operator place factor)) :=
        (walkFactor_collects hfactor).map (operator, ·) fun _ ha => ha
      refine hstep.bind hfactor.endBetween hsteps.endBetween fun s hs => ?_
      refine (walkTermSteps_collects hsteps).map (s :: ·) fun ss hss => ?_
      rw [TermTree.stepVariables, ← hs, ← hss]
      rfl

theorem walkFactor_collects : ∀ {x : FactorTree} {n m : Nat} {ps qs : List PlacedToken},
    FactorStands n ps x m qs →
    Collects functions x.constructs x.terms Operand.pending x.variables
      ((validation functions).walkFactor x)
  | .call _ name _ _, n, _, _, _, .call _ _ _ _ hfirst hothers hclosing => by
      have hcall : ∀ span es, Collects functions [.call name.text span] [] Operand.pending []
          ((validation functions).call name.text es span >>= fun v => pure (.value v)) := by
        intro span es
        exact (collects_construct (by simp) ((validation_judges functions).call name.text es span)
          (call_keeps functions name.text es span)).map Operand.value fun _ _ => rfl
      have harguments := hothers.endBetween.mono (Nat.le_refl _) hclosing
      have hinside := harguments.append (.call n _ name.text) (Nat.le_trans hothers.le hclosing)
        (Nat.le_succ _)
      have h := (walk_collects hfirst).bind hfirst.endBetween hinside fun e _ =>
        (walkArguments_collects hothers).bind harguments (.call n _ name.text) fun es _ =>
          hcall _ (e :: es)
      rw [List.append_nil] at h
      exact (collects_pure nothingPending ()).andThen (fun _ _ => h) (by simp) (by simp) (by simp)
  | .reference _ name, _, _, _, _, .reference _ _ _ _ =>
      collects_pure Operand.pending (.variable name.text name.span)
  | .constant literal, _, _, _, _, .constant hnumeral _ _ => by
      have hliteral : Collects functions [.literal literal.text literal.span] [] nothingPending []
          ((validation functions).constant literal.text literal.span) := by
        refine collects_construct ?_ ((validation_judges functions).constant _ _) fun _ => rfl
        rintro text span heq
        obtain ⟨rfl, -⟩ := Construct.literal.inj heq
        exact hnumeral
      exact hliteral.map Operand.value fun _ _ => rfl
  | .group inner, _, _, _, _, .group _ hinner _ =>
      (walk_collects hinner).finish fun e _ =>
        (collects_pure nothingPending (Factor.group e)).map Operand.value fun _ _ => rfl

theorem walkArguments_collects :
    ∀ {es : List ExpressionTree} {n m : Nat} {ps qs : List PlacedToken},
      ArgumentsStand n ps es m qs →
      Collects functions (ExpressionTree.argumentConstructs es) (ExpressionTree.argumentTerms es)
        nothingPending [] ((validation functions).walkArguments es)
  | [], _, _, _, _, .nil _ => collects_pure nothingPending []
  | _ :: _, _, _, _, _, .cons _ _ he hes =>
      (walk_collects he).bind he.endBetween hes.endBetween fun a _ =>
        (walkArguments_collects hes).map (a :: ·) fun _ _ => rfl

end

end Walk

end Validation

end MetricFormula
