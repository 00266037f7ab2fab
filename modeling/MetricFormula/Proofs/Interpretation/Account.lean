/-
  Proofs/Interpretation/Account: what a walk has to do with each variable of a tree.

  A walk hands a variable on to the term around it, which deals with it when it is
  complete.  An account of a step says which constructs it meets, which references it is
  responsible for, and which of them its result leaves to be dealt with: `Account` is any
  relation of that form that is closed under `pure` and `bind`, where a step may hold
  references for the steps after it.

  If every handler has its account (`Accounts`), a walk meets all the constructs of its tree
  and leaves none of its references (`walk_holds`).
-/
import MetricFormula.Proofs.Interpretation.Outcome
import MetricFormula.Proofs.Grammar.Construct
import MetricFormula.Proofs.Grammar.Reference

set_option autoImplicit false

namespace MetricFormula

open MetricFormula.Grammar

/-- The reference that an operand leaves to the term that receives it. -/
def Operand.pending {φ : Type} : Operand φ → List Lexeme
  | .value _ => []
  | .variable name span => [⟨name, span⟩]

/-- For results that leave no reference. -/
def nothingPending {α : Type} (_ : α) : List Lexeme := []

/-- A relation between a step, the constructs that it meets, the references that it is
responsible for, and those that each of its results leaves. -/
structure Account (σ : Type) where
  Holds : {α : Type} → List Construct → List Lexeme → (α → List Lexeme) → Handled σ α → Prop
  pure : ∀ {α : Type} (pending : α → List Lexeme) (a : α),
    Holds [] (pending a) pending (pure a)
  /-- The second step takes over what the first one leaves, and what was held back from
  it. -/
  bind : ∀ {α β : Type} {cs ds : List Construct} {ls held : List Lexeme}
    {pending : α → List Lexeme} {pending' : β → List Lexeme} {x : Handled σ α}
    {k : α → Handled σ β}, Holds cs ls pending x →
    (∀ a, Holds ds (pending a ++ held) pending' (k a)) →
    Holds (cs ++ ds) (ls ++ held) pending' (x >>= k)
  /-- Neither order nor repetition counts. -/
  congr : ∀ {α : Type} {cs ds : List Construct} {ls ms : List Lexeme}
    {pending : α → List Lexeme} {x : Handled σ α}, Holds cs ls pending x →
    (∀ c, c ∈ cs ↔ c ∈ ds) → (∀ l, l ∈ ls ↔ l ∈ ms) → Holds ds ms pending x

namespace Account

variable {σ α β : Type} {A : Account σ} {cs ds : List Construct} {ls ms : List Lexeme}
  {pending : α → List Lexeme} {pending' : β → List Lexeme} {x : Handled σ α}
  {k : α → Handled σ β}

/-- A step that leaves nothing, and then another one. -/
theorem andThen (hx : A.Holds cs ls nothingPending x)
    (hk : ∀ a, A.Holds ds ms pending' (k a)) :
    A.Holds (cs ++ ds) (ls ++ ms) pending' (x >>= k) :=
  A.bind hx hk

/-- A step from which references are held back, and then one that meets no construct. -/
theorem hold (held : List Lexeme) (hx : A.Holds cs ls pending x)
    (hk : ∀ a, A.Holds [] (held ++ pending a) pending' (k a)) :
    A.Holds cs (held ++ ls) pending' (x >>= k) := by
  have h := A.bind hx fun a => A.congr (hk a) (fun _ => Iff.rfl) fun l => by
    rw [List.mem_append, or_comm, ← List.mem_append]
  rw [List.append_nil] at h
  exact A.congr h (fun _ => Iff.rfl) fun l => by
    rw [List.mem_append, or_comm, ← List.mem_append]

/-- A step and then one that meets no construct. -/
theorem finish (hx : A.Holds cs ls pending x)
    (hk : ∀ a, A.Holds [] (pending a) pending' (k a)) : A.Holds cs ls pending' (x >>= k) :=
  A.hold [] hx hk

/-- A step whose result is only rearranged. -/
theorem map (f : α → β) (hx : A.Holds cs ls pending x)
    (hf : ∀ a, pending' (f a) = pending a) :
    A.Holds cs ls pending' (x >>= fun a => Pure.pure (f a)) :=
  A.finish hx fun a => hf a ▸ A.pure pending' (f a)

end Account

namespace Interpretation

variable {σ ε τ φ : Type}

/-- An interpretation whose handlers have their account: a term deals with the references
among its operands, a call and a literal are met. -/
structure Accounts (A : Account σ) (I : Interpretation σ ε τ φ) : Prop where
  expression : ∀ positive negative span,
    A.Holds [] [] nothingPending (I.expression positive negative span)
  term : ∀ numerator denominator span,
    A.Holds [] (numerator.flatMap Operand.pending ++ denominator.flatMap Operand.pending)
      nothingPending (I.term numerator denominator span)
  enterCall : ∀ name span,
    A.Holds [.call name span] [] nothingPending (I.enterCall name span)
  call : ∀ name arguments span,
    A.Holds [.call name span] [] nothingPending (I.call name arguments span)
  constant : ∀ literal span,
    A.Holds [.literal literal span] [] nothingPending (I.constant literal span)
  group : ∀ inner span, A.Holds [] [] nothingPending (I.group inner span)

/-- What steps leave is what their operands leave. -/
def pendingSteps (steps : List (MultiplicativeOperator × Operand φ)) : List Lexeme :=
  steps.flatMap fun s => s.2.pending

/-- Every operand multiplies or divides. -/
theorem mem_pending_operands {l : Lexeme} {first : Operand φ}
    {steps : List (MultiplicativeOperator × Operand φ)} :
    l ∈ (multiplied first steps).flatMap Operand.pending ++
        (divided steps).flatMap Operand.pending ↔
      l ∈ first.pending ++ pendingSteps steps := by
  have hall := (multiplied_append_divided_perm first steps).flatMap_right Operand.pending
  rw [← List.flatMap_append, hall.mem_iff, List.flatMap_cons, List.flatMap_map, pendingSteps]

section Walk

variable {A : Account σ} {I : Interpretation σ ε τ φ}

mutual

/-- A walk meets the constructs of its tree and deals with its references. -/
theorem walk_holds (hI : I.Accounts A) : ∀ t : ExpressionTree,
    A.Holds t.constructs t.references nothingPending (I.walk t)
  | .mk span first steps =>
      A.andThen (walkTerm_holds hI first) fun x =>
        A.finish (walkSteps_holds hI steps) fun ss =>
          hI.expression (added x ss) (subtracted ss) span

theorem walkSteps_holds (hI : I.Accounts A) : ∀ steps : List ExpressionStep,
    A.Holds (ExpressionTree.stepConstructs steps) (ExpressionTree.stepReferences steps)
      nothingPending (I.walkSteps steps)
  | [] => A.pure nothingPending []
  | .mk operator place term :: steps => by
      have hstep : A.Holds term.constructs term.references nothingPending
          (I.walkStep (.mk operator place term)) :=
        A.map (operator, ·) (walkTerm_holds hI term) fun _ => rfl
      exact A.andThen hstep fun s => A.map (s :: ·) (walkSteps_holds hI steps) fun _ => rfl

theorem walkTerm_holds (hI : I.Accounts A) : ∀ t : TermTree,
    A.Holds t.constructs t.references nothingPending (I.walkTerm t)
  | .mk span first steps =>
      -- The first operand is held back while the steps are walked.
      A.bind (walkFactor_holds hI first) fun x =>
        A.hold x.pending (walkTermSteps_holds hI steps) fun ss =>
          A.congr (hI.term (multiplied x ss) (divided ss) span) (fun _ => Iff.rfl) fun _ =>
            mem_pending_operands

theorem walkTermSteps_holds (hI : I.Accounts A) : ∀ steps : List TermStep,
    A.Holds (TermTree.stepConstructs steps) (TermTree.stepReferences steps) pendingSteps
      (I.walkTermSteps steps)
  | [] => A.pure pendingSteps []
  | .mk operator place factor :: steps => by
      have hstep : A.Holds factor.constructs factor.references (fun s => s.2.pending)
          (I.walkTermStep (.mk operator place factor)) :=
        A.map (operator, ·) (walkFactor_holds hI factor) fun _ => rfl
      exact A.bind hstep fun s =>
        A.hold s.2.pending (walkTermSteps_holds hI steps) fun ss => A.pure pendingSteps (s :: ss)

theorem walkFactor_holds (hI : I.Accounts A) : ∀ x : FactorTree,
    A.Holds x.constructs x.references Operand.pending (I.walkFactor x)
  | .reference _ name => A.pure Operand.pending (.variable name.text name.span)
  | .constant literal => A.map Operand.value (hI.constant literal.text literal.span) fun _ => rfl
  | .group inner =>
      A.finish (walk_holds hI inner) fun value =>
        A.map Operand.value (hI.group value inner.span) fun _ => rfl
  | .call span name first others => by
      have hcall : ∀ es, A.Holds [.call name.text span] [] Operand.pending
          (I.call name.text es span >>= fun v => pure (.value v)) :=
        fun es => A.map Operand.value (hI.call name.text es span) fun _ => rfl
      have h := A.andThen (hI.enterCall name.text span) fun _ =>
        A.andThen (walk_holds hI first) fun e =>
          A.andThen (walkArguments_holds hI others) fun es => hcall (e :: es)
      -- The call is met before its arguments, and again after them.
      refine A.congr h (fun c => ?_) fun l => ?_
      · rw [FactorTree.constructs]
        grind
      · rw [FactorTree.references]
        grind

theorem walkArguments_holds (hI : I.Accounts A) : ∀ es : List ExpressionTree,
    A.Holds (ExpressionTree.argumentConstructs es) (ExpressionTree.argumentReferences es)
      nothingPending (I.walkArguments es)
  | [] => A.pure nothingPending []
  | e :: es =>
      A.andThen (walk_holds hI e) fun a => A.map (a :: ·) (walkArguments_holds hI es) fun _ => rfl

end

end Walk

end Interpretation

end MetricFormula
