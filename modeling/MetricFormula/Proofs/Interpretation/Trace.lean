/-
  Proofs/Interpretation/Trace: the calls that a walk makes, and which of them failed.

  In a trace every call of a handler is an entry, with the fault that it failed with if it
  did.  The values that a handler is given stand in its entry as numbers: the number of a
  value is the place in the trace of the call that returned it.

  `traced I` does what `I` does and writes the trace beside the state of `I`; it hands on
  every value with its number.  Nothing else is different: without the numbers it comes to
  what `I` comes to (`runFrom_run_eq`), and without the numbers and the faults its trace is
  what `recorded I` puts down (`trace_handlerCalls`).

  `numbered` has no values but the numbers.  It makes the calls that any interpretation
  would make if none of its handlers failed.
-/
import MetricFormula.Interpretation.Recording
import MetricFormula.Proofs.Interpretation.Correspondence

set_option autoImplicit false

namespace MetricFormula

open MetricFormula.Grammar

@[simp] theorem Operand.shape_map {φ ψ : Type} (view : φ → ψ) (x : Operand φ) :
    (x.map view).shape = x.shape := by
  cases x <;> rfl

/-- A call of a handler, with the numbers of the values that it was given. -/
inductive NumberedCall where
  | expression (positive negative : List Nat) (span : Span)
  | term (numerator denominator : List (Operand Nat)) (span : Span)
  | enterCall (name : String) (span : Span)
  | call (name : String) (arguments : List Nat) (span : Span)
  | reference (name : String) (span : Span)
  | constant (literal : String) (span : Span)
  | group (inner : Nat) (span : Span)
  deriving DecidableEq, Repr

namespace NumberedCall

/-- Where the construct stands that the call is about. -/
def span : NumberedCall → Span
  | expression _ _ span => span
  | term _ _ span => span
  | enterCall _ span => span
  | call _ _ span => span
  | reference _ span => span
  | constant _ span => span
  | group _ span => span

/-- The call without the numbers. -/
def handlerCall : NumberedCall → HandlerCall
  | expression positive negative span => .expression positive.length negative.length span
  | term numerator denominator span =>
      .term (numerator.map Operand.shape) (denominator.map Operand.shape) span
  | enterCall name span => .enterCall name span
  | call name arguments span => .call name arguments.length span
  | reference name span => .reference name span
  | constant literal span => .constant literal span
  | group _ span => .group span

end NumberedCall

/-- A call in a trace, and the fault that its handler failed with. -/
structure TraceEntry where
  call : NumberedCall
  fault? : Option Fault
  deriving DecidableEq

namespace Interpretation

variable {σ ε τ φ : Type}

/-- The fault that a step failed with. -/
def faultOf {α : Type} : Except Fault α → Option Fault
  | .ok _ => none
  | .error e => some e

/-- A step with its entry written to the trace, where `number` puts the number of the call
to its result. -/
def tracedStep {α β : Type} (call : NumberedCall) (number : Nat → α → β) (x : Handled σ α) :
    Handled (List TraceEntry × σ) β :=
  ExceptT.mk fun (entries, s) =>
    let (result, s') := x.runFrom s
    (result.map (number entries.length), entries ++ [⟨call, faultOf result⟩], s')

/-- The same interpretation with a trace of its calls, and a number for each value. -/
def traced (I : Interpretation σ ε τ φ) :
    Interpretation (List TraceEntry × σ) (Nat × ε) (Nat × τ) (Nat × φ) where
  expression positive negative span :=
    tracedStep (.expression (positive.map Prod.fst) (negative.map Prod.fst) span) Prod.mk
      (I.expression (positive.map Prod.snd) (negative.map Prod.snd) span)
  term numerator denominator span :=
    tracedStep
      (.term (numerator.map (·.map Prod.fst)) (denominator.map (·.map Prod.fst)) span) Prod.mk
      (I.term (numerator.map (·.map Prod.snd)) (denominator.map (·.map Prod.snd)) span)
  enterCall name span := tracedStep (.enterCall name span) (fun _ _ => ()) (I.enterCall name span)
  call name arguments span :=
    tracedStep (.call name (arguments.map Prod.fst) span) Prod.mk
      (I.call name (arguments.map Prod.snd) span)
  reference name span := tracedStep (.reference name span) Prod.mk (I.reference name span)
  constant literal span := tracedStep (.constant literal span) Prod.mk (I.constant literal span)
  group inner span := tracedStep (.group inner.1 span) Prod.mk (I.group inner.2 span)

/-- The trace of the calls that are made when a text is interpreted from a state. -/
def trace (I : Interpretation σ ε τ φ) (maxDepth : Nat) (source : String) (s : σ) :
    List TraceEntry :=
  ((I.traced.run maxDepth source).runFrom ([], s)).2.1

/-! ## Tracing changes nothing -/

/-- Traced steps show what the steps themselves come to. -/
theorem tracedStep_mirrors {α β : Type} {call : NumberedCall} {number : Nat → α → β}
    {view : β → α} (x : Handled σ α) (hview : ∀ n a, view (number n a) = a) :
    Handled.Mirrors Prod.snd view (tracedStep call number x) x := by
  rintro ⟨entries, s⟩
  change x.runFrom s = (((x.runFrom s).1.map (number entries.length)).map view, (x.runFrom s).2)
  rcases x.runFrom s with ⟨e | a, s'⟩
  · rfl
  · exact congrArg (fun b => (Except.ok b, s')) (hview entries.length a).symm

theorem traced_corresponds (I : Interpretation σ ε τ φ) :
    Corresponds (.mirroring Prod.snd) I.traced I Prod.snd Prod.snd Prod.snd where
  expression _ _ _ := tracedStep_mirrors _ fun _ _ => rfl
  term _ _ _ := tracedStep_mirrors _ fun _ _ => rfl
  enterCall _ _ := tracedStep_mirrors _ fun _ _ => rfl
  call _ _ _ := tracedStep_mirrors _ fun _ _ => rfl
  constant _ _ := tracedStep_mirrors _ fun _ _ => rfl
  group _ _ := tracedStep_mirrors _ fun _ _ => rfl

/-- Without the trace and the numbers, a traced interpretation comes to what the
interpretation itself comes to. -/
theorem runFrom_run_eq (I : Interpretation σ ε τ φ) (maxDepth : Nat) (source : String)
    (entries : List TraceEntry) (s : σ) :
    (I.run maxDepth source).runFrom s =
      (((I.traced.run maxDepth source).runFrom (entries, s)).1.map Prod.snd,
        ((I.traced.run maxDepth source).runFrom (entries, s)).2.2) := by
  unfold run
  cases parse maxDepth source with
  | error e => rfl
  | ok t => exact walk_corresponds I.traced_corresponds t (entries, s)

/-- The calls of a trace without their numbers, and the state beside it. -/
def recordOf (entries : List TraceEntry × σ) : List HandlerCall × σ :=
  (entries.1.map fun e => e.call.handlerCall, entries.2)

theorem tracedStep_mirrors_recordedStep {α β : Type} {call : NumberedCall} {number : Nat → α → β}
    {view : β → α} {entry : HandlerCall} (x : Handled σ α) (hentry : call.handlerCall = entry)
    (hview : ∀ n a, view (number n a) = a) :
    Handled.Mirrors recordOf view (tracedStep call number x) (recordedStep entry x) := by
  rintro ⟨entries, s⟩
  subst hentry
  change ((x.runFrom s).1, _, (x.runFrom s).2) =
    (((x.runFrom s).1.map (number entries.length)).map view,
      recordOf (entries ++ [_], (x.runFrom s).2))
  rw [recordOf, List.map_append]
  rcases x.runFrom s with ⟨e | a, s'⟩
  · rfl
  · exact congrArg (fun b => (Except.ok b, _)) (hview entries.length a).symm

theorem traced_corresponds_recorded (I : Interpretation σ ε τ φ) :
    Corresponds (.mirroring recordOf) I.traced I.recorded Prod.snd Prod.snd Prod.snd where
  expression _ _ _ := by
    refine tracedStep_mirrors_recordedStep _ ?_ fun _ _ => rfl
    simp [NumberedCall.handlerCall]
  term _ _ _ := by
    refine tracedStep_mirrors_recordedStep _ ?_ fun _ _ => rfl
    simp [NumberedCall.handlerCall]
  enterCall _ _ := tracedStep_mirrors_recordedStep _ rfl fun _ _ => rfl
  call _ _ _ := by
    refine tracedStep_mirrors_recordedStep _ ?_ fun _ _ => rfl
    simp [NumberedCall.handlerCall]
  constant _ _ := tracedStep_mirrors_recordedStep _ rfl fun _ _ => rfl
  group _ _ := tracedStep_mirrors_recordedStep _ rfl fun _ _ => rfl

/-- Without the numbers and the faults, a trace is the record of the calls. -/
theorem trace_handlerCalls (I : Interpretation σ ε τ φ) (maxDepth : Nat) (source : String)
    (s : σ) :
    (I.trace maxDepth source s).map (fun e => e.call.handlerCall) =
      ((I.recorded.run maxDepth source).runFrom ([], s)).2.1 := by
  unfold trace run
  cases parse maxDepth source with
  | error e => rfl
  | ok t =>
      have h := walk_corresponds I.traced_corresponds_recorded t ([], s)
      exact (congrArg (fun r => r.2.1) h).symm

/-! ## The calls without the values -/

/-- A call without any doing of its own: its number is its result. -/
def numberedStep {β : Type} (call : NumberedCall) (number : Nat → β) :
    Handled (List NumberedCall) β :=
  ExceptT.mk fun calls => (.ok (number calls.length), calls ++ [call])

/-- Takes every call, and knows of a value only its number. -/
def numbered : Interpretation (List NumberedCall) Nat Nat Nat where
  expression positive negative span := numberedStep (.expression positive negative span) id
  term numerator denominator span := numberedStep (.term numerator denominator span) id
  enterCall name span := numberedStep (.enterCall name span) fun _ => ()
  call name arguments span := numberedStep (.call name arguments span) id
  reference name span := numberedStep (.reference name span) id
  constant literal span := numberedStep (.constant literal span) id
  group inner span := numberedStep (.group inner span) id

end Interpretation

/-- From some calls on, a step makes the calls `written` and comes to a result. -/
def Handled.Writes {β : Type} (calls : List NumberedCall) (y : Handled (List NumberedCall) β)
    (written : List NumberedCall) (b : β) : Prop :=
  y.runFrom calls = (.ok b, calls ++ written)

namespace Handled.Writes

variable {β γ : Type} {calls written more : List NumberedCall} {b : β} {c : γ}
  {y : Handled (List NumberedCall) β} {k : β → Handled (List NumberedCall) γ}

theorem pure (calls : List NumberedCall) (b : β) : Writes calls (Pure.pure b) [] b := by
  rw [Writes, runFrom_pure, List.append_nil]

theorem bind (hy : Writes calls y written b) (hk : Writes (calls ++ written) (k b) more c) :
    Writes calls (y >>= k) (written ++ more) c := by
  unfold Writes at *
  rw [runFrom_bind, hy, ← List.append_assoc]
  exact hk

/-- A result that is only rearranged. -/
theorem map (hy : Writes calls y written b) (f : β → γ) :
    Writes calls (y >>= fun b => Pure.pure (f b)) written (f b) := by
  have h : Writes calls (y >>= fun b => Pure.pure (f b)) (written ++ []) (f b) :=
    hy.bind (.pure _ (f b))
  rwa [List.append_nil] at h

/-- Only one run is possible. -/
theorem unique {written' : List NumberedCall} {b' : β} (h : Writes calls y written b)
    (h' : Writes calls y written' b') : written = written' ∧ b = b' := by
  have hrun := h.symm.trans h'
  have hresult := Except.ok.inj (congrArg Prod.fst hrun)
  exact ⟨List.append_cancel_left (congrArg Prod.snd hrun), hresult⟩

open Interpretation

theorem expression (calls : List NumberedCall) (positive negative : List Nat) (span : Span) :
    Writes calls (numbered.expression positive negative span)
      [.expression positive negative span] calls.length := rfl

theorem term (calls : List NumberedCall) (numerator denominator : List (Operand Nat))
    (span : Span) :
    Writes calls (numbered.term numerator denominator span) [.term numerator denominator span]
      calls.length := rfl

theorem enterCall (calls : List NumberedCall) (name : String) (span : Span) :
    Writes calls (numbered.enterCall name span) [.enterCall name span] () := rfl

theorem call (calls : List NumberedCall) (name : String) (arguments : List Nat) (span : Span) :
    Writes calls (numbered.call name arguments span) [.call name arguments span]
      calls.length := rfl

theorem constant (calls : List NumberedCall) (literal : String) (span : Span) :
    Writes calls (numbered.constant literal span) [.constant literal span] calls.length := rfl

theorem group (calls : List NumberedCall) (inner : Nat) (span : Span) :
    Writes calls (numbered.group inner span) [.group inner span] calls.length := rfl

end Handled.Writes

end MetricFormula
