/-
  Proofs/Protocol: what an interpretation can rely on.

  If no handler fails, the calls that are made when a text is interpreted follow a protocol
  (`Protocol`): every value that is returned is passed on once, in the order of the text,
  no call goes without what its kind needs, and the calls about a function call enclose
  those about its arguments.  If the text has no parse tree, no handler is called
  (`trace_follows_protocol`).
-/
import MetricFormula.Proofs.Interpretation.Conduct
import MetricFormula.Proofs.Variables

set_option autoImplicit false

namespace MetricFormula

open MetricFormula.Grammar

/-- What the calls about a text with some constructs do with the values that they return.
The value numbered `result` is that of the whole text. -/
structure Protocol (cs : List Construct) (calls : List NumberedCall) (result : Nat) : Prop where
  /-- Every value is given to one call, in one place, or else it is the result. -/
  passedOnce : ∀ (i : Nat) (c : NumberedCall), calls[i]? = some c → c.returns = true →
    (calls.flatMap NumberedCall.given ++ [result]).count i = 1
  /-- The result is a value that a call has returned. -/
  resultReturned : ∃ c, calls[result]? = some c ∧ c.returns = true
  /-- A call is given only values that earlier calls have returned. -/
  passedLater : ∀ (i : Nat) (c : NumberedCall), calls[i]? = some c → ∀ j ∈ c.given,
    j < i ∧ ∃ c', calls[j]? = some c' ∧ c'.returns = true
  /-- The operands in a list stand in the order of the text. -/
  inTextOrder : ∀ c ∈ calls, ∀ xs ∈ c.lists, InTextOrder calls xs
  /-- An expression has something that is added, a term something that multiplies, and a
  function call an argument. -/
  supplied : ∀ c ∈ calls, c.Supplied
  /-- Only function calls of the text are entered or completed. -/
  invoked : ∀ c ∈ calls, ∀ name span, c.invocation = some (name, span) → .call name span ∈ cs
  /-- Each function call of the text is entered once, right before the calls about its
  arguments, and completed once, right after them. -/
  brackets : ∀ name span, .call name span ∈ cs → Brackets name span calls

/-- The calls about a whole text follow the protocol. -/
theorem Conducts.protocol {n m : Nat} {cs ds : List Construct} {calls : List NumberedCall}
    {result : Nat} (h : Conducts n m cs [] calls [.value result]) (hcs : ∀ c, c ∈ ds ↔ c ∈ cs) :
    Protocol ds calls result where
  passedOnce _ _ hc hreturns := h.passes.count_eq_one hc hreturns
  resultReturned := h.passes.exists_returning (List.mem_append_right _ (List.mem_singleton.mpr rfl))
  passedLater _ _ hc _ hj := h.passes.exists_earlier hc hj
  inTextOrder := h.inTextOrder
  supplied := h.supplied
  invoked c hc name span hname := (hcs _).mpr (h.invoked c hc name span hname)
  brackets name span hmem := h.brackets name span ((hcs _).mp hmem)

namespace Interpretation

variable {σ ε τ φ : Type}

/-! ## Handlers that do not fail -/

/-- Whatever it is given, no handler fails. -/
structure NeverFails (I : Interpretation σ ε τ φ) : Prop where
  expression : ∀ positive negative span s,
    ∃ a s', (I.expression positive negative span).runFrom s = (.ok a, s')
  term : ∀ numerator denominator span s,
    ∃ a s', (I.term numerator denominator span).runFrom s = (.ok a, s')
  enterCall : ∀ name span s, ∃ a s', (I.enterCall name span).runFrom s = (.ok a, s')
  call : ∀ name arguments span s, ∃ a s', (I.call name arguments span).runFrom s = (.ok a, s')
  constant : ∀ literal span s, ∃ a s', (I.constant literal span).runFrom s = (.ok a, s')
  group : ∀ inner span s, ∃ a s', (I.group inner span).runFrom s = (.ok a, s')

theorem indifferent_neverFails : (indifferent fun _ => none).NeverFails where
  expression _ _ _ s := ⟨(), s, rfl⟩
  term _ _ _ s := ⟨(), s, rfl⟩
  enterCall _ _ s := ⟨(), s, rfl⟩
  call _ _ _ s := ⟨(), s, rfl⟩
  constant _ _ s := ⟨(), s, rfl⟩
  group _ _ s := ⟨(), s, rfl⟩

end Interpretation

/-- `x` comes to a result, and makes the calls that `y` makes. -/
def Handled.Performs {σ α β : Type} (view : α → β) (x : Handled (List TraceEntry × σ) α)
    (y : Handled (List NumberedCall) β) : Prop :=
  ∀ entries s, ∃ a added s', x.runFrom (entries, s) = (.ok a, entries ++ added, s') ∧
    y.Writes (entries.map TraceEntry.call) (added.map TraceEntry.call) (view a)

/-- Steps of a traced interpretation that does not fail perform those of `numbered`. -/
def Correspondence.performing (σ : Type) :
    Correspondence (List TraceEntry × σ) (List NumberedCall) where
  Holds := Handled.Performs
  pure view a entries s := by
    refine ⟨a, [], s, ?_, .pure _ _⟩
    rw [Handled.runFrom_pure, List.append_nil]
  bind := by
    intro α β γ δ view view' x y k l hx hk entries s
    obtain ⟨a, added, s', hrun, hwrites⟩ := hx entries s
    obtain ⟨b, more, s'', hmore, hmoreWrites⟩ := hk a (entries ++ added) s'
    rw [List.map_append] at hmoreWrites
    refine ⟨b, added ++ more, s'', ?_, ?_⟩
    · rw [Handled.runFrom_bind, hrun, ← List.append_assoc]
      exact hmore
    · rw [List.map_append]
      exact hwrites.bind hmoreWrites

namespace Interpretation

variable {σ ε τ φ : Type}

/-- The number of a value is how many calls there were before. -/
theorem tracedStep_performs {α β γ : Type} {call : NumberedCall} (number : Nat → α → β)
    (view : β → γ) {number' : Nat → γ} {x : Handled σ α}
    (hx : ∀ s, ∃ a s', x.runFrom s = (.ok a, s')) (hview : ∀ n a, view (number n a) = number' n) :
    Handled.Performs view (tracedStep call number x) (numberedStep call number') := by
  intro entries s
  obtain ⟨a, s', hrun⟩ := hx s
  refine ⟨number entries.length a, [⟨call, none⟩], s', ?_, ?_⟩
  · change ((x.runFrom s).1.map (number entries.length),
      entries ++ [⟨call, faultOf (x.runFrom s).1⟩], (x.runFrom s).2) = _
    rw [hrun]
    rfl
  · change (Except.ok (number' (entries.map TraceEntry.call).length), _) = (Except.ok _, _)
    rw [hview, List.length_map]
    rfl

theorem traced_performs {I : Interpretation σ ε τ φ} (h : I.NeverFails) :
    Corresponds (.performing σ) I.traced numbered Prod.fst Prod.fst Prod.fst where
  expression _ _ _ := tracedStep_performs Prod.mk Prod.fst (h.expression _ _ _) fun _ _ => rfl
  term _ _ _ := tracedStep_performs Prod.mk Prod.fst (h.term _ _ _) fun _ _ => rfl
  enterCall _ _ := tracedStep_performs (fun _ _ => ()) id (h.enterCall _ _) fun _ _ => rfl
  call _ _ _ := tracedStep_performs Prod.mk Prod.fst (h.call _ _ _) fun _ _ => rfl
  constant _ _ := tracedStep_performs Prod.mk Prod.fst (h.constant _ _) fun _ _ => rfl
  group _ _ := tracedStep_performs Prod.mk Prod.fst (h.group _ _) fun _ _ => rfl

end Interpretation

/-! ## Texts -/

/-- No handler is called for a text without a parse tree.  For any other text, an
interpretation whose handlers do not fail comes to a value, and its calls follow the
protocol for the function calls that the text shows. -/
theorem trace_follows_protocol {σ ε τ φ : Type} (I : Interpretation σ ε τ φ) (maxDepth : Nat)
    (source : String) (s : σ) :
    (∀ e, Interpretation.parse maxDepth source = .error e → I.trace maxDepth source s = []) ∧
    (I.NeverFails → ∀ t, Interpretation.parse maxDepth source = .ok t →
      ∃ ps number value s', (∀ qs, CutAt (Cursor.ofString source) qs ↔ qs = ps) ∧
        (I.run maxDepth source).runFrom s = (.ok value, s') ∧
        (I.traced.run maxDepth source).runFrom ([], s) =
          (.ok (number, value), I.trace maxDepth source s, s') ∧
        Protocol (constructs ps) ((I.trace maxDepth source s).map TraceEntry.call) number) := by
  constructor
  · intro e he
    unfold Interpretation.trace Interpretation.run
    rw [he]
    rfl
  · intro hI t ht
    obtain ⟨ps, hcut, hconstructs, -⟩ := Interpretation.exists_cut_of_parse ht
    obtain ⟨ps', n, m, -, hstands⟩ := tree_stands (Interpretation.parse_eq_ok.mp ht).2
    obtain ⟨calls, number, hwrites, hconducts⟩ := hstands.conducts []
    obtain ⟨⟨number', value⟩, entries, s', hrun, hperforms⟩ :=
      Interpretation.walk_corresponds (Interpretation.traced_performs hI) t [] s
    obtain ⟨rfl, rfl⟩ := hwrites.unique hperforms
    have htraced : (I.traced.run maxDepth source).runFrom ([], s) =
        (.ok (number, value), entries, s') := by
      unfold Interpretation.run
      rw [ht]
      exact hrun
    have htrace : I.trace maxDepth source s = entries := by
      rw [Interpretation.trace, htraced]
    refine ⟨ps, number, value, s', hcut, ?_, htrace ▸ htraced, ?_⟩
    · rw [I.runFrom_run_eq maxDepth source [] s, htraced]
      rfl
    · rw [htrace]
      exact hconducts.protocol hconstructs

/-- A function call over what is in parentheses, and a text that ends too early. -/
theorem trace_follows_protocol_call :
    (∃ ps number, (∀ qs, CutAt (Cursor.ofString "f(x, 1) / (2 - y)") qs ↔ qs = ps) ∧
      .call "f" ⟨0, 7⟩ ∈ constructs ps ∧
      Protocol (constructs ps) (((Interpretation.indifferent fun _ => none).trace 8
        "f(x, 1) / (2 - y)" ()).map TraceEntry.call) number) ∧
    (Interpretation.indifferent fun _ => none).trace 8 "f(x, 1" () = [] := by
  have hconstructs : (Interpretation.parse 8 "f(x, 1) / (2 - y)").map (·.constructs) =
      .ok [.literal "1" ⟨5, 6⟩, .call "f" ⟨0, 7⟩, .literal "2" ⟨11, 12⟩] := by decide +kernel
  obtain ⟨e, he⟩ := exists_eq_error (x := Interpretation.parse 8 "f(x, 1") (by decide +kernel)
  cases ht : Interpretation.parse 8 "f(x, 1) / (2 - y)" with
  | error e' => simp [ht, Except.map] at hconstructs
  | ok t =>
      rw [ht] at hconstructs
      obtain ⟨ps, number, -, -, hcut, -, -, hprotocol⟩ := (trace_follows_protocol
        (Interpretation.indifferent fun _ => none) 8 "f(x, 1) / (2 - y)" ()).2
        Interpretation.indifferent_neverFails t ht
      obtain ⟨ps', hcut', hmem, -⟩ := Interpretation.exists_cut_of_parse ht
      obtain rfl := (hcut' ps).mp ((hcut ps).mpr rfl)
      refine ⟨⟨ps, number, hcut, (hmem _).mpr ?_, hprotocol⟩, (trace_follows_protocol
        (Interpretation.indifferent fun _ => none) 8 "f(x, 1" ()).1 e he⟩
      have hlist : t.constructs = _ := Except.ok.inj hconstructs
      rw [hlist]
      simp

end MetricFormula
