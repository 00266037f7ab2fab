/-
  Proofs/FailFast: a walk stops at the first handler that fails.

  Which calls a walk makes depends on the tree alone, as long as no handler fails: they are
  those of `numbered`.  From a trace on, a step either makes all of its calls
  (`Completes`), or it makes the first few of them and stops at the one that fails, with
  the fault of that call (`Stops`).  `Makes` says so of a step of a traced interpretation
  and the step of `numbered`, and it holds of whole walks (`walk_makes`).

  So the traces of any two interpretations of a text agree up to the first call that fails
  in one of them (`trace_fails_fast`).
-/
import MetricFormula.Proofs.Bindings
import MetricFormula.Proofs.Interpretation.Trace

set_option autoImplicit false

namespace MetricFormula

open MetricFormula.Grammar

/-! ## Traces that complete, and traces that stop -/

/-- All of the calls are made, and none of them fails. -/
structure Completes (calls : List NumberedCall) (entries : List TraceEntry) : Prop where
  calls_eq : entries.map TraceEntry.call = calls
  faultless : ∀ e ∈ entries, e.fault? = none

/-- Some first few of the calls are made, and only the last one that is made fails. -/
inductive Stops (calls : List NumberedCall) (fault : Fault) : List TraceEntry → Prop
  | mk {before : List TraceEntry} {last : TraceEntry} :
      (∀ e ∈ before, e.fault? = none) → last.fault? = some fault →
      (before ++ [last]).map TraceEntry.call <+: calls → Stops calls fault (before ++ [last])

section Traces

variable {calls more : List NumberedCall} {entries entries' : List TraceEntry} {fault : Fault}

theorem Completes.append (h : Completes calls entries) (h' : Completes more entries') :
    Completes (calls ++ more) (entries ++ entries') where
  calls_eq := by rw [List.map_append, h.calls_eq, h'.calls_eq]
  faultless := List.forall_mem_append.mpr ⟨h.faultless, h'.faultless⟩

/-- Calls that are all made, and then some that stop. -/
theorem Completes.stops (h : Completes calls entries) (h' : Stops more fault entries') :
    Stops (calls ++ more) fault (entries ++ entries') := by
  obtain ⟨hbefore, hlast, hmade⟩ := h'
  rw [← List.append_assoc]
  refine .mk (List.forall_mem_append.mpr ⟨h.faultless, hbefore⟩) hlast ?_
  rw [List.append_assoc, List.map_append, h.calls_eq]
  exact (List.prefix_append_right_inj calls).mpr hmade

/-- What would have come after the call that failed makes no difference. -/
theorem Stops.before (h : Stops calls fault entries) (more : List NumberedCall) :
    Stops (calls ++ more) fault entries := by
  obtain ⟨hbefore, hlast, hmade⟩ := h
  exact .mk hbefore hlast (hmade.trans (List.prefix_append calls more))

theorem Completes.take_calls (h : Completes calls entries) (n : Nat) :
    (entries.take n).map TraceEntry.call = calls.take n := by
  rw [List.map_take, h.calls_eq]

/-- Up to the call that failed, the calls are those that should be made. -/
theorem Stops.take_calls (h : Stops calls fault entries) {k : Nat}
    (hk : ∀ e ∈ entries.take k, e.fault? = none) :
    (entries.take (k + 1)).map TraceEntry.call = calls.take (k + 1) := by
  obtain @⟨before, last, -, hlast, rest, rfl⟩ := h
  have hlength : k + 1 ≤ ((before ++ [last]).map TraceEntry.call).length := by
    by_contra hshort
    rw [List.length_map, Nat.not_le, Nat.lt_succ_iff] at hshort
    have hnone := hk last (by simp [List.take_of_length_le hshort])
    simp [hnone] at hlast
  rw [List.map_take, List.take_append_of_le_length hlength]

/-- The call that failed is the last one. -/
theorem Stops.eq_nil {before after : List TraceEntry} {e : TraceEntry} {fault' : Fault}
    (h : Stops calls fault (before ++ e :: after)) (he : e.fault? = some fault') :
    after = [] ∧ fault = fault' := by
  generalize hentries : before ++ e :: after = entries at h
  obtain @⟨init, last, hinit, hlast, -⟩ := h
  rcases List.eq_nil_or_concat after with rfl | ⟨between, final, rfl⟩
  · obtain ⟨-, hends⟩ := List.append_inj' hentries rfl
    obtain rfl := List.singleton_inj.mp hends
    exact ⟨rfl, Option.some.inj (hlast.symm.trans he)⟩
  · have hsplit : (before ++ e :: between) ++ [final] = init ++ [last] := by
      rw [← hentries, List.append_assoc, List.cons_append, List.concat_eq_append]
    obtain ⟨rfl, -⟩ := List.append_inj' hsplit rfl
    simp [hinit e (by simp)] at he

end Traces

/-! ## Steps that make calls -/

namespace Handled

variable {σ α β γ δ : Type} {calls written more : List NumberedCall} {view : α → β} {b : β}
  {view' : γ → δ} {c : δ} {x : Handled (List TraceEntry × σ) α}
  {k : α → Handled (List TraceEntry × σ) γ}

/-- From a trace of some calls on, a step makes the calls `written` and comes to a result
that is seen as `b`, or else it stops at the first of them that fails. -/
def Makes (calls written : List NumberedCall) (view : α → β) (b : β)
    (x : Handled (List TraceEntry × σ) α) : Prop :=
  ∀ entries s, entries.map TraceEntry.call = calls →
    (∃ a added s', x.runFrom (entries, s) = (.ok a, entries ++ added, s') ∧ view a = b ∧
      Completes written added) ∨
    ∃ fault added s', x.runFrom (entries, s) = (.error fault, entries ++ added, s') ∧
      Stops written fault added

namespace Makes

theorem pure (calls : List NumberedCall) (view : α → β) (a : α) :
    Makes calls [] view (view a) (Pure.pure a : Handled (List TraceEntry × σ) α) := by
  intro entries s _
  refine .inl ⟨a, [], s, ?_, rfl, rfl, by simp⟩
  rw [runFrom_pure, List.append_nil]

theorem bind (hx : Makes calls written view b x)
    (hk : ∀ a, view a = b → Makes (calls ++ written) more view' c (k a)) :
    Makes calls (written ++ more) view' c (x >>= k) := by
  intro entries s hentries
  rw [runFrom_bind]
  obtain ⟨a, added, s', hrun, hview, hadded⟩ | ⟨fault, added, s', hrun, hadded⟩ :=
    hx entries s hentries
  · have hcalls : (entries ++ added).map TraceEntry.call = calls ++ written := by
      rw [List.map_append, hentries, hadded.calls_eq]
    rw [hrun]
    dsimp only
    obtain ⟨d, added', s'', hrun', hview', hadded'⟩ | ⟨fault, added', s'', hrun', hadded'⟩ :=
      hk a hview (entries ++ added) s' hcalls
    · rw [hrun', List.append_assoc]
      exact .inl ⟨d, added ++ added', s'', rfl, hview', hadded.append hadded'⟩
    · rw [hrun', List.append_assoc]
      exact .inr ⟨fault, added ++ added', s'', rfl, hadded.stops hadded'⟩
  · rw [hrun]
    exact .inr ⟨fault, added, s', rfl, hadded.before more⟩

end Makes

end Handled

namespace Interpretation

open Handled

variable {σ ε τ φ : Type}

/-- A call either completes or stops. -/
theorem tracedStep_makes {α β γ : Type} {calls : List NumberedCall} {call : NumberedCall}
    (number : Nat → α → β) (view : β → γ) {n : γ} (x : Handled σ α)
    (hview : ∀ a, view (number calls.length a) = n) :
    Makes calls [call] view n (tracedStep call number x) := by
  rintro entries s rfl
  rw [List.length_map] at hview
  have hrun : (tracedStep call number x).runFrom (entries, s) =
      ((x.runFrom s).1.map (number entries.length),
        entries ++ [⟨call, faultOf (x.runFrom s).1⟩], (x.runFrom s).2) := rfl
  rw [hrun]
  rcases x.runFrom s with ⟨fault | a, s'⟩
  · have hstops : Stops [call] fault ([] ++ [⟨call, some fault⟩]) :=
      .mk (by simp) rfl List.prefix_rfl
    exact .inr ⟨fault, [⟨call, some fault⟩], s', rfl, hstops⟩
  · exact .inl ⟨number entries.length a, [⟨call, none⟩], s', rfl, hview a, rfl, by simp⟩

/-- The number of a value is how many calls there were before. -/
theorem tracedStep_makes_length {α : Type} {calls : List NumberedCall} {call : NumberedCall}
    (x : Handled σ α) : Makes calls [call] Prod.fst calls.length (tracedStep call Prod.mk x) :=
  tracedStep_makes Prod.mk Prod.fst x fun _ => rfl

/-- A call whose value is handed on as an operand. -/
theorem operand_makes {calls : List NumberedCall} {call : NumberedCall} (x : Handled σ φ) :
    Makes calls ([call] ++ []) (Operand.map Prod.fst) (.value calls.length)
      (tracedStep call Prod.mk x >>= fun value => pure (.value value)) := by
  refine (tracedStep_makes_length x).bind fun value hvalue => ?_
  rw [← hvalue]
  exact .pure _ (Operand.map Prod.fst) (.value value)

variable (I : Interpretation σ ε τ φ)

-- What `numbered` writes is found before `I` runs and not along with it: a handler of `I` may
-- have no result to go on with, and still it has to be known which calls would have come next.
mutual

/-- A walk makes the calls that `numbered` makes, or it stops at the first that fails. -/
theorem walk_makes : ∀ (t : ExpressionTree) (calls : List NumberedCall),
    ∃ written n, Writes calls (numbered.walk t) written n ∧
      Makes calls written Prod.fst n (I.traced.walk t)
  | .mk span first steps, calls => by
      obtain ⟨written, n, hwrites, hfirst⟩ := walkTerm_makes first calls
      obtain ⟨more, ns, hmore, hsteps⟩ := walkSteps_makes steps (calls ++ written)
      refine ⟨_, _, hwrites.bind (hmore.bind (.expression _ _ _ _)), hfirst.bind ?_⟩
      rintro x rfl
      refine hsteps.bind ?_
      rintro xs rfl
      rw [added_map, subtracted_map]
      exact tracedStep_makes_length _

theorem walkSteps_makes : ∀ (steps : List ExpressionStep) (calls : List NumberedCall),
    ∃ written ns, Writes calls (numbered.walkSteps steps) written ns ∧
      Makes calls written (List.map (Prod.map id Prod.fst)) ns (I.traced.walkSteps steps)
  | [], calls => ⟨[], [], .pure calls [], .pure calls _ []⟩
  | step :: steps, calls => by
      obtain ⟨written, n, hwrites, hstep⟩ := walkStep_makes step calls
      obtain ⟨more, ns, hmore, hsteps⟩ := walkSteps_makes steps (calls ++ written)
      refine ⟨_, n :: ns, hwrites.bind (hmore.bind (.pure _ _)), hstep.bind ?_⟩
      rintro x rfl
      refine hsteps.bind ?_
      rintro xs rfl
      exact .pure _ (List.map (Prod.map id Prod.fst)) (x :: xs)

theorem walkStep_makes : ∀ (step : ExpressionStep) (calls : List NumberedCall),
    ∃ written n, Writes calls (numbered.walkStep step) written n ∧
      Makes calls written (Prod.map id Prod.fst) n (I.traced.walkStep step)
  | .mk operator _ term, calls => by
      obtain ⟨written, n, hwrites, hterm⟩ := walkTerm_makes term calls
      refine ⟨_, (operator, n), hwrites.bind (.pure _ _), hterm.bind ?_⟩
      rintro x rfl
      exact .pure _ (Prod.map id Prod.fst) (operator, x)

theorem walkTerm_makes : ∀ (t : TermTree) (calls : List NumberedCall),
    ∃ written n, Writes calls (numbered.walkTerm t) written n ∧
      Makes calls written Prod.fst n (I.traced.walkTerm t)
  | .mk span first steps, calls => by
      obtain ⟨written, n, hwrites, hfirst⟩ := walkFactor_makes first calls
      obtain ⟨more, ns, hmore, hsteps⟩ := walkTermSteps_makes steps (calls ++ written)
      refine ⟨_, _, hwrites.bind (hmore.bind (.term _ _ _ _)), hfirst.bind ?_⟩
      rintro x rfl
      refine hsteps.bind ?_
      rintro xs rfl
      rw [multiplied_map, divided_map]
      exact tracedStep_makes_length _

theorem walkTermSteps_makes : ∀ (steps : List TermStep) (calls : List NumberedCall),
    ∃ written ns, Writes calls (numbered.walkTermSteps steps) written ns ∧
      Makes calls written (List.map (Prod.map id (Operand.map Prod.fst))) ns
        (I.traced.walkTermSteps steps)
  | [], calls => ⟨[], [], .pure calls [], .pure calls _ []⟩
  | step :: steps, calls => by
      obtain ⟨written, n, hwrites, hstep⟩ := walkTermStep_makes step calls
      obtain ⟨more, ns, hmore, hsteps⟩ := walkTermSteps_makes steps (calls ++ written)
      refine ⟨_, n :: ns, hwrites.bind (hmore.bind (.pure _ _)), hstep.bind ?_⟩
      rintro x rfl
      refine hsteps.bind ?_
      rintro xs rfl
      exact .pure _ (List.map (Prod.map id (Operand.map Prod.fst))) (x :: xs)

theorem walkTermStep_makes : ∀ (step : TermStep) (calls : List NumberedCall),
    ∃ written n, Writes calls (numbered.walkTermStep step) written n ∧
      Makes calls written (Prod.map id (Operand.map Prod.fst)) n (I.traced.walkTermStep step)
  | .mk operator _ factor, calls => by
      obtain ⟨written, n, hwrites, hfactor⟩ := walkFactor_makes factor calls
      refine ⟨_, (operator, n), hwrites.bind (.pure _ _), hfactor.bind ?_⟩
      rintro x rfl
      exact .pure _ (Prod.map id (Operand.map Prod.fst)) (operator, x)

theorem walkFactor_makes : ∀ (x : FactorTree) (calls : List NumberedCall),
    ∃ written n, Writes calls (numbered.walkFactor x) written n ∧
      Makes calls written (Operand.map Prod.fst) n (I.traced.walkFactor x)
  | .call span name first others, calls => by
      have henter := Writes.enterCall calls name.text span
      have hentered : Makes calls [.enterCall name.text span] id ()
          (I.traced.enterCall name.text span) :=
        tracedStep_makes (fun _ _ => ()) id _ fun _ => rfl
      obtain ⟨written, n, hwrites, hfirst⟩ := walk_makes first
        (calls ++ [.enterCall name.text span])
      obtain ⟨more, ns, hmore, hothers⟩ := walkArguments_makes others
        (calls ++ [.enterCall name.text span] ++ written)
      have hcall := Writes.call (calls ++ [.enterCall name.text span] ++ written ++ more)
        name.text (n :: ns) span
      refine ⟨_, _, henter.bind (hwrites.bind (hmore.bind (hcall.bind (.pure _ _)))),
        hentered.bind fun _ _ => hfirst.bind ?_⟩
      rintro a rfl
      refine hothers.bind ?_
      rintro as rfl
      exact operand_makes _
  | .reference _ name, calls =>
      ⟨[], .variable name.text name.span, .pure calls _,
        .pure calls (Operand.map Prod.fst) (.variable name.text name.span)⟩
  | .constant literal, calls => by
      have hconstant := Writes.constant calls literal.text literal.span
      exact ⟨_, _, hconstant.bind (.pure _ _), operand_makes _⟩
  | .group inner, calls => by
      obtain ⟨written, n, hwrites, hinner⟩ := walk_makes inner calls
      have hgroup := Writes.group (calls ++ written) n inner.span
      refine ⟨_, _, hwrites.bind (hgroup.bind (.pure _ _)), hinner.bind ?_⟩
      rintro e rfl
      exact operand_makes _

theorem walkArguments_makes : ∀ (es : List ExpressionTree) (calls : List NumberedCall),
    ∃ written ns, Writes calls (numbered.walkArguments es) written ns ∧
      Makes calls written (List.map Prod.fst) ns (I.traced.walkArguments es)
  | [], calls => ⟨[], [], .pure calls [], .pure calls _ []⟩
  | e :: es, calls => by
      obtain ⟨written, n, hwrites, he⟩ := walk_makes e calls
      obtain ⟨more, ns, hmore, hes⟩ := walkArguments_makes es (calls ++ written)
      refine ⟨_, n :: ns, hwrites.bind (hmore.bind (.pure _ _)), he.bind ?_⟩
      rintro x rfl
      refine hes.bind ?_
      rintro xs rfl
      exact .pure _ (List.map Prod.fst) (x :: xs)

end

/-! ## Texts -/

/-- The calls that are made when a text is interpreted and none of them fails. -/
def planned (maxDepth : Nat) (source : String) : List NumberedCall :=
  ((numbered.run maxDepth source).runFrom []).2

/-- An interpretation of a text makes all the calls, or it stops with the fault of the first
that fails. -/
theorem trace_planned (maxDepth : Nat) (source : String) (s : σ) :
    Completes (planned maxDepth source) (I.trace maxDepth source s) ∨
      ∃ fault, Stops (planned maxDepth source) fault (I.trace maxDepth source s) ∧
        ((I.run maxDepth source).runFrom s).1 = .error fault := by
  rw [runFrom_run_eq I maxDepth source []]
  unfold planned trace run
  cases parse maxDepth source with
  | error e => exact .inl ⟨rfl, by simp⟩
  | ok t =>
      obtain ⟨written, n, hwrites, hmakes⟩ := walk_makes I t []
      have hplanned : ((numbered.walk t).runFrom []).2 = written := by rw [hwrites]; rfl
      dsimp only
      rw [hplanned]
      obtain ⟨x, entries, s', hrun, -, hentries⟩ | ⟨fault, entries, s', hrun, hentries⟩ :=
        hmakes [] s rfl
      · rw [hrun]
        exact .inl hentries
      · rw [hrun]
        exact .inr ⟨fault, hentries, rfl⟩

end Interpretation

/-- Two interpretations of a text call the same handlers with the same data, up to the first
call that fails in one of them and with that call; values are compared by the calls that
returned them.  The call that fails is the last one, and its fault is the result. -/
theorem trace_fails_fast {σ ε τ φ σ' ε' τ' φ' : Type} (I : Interpretation σ ε τ φ)
    (J : Interpretation σ' ε' τ' φ') (maxDepth : Nat) (source : String) (s : σ) (s' : σ') :
    (∀ k, (∀ e ∈ (I.trace maxDepth source s).take k, e.fault? = none) →
      (∀ e ∈ (J.trace maxDepth source s').take k, e.fault? = none) →
      ((I.trace maxDepth source s).take (k + 1)).map TraceEntry.call =
        ((J.trace maxDepth source s').take (k + 1)).map TraceEntry.call) ∧
    ∀ before e after fault, I.trace maxDepth source s = before ++ e :: after →
      e.fault? = some fault →
      after = [] ∧ ((I.run maxDepth source).runFrom s).1 = .error fault := by
  constructor
  · intro k hI hJ
    have hplanned : ((I.trace maxDepth source s).take (k + 1)).map TraceEntry.call =
        (Interpretation.planned maxDepth source).take (k + 1) := by
      obtain h | ⟨fault, h, -⟩ := I.trace_planned maxDepth source s
      · exact h.take_calls (k + 1)
      · exact h.take_calls hI
    obtain h | ⟨fault, h, -⟩ := J.trace_planned maxDepth source s'
    · rw [hplanned, h.take_calls]
    · rw [hplanned, h.take_calls hJ]
  · intro before e after fault htrace he
    obtain h | ⟨fault', h, hrun⟩ := I.trace_planned maxDepth source s
    · have hnone := h.faultless e (by simp [htrace])
      simp [hnone] at he
    · rw [htrace] at h
      obtain ⟨hafter, rfl⟩ := h.eq_nil he
      exact ⟨hafter, hrun⟩

/-- An evaluation stops at a call, which an interpretation that takes everything gets past. -/
theorem trace_fails_fast_at_call :
    let evaluation := (Interpretation.evaluation numberBindings).trace 8 "x * (2 + f(1)) / 3" ()
    let unchecked := (Interpretation.indifferent fun _ => none).trace 8 "x * (2 + f(1)) / 3" ()
    (evaluation.take 3).map TraceEntry.call = (unchecked.take 3).map TraceEntry.call ∧
      evaluation.map TraceEntry.fault? = [none, none, some (.unsupported .call ⟨9, 13⟩)] ∧
      (((Interpretation.evaluation numberBindings).run 8 "x * (2 + f(1)) / 3").runFrom ()).1 =
        .error (.unsupported .call ⟨9, 13⟩) := by
  have htrace : (Interpretation.evaluation numberBindings).trace 8 "x * (2 + f(1)) / 3" () =
      [⟨.constant "2" ⟨5, 6⟩, none⟩, ⟨.term [.value 0] [] ⟨5, 7⟩, none⟩] ++
        ⟨.enterCall "f" ⟨9, 13⟩, some (.unsupported .call ⟨9, 13⟩)⟩ :: [] := by decide +kernel
  have hunchecked : ∀ e ∈ ((Interpretation.indifferent fun _ => none).trace 8
      "x * (2 + f(1)) / 3" ()).take 2, e.fault? = none := by decide +kernel
  obtain ⟨hagree, hstops⟩ := trace_fails_fast (Interpretation.evaluation numberBindings)
    (Interpretation.indifferent fun _ => none) 8 "x * (2 + f(1)) / 3" () ()
  obtain ⟨-, hresult⟩ := hstops _ _ _ _ htrace rfl
  refine ⟨hagree 2 ?_ hunchecked, ?_, hresult⟩
  · rw [htrace]
    decide
  · rw [htrace]
    rfl

end MetricFormula
