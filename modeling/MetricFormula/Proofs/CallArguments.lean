/-
  Proofs/CallArguments: an evaluation does not look at the arguments of a call.

  A text with a call in it has no value.  Another text between the parentheses of the call
  makes no difference to what is evaluated, looked up or read before that is found out, and
  none to the fault but for where a call ends that it is about (`evaluate_arguments`).

  Neither text is read further than to the first call.  Before it the parse trees are the same
  (`ExpressionTree.Forked`), so the walks over them are, and both of them stop where it is
  entered (`walk_stopAlike`).
-/
import MetricFormula.Proofs.Bindings
import MetricFormula.Proofs.Interpretation.Trace
import MetricFormula.Proofs.Grammar.Fork
import Mathlib.Data.List.Forall2
import Mathlib.Data.List.TakeWhile

set_option autoImplicit false

namespace MetricFormula

open MetricFormula.Grammar MetricFormula.Text

/-! ## Faults that are the same but for an end -/

/-- The same fault, but for the end of what evaluation has no meaning for. -/
inductive Fault.SameButEnd : Fault → Fault → Prop
  | refl (e : Fault) : SameButEnd e e
  | unsupported {rule : Rule} {start stop stop' : Nat} :
      SameButEnd (.unsupported rule ⟨start, stop⟩) (.unsupported rule ⟨start, stop'⟩)

/-- The same entry, but for the end of a call that is entered and refused. -/
inductive TraceEntry.SameButEnd : TraceEntry → TraceEntry → Prop
  | refl (e : TraceEntry) : SameButEnd e e
  | refused {name : String} {start stop stop' : Nat} :
      SameButEnd ⟨.enterCall name ⟨start, stop⟩, some (.unsupported .call ⟨start, stop⟩)⟩
        ⟨.enterCall name ⟨start, stop'⟩, some (.unsupported .call ⟨start, stop'⟩)⟩

/-- The same entries in a row, but for ends. -/
def SameButEnds (entries entries' : List TraceEntry) : Prop :=
  List.Forall₂ TraceEntry.SameButEnd entries entries'

theorem SameButEnds.refl (entries : List TraceEntry) : SameButEnds entries entries :=
  List.forall₂_same.mpr fun e _ => .refl e

theorem SameButEnds.snoc {entries : List TraceEntry} {e e' : TraceEntry} (h : e.SameButEnd e') :
    SameButEnds (entries ++ [e]) (entries ++ [e']) :=
  List.rel_append (SameButEnds.refl entries) (.cons h .nil)

/-! ## Runs that stop alike -/

namespace Handled

variable {σ α β : Type} {x y : Handled (List TraceEntry × σ) α}
  {k l : α → Handled (List TraceEntry × σ) β}

/-- Two steps fail, and only ends tell their faults and their traces apart. -/
def StopAlike (x y : Handled (List TraceEntry × σ) α) : Prop :=
  ∀ s, ∃ e e' s₁ s₂, x.runFrom s = (.error e, s₁) ∧ y.runFrom s = (.error e', s₂) ∧
    e.SameButEnd e' ∧ SameButEnds s₁.1 s₂.1

/-- What would have come next makes no difference. -/
theorem StopAlike.bind (h : StopAlike x y) : StopAlike (x >>= k) (y >>= l) := by
  intro s
  obtain ⟨e, e', s₁, s₂, hx, hy, hsame⟩ := h s
  refine ⟨e, e', s₁, s₂, ?_, ?_, hsame⟩
  · rw [runFrom_bind, hx]
  · rw [runFrom_bind, hy]

/-- Steps that stop alike after one and the same step, if that does not fail itself. -/
theorem StopAlike.after (h : ∀ a, StopAlike (k a) (l a)) : StopAlike (x >>= k) (x >>= l) := by
  intro s
  rw [runFrom_bind, runFrom_bind]
  rcases x.runFrom s with ⟨e | a, s'⟩
  · exact ⟨e, e, s', s', rfl, rfl, .refl e, .refl s'.1⟩
  · exact h a s'

end Handled

namespace Interpretation

open Handled

section Walk

variable {σ : Type} [Series σ] (bindings : Bindings σ)

/-- A call is refused before its arguments. -/
theorem enterCall_stopAlike (name : String) (start stop stop' : Nat) :
    StopAlike ((evaluation bindings).traced.enterCall name ⟨start, stop⟩)
      ((evaluation bindings).traced.enterCall name ⟨start, stop'⟩) :=
  fun _ => ⟨_, _, _, _, rfl, rfl, .unsupported, .snoc .refused⟩

mutual

/-- Evaluations of expressions that are the same up to a call stop alike. -/
theorem walk_stopAlike : ∀ {t t' : ExpressionTree}, t.Forked t' →
    StopAlike ((evaluation bindings).traced.walk t) ((evaluation bindings).traced.walk t')
  | _, _, .first h => (walkTerm_stopAlike h).bind
  | _, _, .steps h => .after fun _ => (walkSteps_stopAlike h).bind

theorem walkSteps_stopAlike : ∀ {steps steps' : List ExpressionStep},
    ExpressionTree.StepsForked steps steps' →
    StopAlike ((evaluation bindings).traced.walkSteps steps)
      ((evaluation bindings).traced.walkSteps steps')
  | _, _, .head h => (walkTerm_stopAlike h).bind.bind
  | _, _, .tail h => .after fun _ => (walkSteps_stopAlike h).bind

theorem walkTerm_stopAlike : ∀ {t t' : TermTree}, t.Forked t' →
    StopAlike ((evaluation bindings).traced.walkTerm t) ((evaluation bindings).traced.walkTerm t')
  | _, _, .first h => (walkFactor_stopAlike h).bind
  | _, _, .steps h => .after fun _ => (walkTermSteps_stopAlike h).bind

theorem walkTermSteps_stopAlike : ∀ {steps steps' : List TermStep},
    TermTree.StepsForked steps steps' →
    StopAlike ((evaluation bindings).traced.walkTermSteps steps)
      ((evaluation bindings).traced.walkTermSteps steps')
  | _, _, .head h => (walkFactor_stopAlike h).bind.bind
  | _, _, .tail h => .after fun _ => (walkTermSteps_stopAlike h).bind

theorem walkFactor_stopAlike : ∀ {x x' : FactorTree}, x.Forked x' →
    StopAlike ((evaluation bindings).traced.walkFactor x)
      ((evaluation bindings).traced.walkFactor x')
  | _, _, .call => (enterCall_stopAlike bindings _ _ _ _).bind
  | _, _, .group h => (walk_stopAlike h).bind

end

end Walk

end Interpretation

/-- Texts whose trees are the same up to a call have no value, and only ends tell their faults
and the traces of their evaluations apart. -/
theorem Policy.evaluate_of_forked {σ : Type} [Series σ] {p : Policy} {source source' : String}
    {t t' : ExpressionTree} (bindings : Bindings σ)
    (h : Interpretation.parse p.maxDepth source = .ok t)
    (h' : Interpretation.parse p.maxDepth source' = .ok t') (hforked : t.Forked t') :
    ∃ e e', p.evaluate source bindings = .error e ∧ p.evaluate source' bindings = .error e' ∧
      e.SameButEnd e' ∧
      SameButEnds ((Interpretation.evaluation bindings).trace p.maxDepth source ())
        ((Interpretation.evaluation bindings).trace p.maxDepth source' ()) := by
  obtain ⟨e, e', s, s', hrun, hrun', hsame, hsames⟩ :=
    Interpretation.walk_stopAlike bindings hforked ([], ())
  refine ⟨e, e', ?_, ?_, hsame, ?_⟩
  · rw [evaluate, Interpretation.runFrom_run_eq _ _ _ [], Interpretation.run, h]
    simp only [hrun, Except.map]
  · rw [evaluate, Interpretation.runFrom_run_eq _ _ _ [], Interpretation.run, h']
    simp only [hrun', Except.map]
  · simp only [Interpretation.trace, Interpretation.run, h, h', hrun, hrun']
    exact hsames

/-! ## The calls in a text -/

namespace Grammar

variable {c : Cursor} {ps : List PlacedToken}

/-- The parenthesis that closes a call stands in the text. -/
theorem CutAt.exists_closing {depth stop : Nat} (h : CutAt c ps)
    (hstop : closing? depth ps = some stop) :
    ∃ read c', c.Between (read ++ [')']) c' ∧ c'.offset = stop := by
  induction h generalizing depth with
  | nil _ => simp [closing?] at hstop
  | @gap c d cs ps hrest hd _ ih =>
      obtain ⟨read, c', hread, hoffset⟩ := ih hstop
      have hgap : c.Between [d] (c.past [d] cs) := .past hrest
      exact ⟨d :: read, c', hgap.trans hread, hoffset⟩
  | @token c rest t ps hm _ ih =>
      have hword : c.Between t.text (c.past t.text rest) := .past hm.append.symm
      have hlater : ∀ {n}, closing? n ps = some stop →
          ∃ read c', c.Between (read ++ [')']) c' ∧ c'.offset = stop := by
        intro n hn
        obtain ⟨read, c', hread, hoffset⟩ := ih hn
        exact ⟨t.text ++ read, c', by simpa using hword.trans hread, hoffset⟩
      by_cases hopen : t = .symbol '('
      · subst hopen
        exact hlater hstop
      by_cases hclose : t = .symbol ')'
      · subst hclose
        cases depth with
        | zero => exact ⟨[], _, hword, Option.some.inj hstop⟩
        | succ depth => exact hlater hstop
      · rw [closing?_cons hopen hclose] at hstop
        exact hlater hstop

/-- A call among the tokens of a text: its name, an opening parenthesis, and what stands up to
the one that closes it. -/
theorem CutAt.exists_call {name : String} {span : Span} (h : CutAt c ps)
    (hcall : .call name span ∈ constructs ps) :
    ∃ before arguments d e k c', c.Between before d ∧ d.Between name.toList e ∧
      TokenAt e.afterGap (.symbol '(') k ∧ k.Between (arguments ++ [')']) c' ∧
      span = ⟨d.offset, c'.offset⟩ := by
  induction h with
  | nil _ => simp [constructs] at hcall
  | @gap c d cs ps hrest _ _ ih =>
      obtain ⟨before, arguments, e, k, g, c', hbefore, hcall⟩ := ih hcall
      have hgap : c.Between [d] (c.past [d] cs) := .past hrest
      exact ⟨d :: before, arguments, e, k, g, c', hgap.trans hbefore, hcall⟩
  | @token c rest t ps hm hps ih =>
      have hword : c.Between t.text (c.past t.text rest) := .past hm.append.symm
      rw [constructs] at hcall
      rcases List.mem_append.mp hcall with hat | hlater
      · obtain ⟨opening, qs, stop, hname, rfl, hopening, hstop, rfl⟩ :=
          exists_of_constructAt?_call (Option.mem_toList.mp hat)
        obtain rfl : t = .name name.toList := hname
        obtain ⟨k, hk, -, hqs⟩ := hps.exists_tokenAt
        obtain ⟨arguments, c', harguments, rfl⟩ := hqs.exists_closing hstop
        exact ⟨[], arguments, c, _, k, c', .refl, hword, hopening ▸ hk, harguments, rfl⟩
      · obtain ⟨before, arguments, e, k, g, c', hbefore, hcall⟩ := ih hlater
        exact ⟨t.text ++ before, arguments, e, k, g, c', hword.trans hbefore, hcall⟩

end Grammar

/-- A place in a text where a function is called: what stands before and after the call, and
the text between its parentheses. -/
structure CallSite (source name : String) (span : Span) where
  before : String
  gap : String
  arguments : String
  after : String
  blank : ∀ c ∈ gap.toList, Scan.isGap c = true
  source_eq : before ++ name ++ gap ++ "(" ++ arguments ++ ")" ++ after = source
  start_eq : byteLength before.toList = span.start
  stop_eq : byteLength (before ++ name ++ gap ++ "(" ++ arguments ++ ")").toList = span.stop

namespace CallSite

variable {source name : String} {span : Span} {maxDepth : Nat} {t t' : ExpressionTree}

/-- The text with other arguments in the call. -/
def withArguments (site : CallSite source name span) (arguments : String) : String :=
  site.before ++ name ++ site.gap ++ "(" ++ arguments ++ ")" ++ site.after

/-- Every call has its place. -/
theorem nonempty_of_call (h : Interpretation.parse maxDepth source = .ok t)
    (hcall : .call name span ∈ t.constructs) : Nonempty (CallSite source name span) := by
  obtain ⟨ps, hcut, hconstructs, -⟩ := Interpretation.exists_cut_of_parse h
  obtain ⟨before, arguments, d, e, k, c', hbefore, hname, hopening, harguments, rfl⟩ :=
    ((hcut ps).mpr rfl).exists_call ((hconstructs _).mpr hcall)
  have hgap : e.Between (e.rest.takeWhile Scan.isGap) e.afterGap :=
    .past List.takeWhile_append_dropWhile.symm
  have hcovered := hname.trans (hgap.trans (hopening.between.trans harguments))
  have hall := hbefore.trans hcovered
  refine ⟨⟨String.ofList before, String.ofList (e.rest.takeWhile Scan.isGap),
    String.ofList arguments, String.ofList c'.rest, ?_, ?_, ?_, ?_⟩⟩
  · intro c hc
    rw [String.toList_ofList] at hc
    exact List.mem_takeWhile_imp hc
  · rw [← String.toList_inj]
    simpa [Token.text, Cursor.ofString] using hall.rest.symm
  · simpa [Cursor.ofString] using hbefore.offset.symm
  · simpa [Token.text, Cursor.ofString] using hall.offset.symm

/-- The trees of a text with a call, and of the text with other arguments in it, are the same up
to a call. -/
theorem forked (site : CallSite source name span) {arguments : String}
    (h : Interpretation.parse maxDepth source = .ok t)
    (hcall : .call name span ∈ t.constructs)
    (h' : Interpretation.parse maxDepth (site.withArguments arguments) = .ok t') :
    t.Forked t' := by
  obtain ⟨ps, hcut, hconstructs, -⟩ := Interpretation.exists_cut_of_parse h
  obtain ⟨ps', hcut', -, -⟩ := Interpretation.exists_cut_of_parse h'
  have hps := (hcut ps).mpr rfl
  have hps' := (hcut' ps').mpr rfl
  have hsource : (Cursor.ofString source).rest = (site.before ++ name ++ site.gap).toList ++
      '(' :: (site.arguments ++ ")" ++ site.after).toList := by
    simp [Cursor.ofString, ← site.source_eq]
  have hreplaced : (Cursor.ofString (site.withArguments arguments)).rest =
      (site.before ++ name ++ site.gap).toList ++
        '(' :: (arguments ++ ")" ++ site.after).toList := by
    simp [Cursor.ofString, withArguments]
  have hstart : span.start ≤ (Cursor.ofString source).offset +
      byteLength (site.before ++ name ++ site.gap).toList := by
    simp only [← site.start_eq, String.toList_append, byteLength_append]
    omega
  have hforked := hps.forked hps' hsource hreplaced rfl ((hconstructs _).mpr hcall) hstart
  exact forked_of_tree (Interpretation.parse_eq_ok.mp h).2 (Interpretation.parse_eq_ok.mp h').2
    hps hps' hforked

end CallSite

/-- A text with a call in it has no value.  Other arguments in any of its calls, if the text
still has a parse tree with them, leave its fault as it is but for the end of the call that the
fault is about; and they leave every step of the evaluation as it is, so that nothing between
the parentheses of a call is evaluated, looked up or read as a number. -/
theorem evaluate_arguments {σ : Type} [Series σ] {p : Policy} {source name : String}
    {span : Span} {t : ExpressionTree} (bindings : Bindings σ)
    (h : Interpretation.parse p.maxDepth source = .ok t)
    (hcall : .call name span ∈ t.constructs) :
    Nonempty (CallSite source name span) ∧ ∃ e, p.evaluate source bindings = .error e ∧
      ∀ (site : CallSite source name span) (arguments : String) (t' : ExpressionTree),
        Interpretation.parse p.maxDepth (site.withArguments arguments) = .ok t' →
        (∃ e', p.evaluate (site.withArguments arguments) bindings = .error e' ∧
          e.SameButEnd e') ∧
        SameButEnds ((Interpretation.evaluation bindings).trace p.maxDepth source ())
          ((Interpretation.evaluation bindings).trace p.maxDepth
            (site.withArguments arguments) ()) := by
  obtain ⟨site⟩ := CallSite.nonempty_of_call h hcall
  -- The text is compared with itself to see that it fails at all.
  have hsame : Interpretation.parse p.maxDepth (site.withArguments site.arguments) = .ok t := by
    rw [CallSite.withArguments, site.source_eq, h]
  obtain ⟨e, -, he, -⟩ :=
    Policy.evaluate_of_forked bindings h hsame (site.forked h hcall hsame)
  refine ⟨⟨site⟩, e, he, fun other arguments t' h' => ?_⟩
  obtain ⟨d, e', hd, he', hend, htrace⟩ :=
    Policy.evaluate_of_forked bindings h h' (other.forked h hcall h')
  obtain rfl : e = d := Except.error.inj (he.symm.trans hd)
  exact ⟨⟨e', he', hend⟩, htrace⟩

/-- A call in parentheses, before a variable. -/
def callInGroup : String := "x * (2 + f (y / 0)) - z"

/-- The call in `callInGroup`. -/
def callInGroupSite : CallSite callInGroup "f" ⟨9, 18⟩ where
  before := "x * (2 + "
  gap := " "
  arguments := "y / 0"
  after := ") - z"
  blank := by simp [Scan.isGap]
  source_eq := rfl
  start_eq := rfl
  stop_eq := rfl

theorem evaluate_arguments_callInGroup :
    Policy.standard.evaluate callInGroup numberBindings = .error (.unsupported .call ⟨9, 18⟩) ∧
      ∃ e', Policy.standard.evaluate (callInGroupSite.withArguments "1e999, g(u)")
          numberBindings = .error e' ∧
        Fault.SameButEnd (.unsupported .call ⟨9, 18⟩) e' := by
  have hevaluate : Policy.standard.evaluate callInGroup numberBindings =
      .error (.unsupported .call ⟨9, 18⟩) := by decide +kernel
  have hconstructs : (Interpretation.parse 100 callInGroup).map ExpressionTree.constructs =
      .ok [.literal "2" ⟨5, 6⟩, .literal "0" ⟨16, 17⟩, .call "f" ⟨9, 18⟩] := by decide +kernel
  have hother : (Interpretation.parse 100
      (callInGroupSite.withArguments "1e999, g(u)")).isOk = true := by decide +kernel
  obtain ⟨t', h'⟩ := exists_eq_ok hother
  cases h : Interpretation.parse 100 callInGroup with
  | error e => simp [h, Except.map] at hconstructs
  | ok t =>
      simp only [h, Except.map, Except.ok.injEq] at hconstructs
      have hparse : Interpretation.parse Policy.standard.maxDepth callInGroup = .ok t := h
      have hcall : .call "f" ⟨9, 18⟩ ∈ t.constructs := by simp [hconstructs]
      obtain ⟨-, e, he, harguments⟩ := evaluate_arguments numberBindings hparse hcall
      obtain rfl := Except.error.inj (hevaluate.symm.trans he)
      exact ⟨hevaluate, (harguments callInGroupSite _ t' h').1⟩

end MetricFormula
