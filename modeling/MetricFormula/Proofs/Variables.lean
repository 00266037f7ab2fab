/-
  Proofs/Variables: the variables that validation reports.

  Validation records a variable when the term around it is complete; the formula that it
  builds lists its variables along its own structure; and the text shows them as the names
  that no opening parenthesis follows.  If validation succeeds, all three are the same set
  (`validate_freeVariables`).

  That the record is complete is an account of the walk: `Records ls pending x` says that a
  step adds the references `ls` to the record, but for those that its result leaves.
-/
import MetricFormula.Proofs.Interpretation.Account
import MetricFormula.Proofs.Sentences
import Mathlib.Control.Monad.Basic

set_option autoImplicit false

namespace MetricFormula

open MetricFormula.Grammar

/-! ## What is recorded -/

namespace Validation

variable {α β : Type} {ls held : List Lexeme} {pending : α → List Lexeme}
  {pending' : β → List Lexeme} {x : Handled NameSet α} {k : α → Handled NameSet β}

/-- A step that succeeds adds to the record the names that it is responsible for and that
its result does not leave. -/
def Records (ls : List Lexeme) (pending : α → List Lexeme) (x : Handled NameSet α) : Prop :=
  ∀ s a s', x.runFrom s = (.ok a, s') → ∀ name : String,
    (name ∈ s' ∨ name ∈ (pending a).map Lexeme.text) ↔ (name ∈ s ∨ name ∈ ls.map Lexeme.text)

theorem records_pure (pending : α → List Lexeme) (a : α) :
    Records (pending a) pending (pure a) := by
  intro s b s' h name
  rw [Handled.runFrom_pure] at h
  cases h
  rfl

theorem Records.bind (hx : Records ls pending x)
    (hk : ∀ a, Records (pending a ++ held) pending' (k a)) :
    Records (ls ++ held) pending' (x >>= k) := by
  intro s b s'' h name
  rw [Handled.runFrom_bind] at h
  rcases hrun : x.runFrom s with ⟨e | a, s'⟩
  · simp [hrun] at h
  · rw [hrun] at h
    rw [hk a s' b s'' h name, List.map_append, List.map_append, List.mem_append, List.mem_append,
      ← or_assoc, ← or_assoc, hx s a s' hrun name]

/-- Neither order nor repetition counts. -/
theorem Records.congr {ms : List Lexeme} (hx : Records ls pending x)
    (h : ∀ l, l ∈ ls ↔ l ∈ ms) : Records ms pending x := by
  intro s a s' hrun name
  rw [hx s a s' hrun name, List.mem_map, List.mem_map]
  simp only [h]

/-- A step that leaves the record alone. -/
theorem records_nothing (hx : ∀ s, (x.runFrom s).2 = s) : Records [] nothingPending x := by
  intro s a s' hrun name
  have hsame := hx s
  rw [hrun] at hsame
  cases hsame
  rfl

/-- What is recorded along a walk. -/
def recording : Account NameSet where
  Holds _ ls pending x := Records ls pending x
  pure := records_pure
  bind := Records.bind
  congr hx _ h := hx.congr h

theorem record_records (name : String) (span : Span) :
    Records [⟨name, span⟩] nothingPending (record name) := by
  intro s x s' h other
  have hrun : (record name).runFrom s = (.ok (.variable name), s.insert name) := rfl
  rw [hrun] at h
  cases h
  simp [nothingPending, or_comm]

theorem factor_records : ∀ x : Operand Factor,
    recording.Holds [] x.pending nothingPending (factor x)
  | .value x => records_pure nothingPending x
  | .variable name span => record_records name span

theorem factors_records (xs : List (Operand Factor)) :
    recording.Holds [] (xs.flatMap Operand.pending) nothingPending (factors xs) := by
  induction xs with
  | nil => exact records_pure nothingPending []
  | cons x xs ih =>
      rw [List.flatMap_cons]
      exact recording.andThen (factor_records x) fun y => recording.map (y :: ·) ih fun _ => rfl

/-- A call records nothing. -/
theorem call_keeps (functions : NameSet) (name : String) (arguments : List Sum) (span : Span)
    (s : NameSet) :
    (((Interpretation.validation functions).call name arguments span).runFrom s).2 = s := by
  change ((if functions.contains name then _ else _ : Handled NameSet Factor).runFrom s).2 = s
  split <;> rfl

/-- Terms record their operands, and nothing else is recorded. -/
theorem validation_accounts (functions : NameSet) :
    (Interpretation.validation functions).Accounts recording where
  expression _ _ _ := records_nothing fun _ => rfl
  term numerator denominator _ :=
    recording.andThen (factors_records numerator) fun ns =>
      recording.map (Product.mk ns) (factors_records denominator) fun _ => rfl
  enterCall _ _ := records_nothing fun _ => rfl
  call name arguments span := records_nothing (call_keeps functions name arguments span)
  constant _ _ := records_nothing fun _ => rfl
  group _ _ := records_nothing fun _ => rfl

end Validation

/-! ## Texts -/

/-- A text with a parse tree is cut in one way, and its tokens have the constructs and the
references of the tree. -/
theorem Interpretation.exists_cut_of_parse {maxDepth : Nat} {source : String} {t : ExpressionTree}
    (h : parse maxDepth source = .ok t) :
    ∃ ps, (∀ qs, CutAt (Cursor.ofString source) qs ↔ qs = ps) ∧
      (∀ c, c ∈ constructs ps ↔ c ∈ t.constructs) ∧ references ps = t.references := by
  obtain ⟨ps, n, m, hcut, hstands⟩ := tree_stands (parse_eq_ok.mp h).2
  refine ⟨ps, fun qs => ⟨fun hqs => hqs.unique hcut, fun hqs => hqs ▸ hcut⟩, ?_, ?_⟩
  · intro c
    rw [hstands.mem_constructs, constructs]
    simp
  · rw [hstands.references_eq, references, List.append_nil]

/-- The names that a text shows as variables are those of its parse tree. -/
theorem Interpretation.exists_cut_of_names {maxDepth : Nat} {source : String}
    {names : List String}
    (h : (parse maxDepth source).map (fun t => t.references.map Lexeme.text) = .ok names) :
    ∃ ps, (∀ qs, CutAt (Cursor.ofString source) qs ↔ qs = ps) ∧
      (references ps).map Lexeme.text = names := by
  cases hparse : parse maxDepth source with
  | error e => simp [hparse, Except.map] at h
  | ok t =>
      rw [hparse] at h
      obtain ⟨ps, hcut, -, hreferences⟩ := exists_cut_of_parse hparse
      exact ⟨ps, hcut, hreferences ▸ Except.ok.inj h⟩

/-- What validation reports are the references of the parse tree. -/
theorem Policy.freeVariables_of_parse {p : Policy} {source : String} {t : ExpressionTree}
    {f : Formula} (ht : Interpretation.parse p.maxDepth source = .ok t)
    (h : p.validate source = .ok f) :
    f.freeVariables = .ofList (t.references.map Lexeme.text) := by
  unfold Policy.validate Interpretation.run at h
  rw [ht] at h
  dsimp only at h
  rcases hrun : ((Interpretation.validation p.functions).walk t).runFrom .empty with
    ⟨e | ast, names⟩
  · simp [hrun] at h
  · rw [hrun] at h
    cases h
    have hwalk := Interpretation.walk_holds (Validation.validation_accounts p.functions) t
    ext name
    have hname := hwalk .empty ast names hrun name
    rw [NameSet.mem_ofList]
    simpa [nothingPending, NameSet.empty, NameSet.mem_def] using hname

/-- If a text is validated, the variables that are reported, the variables of the formula,
and the names in the text that no opening parenthesis follows are one set.  The text is
cut into tokens in one way only. -/
theorem validate_freeVariables {p : Policy} {source : String} {f : Formula}
    (h : p.validate source = .ok f) :
    f.freeVariables = f.ast.variables ∧
      ∃ ps, (∀ qs, CutAt (Cursor.ofString source) qs ↔ qs = ps) ∧
        f.freeVariables = .ofList ((references ps).map Lexeme.text) := by
  obtain ⟨t, ht, -, hast⟩ := validate_eq_ok_iff.mp ⟨f, h, rfl⟩
  have hfree := Policy.freeVariables_of_parse ht h
  obtain ⟨ps, hcut, -, hreferences⟩ := Interpretation.exists_cut_of_parse ht
  refine ⟨?_, ps, hcut, hreferences ▸ hfree⟩
  rw [hfree, hast]
  ext name
  rw [NameSet.mem_ofList, Sum.mem_variables, t.mem_names]

/-- A text in which one name is both a function and a variable, with variables in a
denominator, in a group and among the arguments of a call. -/
def sharedName : String := "f (x, 1 / f) - (y -f(x )) / z"

theorem validate_freeVariables_sharedName :
    ∃ f, (Policy.standard.withFunctions ["f"]).validate sharedName = .ok f ∧
      f.freeVariables = .ofList ["f", "x", "y", "z"] ∧ f.freeVariables = f.ast.variables ∧
      ∃ ps, CutAt (Cursor.ofString sharedName) ps ∧
        f.freeVariables = .ofList ((references ps).map Lexeme.text) := by
  have hfree : ((Policy.standard.withFunctions ["f"]).validate sharedName).map
      Formula.freeVariables = .ok (.ofList ["f", "x", "y", "z"]) := by decide +kernel
  cases hvalidate : (Policy.standard.withFunctions ["f"]).validate sharedName with
  | error e => simp [hvalidate, Except.map] at hfree
  | ok f =>
      simp only [hvalidate, Except.map, Except.ok.injEq] at hfree
      obtain ⟨hast, ps, hcut, hreferences⟩ := validate_freeVariables hvalidate
      exact ⟨f, rfl, hfree, hast, ps, (hcut ps).mpr rfl, hreferences⟩

end MetricFormula
