/-
  Proofs/Ast/Printer: what is written for a formula is read back as the formula.

  The text of a well-formed sum is cut into the tokens of a derivation of that sum,
  whatever may follow the text (`Sum.WellFormed.written`).  Validating the text
  therefore gives the sum (`validate_display`).
-/
import MetricFormula.Ast.Printer
import MetricFormula.Proofs.Ast.WellFormed
import MetricFormula.Proofs.Decimal.Text
import MetricFormula.Proofs.Sentences

set_option autoImplicit false

namespace MetricFormula

open MetricFormula.Grammar

/-! ## Joined texts -/

theorem Product.texts_eq_map (ps : List Product) : Product.texts ps = ps.map Product.text := by
  induction ps with
  | nil => rfl
  | cons p ps ih => rw [Product.texts, ih, List.map_cons]

theorem Factor.texts_eq_map (xs : List Factor) : Factor.texts xs = xs.map Factor.text := by
  induction xs with
  | nil => rfl
  | cons x xs ih => rw [Factor.texts, ih, List.map_cons]

theorem Sum.texts_eq_map (ss : List Sum) : Sum.texts ss = ss.map Sum.text := by
  induction ss with
  | nil => rfl
  | cons s ss ih => rw [Sum.texts, ih, List.map_cons]

/-- Texts in a row, with a separator before each. -/
def led (separator : List Char) (texts : List (List Char)) : List Char :=
  texts.flatMap (separator ++ ·)

theorem joined_cons (separator t : List Char) (ts : List (List Char)) :
    joined separator (t :: ts) = t ++ led separator ts := by
  induction ts generalizing t with
  | nil => simp [joined, led]
  | cons u us ih => simp [joined, ih, led]

theorem twoSided_cons (plus minus t : List Char) (ts us : List (List Char)) :
    twoSided plus minus (t :: ts) us = t ++ (led plus ts ++ led minus us) := by
  unfold twoSided
  rw [joined_cons, List.append_assoc]
  cases us with
  | nil => rfl
  | cons u us => rw [joined_cons, led, led, led, List.flatMap_cons, List.append_assoc]; rfl

/-! ## What may follow a text -/

/-- A text, cut into tokens, that neither prolongs the token before it nor opens a
parenthesis. -/
structure Follows (rest : List Char) (us : List Token) : Prop where
  cut : Cut rest us
  stop : ∀ c, rest.head? = some c → c = ' ' ∨ c = ',' ∨ c = ')'
  closed : us.head? ≠ some (.symbol '(')

namespace Follows

variable {rest : List Char} {us : List Token}

theorem nil : Follows [] [] := ⟨.nil, by simp, by simp⟩

/-- A parenthesis closes. -/
theorem close (h : Cut rest us) : Follows (')' :: rest) (.symbol ')' :: us) where
  cut := .token (munches_symbol (by decide) _) h
  stop := by simp
  closed := by simp

/-- A comma, and a blank after it. -/
theorem comma (h : Cut rest us) : Follows ([',', ' '] ++ rest) (.symbol ',' :: us) where
  cut := .token (munches_symbol (by decide) _) (.gap rfl h)
  stop := by simp
  closed := by simp

/-- An operator between blanks. -/
theorem operator {c : Char} (hc : c ∈ ['+', '-', '*', '/']) (h : Cut rest us) :
    Follows ([' ', c, ' '] ++ rest) (.symbol c :: us) where
  cut := by
    refine .gap rfl (.token (munches_symbol ?_ _) (.gap rfl h))
    simp only [List.mem_cons, List.not_mem_nil, or_false] at hc
    rcases hc with rfl | rfl | rfl | rfl <;> decide
  stop := by simp
  closed := by
    rintro heq
    simp only [List.head?_cons, Option.some.injEq, Token.symbol.injEq] at heq
    subst heq
    simp at hc

theorem not_isNameChar (h : Follows rest us) (c : Char) (hc : rest.head? = some c) :
    Scan.isNameChar c = false := by
  rcases h.stop c hc with rfl | rfl | rfl <;> decide

theorem not_continuesNumeral (h : Follows rest us) (c : Char) (hc : rest.head? = some c) :
    Decimal.continuesNumeral c = false := by
  rcases h.stop c hc with rfl | rfl | rfl <;> decide

end Follows

/-! ## Texts of phrases -/

/-- Whatever follows a text, it is cut into tokens of a phrase. -/
def Written (cs : List Char) (phrase : List Token → List Token → Prop) : Prop :=
  ∀ rest us, Follows rest us → ∃ ts, Cut (cs ++ rest) ts ∧ phrase ts us

/-- Parts that are written in a row, each after the same symbol.  `part` is the grammar
of one part and `row` that of the row. -/
theorem written_row {α β : Type} {text : α → List Char} {value : β → α}
    {part : β → List Token → List Token → Prop} {row : List β → List Token → List Token → Prop}
    {separator : List Char} {c : Char}
    (hseparator : ∀ {rest us}, Cut rest us → Follows (separator ++ rest) (.symbol c :: us))
    (hnil : ∀ us, row [] us us)
    (hcons : ∀ {b bs ts us vs}, part b ts us → row bs us vs →
      row (b :: bs) (.symbol c :: ts) vs) :
    ∀ {xs : List α}, (∀ x ∈ xs, ∃ b, value b = x ∧ Written (text x) (part b)) →
    ∃ bs, bs.map value = xs ∧ ∀ rest us, Follows rest us →
      ∃ ts, Follows (led separator (xs.map text) ++ rest) ts ∧ row bs ts us
  | [], _ => ⟨[], rfl, fun rest us h => ⟨us, h, hnil us⟩⟩
  | x :: xs, hparts => by
      obtain ⟨hx, hxs⟩ := List.forall_mem_cons.mp hparts
      obtain ⟨b, rfl, hb⟩ := hx
      obtain ⟨bs, rfl, hbs⟩ := written_row hseparator hnil hcons hxs
      refine ⟨b :: bs, rfl, ?_⟩
      intro rest us h
      obtain ⟨vs, hfollows, hrow⟩ := hbs rest us h
      obtain ⟨ts, hcut, hpart⟩ := hb _ vs hfollows
      refine ⟨.symbol c :: ts, ?_, hcons hpart hrow⟩
      rw [List.map_cons, led, List.flatMap_cons, List.append_assoc, List.append_assoc]
      exact hseparator hcut

/-! ## Steps sorted by their operators -/

section Steps

variable {ts us vs : List Token}

theorem Grammar.AreExpressionSteps.trans {xs ys : List ExpressionPhraseStep}
    (h : AreExpressionSteps ts xs us) (h' : AreExpressionSteps us ys vs) :
    AreExpressionSteps ts (xs ++ ys) vs := by
  induction xs generalizing ts with
  | nil =>
      cases h
      exact h'
  | cons x xs ih =>
      cases h with
      | cons hterm hsteps => exact .cons hterm (ih hsteps)

theorem Grammar.AreTermSteps.trans {xs ys : List TermPhraseStep}
    (h : AreTermSteps ts xs us) (h' : AreTermSteps us ys vs) : AreTermSteps ts (xs ++ ys) vs := by
  induction xs generalizing ts with
  | nil =>
      cases h
      exact h'
  | cons x xs ih =>
      cases h with
      | cons hfactor hsteps => exact .cons hfactor (ih hsteps)

theorem Grammar.ExpressionPhrase.added_sorted (plus minus : List TermPhrase) :
    ExpressionPhrase.added (plus.map (.mk .plus) ++ minus.map (.mk .minus)) =
      plus.map TermPhrase.product := by
  induction plus with
  | nil =>
      induction minus with
      | nil => rfl
      | cons t ts ih => exact ih
  | cons t ts ih => exact congrArg (t.product :: ·) ih

theorem Grammar.ExpressionPhrase.subtracted_sorted (plus minus : List TermPhrase) :
    ExpressionPhrase.subtracted (plus.map (.mk .plus) ++ minus.map (.mk .minus)) =
      minus.map TermPhrase.product := by
  induction plus with
  | nil =>
      induction minus with
      | nil => rfl
      | cons t ts ih => exact congrArg (t.product :: ·) ih
  | cons t ts ih => exact ih

theorem Grammar.TermPhrase.multiplied_sorted (times dividedBy : List FactorPhrase) :
    TermPhrase.multiplied (times.map (.mk .times) ++ dividedBy.map (.mk .dividedBy)) =
      times.map FactorPhrase.factor := by
  induction times with
  | nil =>
      induction dividedBy with
      | nil => rfl
      | cons x xs ih => exact ih
  | cons x xs ih => exact congrArg (x.factor :: ·) ih

theorem Grammar.TermPhrase.divided_sorted (times dividedBy : List FactorPhrase) :
    TermPhrase.divided (times.map (.mk .times) ++ dividedBy.map (.mk .dividedBy)) =
      dividedBy.map FactorPhrase.factor := by
  induction times with
  | nil =>
      induction dividedBy with
      | nil => rfl
      | cons x xs ih => exact congrArg (x.factor :: ·) ih
  | cons x xs ih => exact ih

theorem Grammar.ExpressionPhrase.sums_eq_map (es : List ExpressionPhrase) :
    ExpressionPhrase.sums es = es.map ExpressionPhrase.sum := by
  induction es with
  | nil => rfl
  | cons e es ih => rw [ExpressionPhrase.sums, ih, List.map_cons]

end Steps

/-! ## Rows of parts -/

theorem written_expressionSteps (operator : AdditiveOperator) {ps : List Product}
    (h : ∀ p ∈ ps, ∃ t : TermPhrase, t.product = p ∧ Written p.text (IsTerm · t ·)) :
    ∃ terms : List TermPhrase, terms.map TermPhrase.product = ps ∧
      ∀ rest us, Follows rest us →
        ∃ ts, Follows (led [' ', operator.symbol, ' '] (ps.map Product.text) ++ rest) ts ∧
          AreExpressionSteps ts (terms.map (.mk operator)) us :=
  written_row (Follows.operator (by cases operator <;> decide)) (fun _ => .nil)
    (fun hterm hsteps => .cons hterm hsteps) h

theorem written_termSteps (operator : MultiplicativeOperator) {xs : List Factor}
    (h : ∀ x ∈ xs, ∃ y : FactorPhrase, y.factor = x ∧ Written x.text (IsFactor · y ·)) :
    ∃ factors : List FactorPhrase, factors.map FactorPhrase.factor = xs ∧
      ∀ rest us, Follows rest us →
        ∃ ts, Follows (led [' ', operator.symbol, ' '] (xs.map Factor.text) ++ rest) ts ∧
          AreTermSteps ts (factors.map (.mk operator)) us :=
  written_row (Follows.operator (by cases operator <;> decide)) (fun _ => .nil)
    (fun hfactor hsteps => .cons hfactor hsteps) h

theorem written_arguments {ss : List Sum}
    (h : ∀ s ∈ ss, ∃ e : ExpressionPhrase, e.sum = s ∧ Written s.text (IsExpression · e ·)) :
    ∃ es : List ExpressionPhrase, es.map ExpressionPhrase.sum = ss ∧
      ∀ rest us, Follows rest us →
        ∃ ts, Follows (led [',', ' '] (ss.map Sum.text) ++ rest) ts ∧ AreArguments ts es us :=
  written_row Follows.comma (fun _ => .nil) (fun he hes => .cons he hes) h

/-! ## Formulas -/

section Formulas

variable {functions : NameSet}

mutual

/-- The text of a well-formed sum is cut into tokens of a derivation of the sum. -/
theorem Sum.WellFormed.written : ∀ {s : Sum}, s.WellFormed functions →
    ∃ e : ExpressionPhrase, e.sum = s ∧ Written s.text (IsExpression · e ·)
  | .mk [] _, .mk hne _ _ => absurd rfl hne
  | .mk (p :: ps) ns, .mk _ hpositive hnegative => by
      obtain ⟨hp, hps⟩ := List.forall_mem_cons.mp hpositive
      obtain ⟨t, rfl, ht⟩ := hp.written
      obtain ⟨plus, rfl, hplus⟩ := written_expressionSteps .plus fun p hp => (hps p hp).written
      obtain ⟨minus, rfl, hminus⟩ :=
        written_expressionSteps .minus fun p hp => (hnegative p hp).written
      refine ⟨.mk t (plus.map (.mk .plus) ++ minus.map (.mk .minus)), ?_, ?_⟩
      · rw [ExpressionPhrase.sum, ExpressionPhrase.added_sorted,
          ExpressionPhrase.subtracted_sorted]
      · intro rest us h
        obtain ⟨vs, hfollows, hsubtracted⟩ := hminus rest us h
        obtain ⟨ws, hfollows', hadded⟩ := hplus _ vs hfollows
        obtain ⟨ts, hcut, hterm⟩ := ht _ ws hfollows'
        refine ⟨ts, ?_, .mk hterm (hadded.trans hsubtracted)⟩
        rw [Sum.text, Product.texts_eq_map, Product.texts_eq_map, List.map_cons, twoSided_cons,
          List.append_assoc, List.append_assoc]
        exact hcut

theorem Product.WellFormed.written : ∀ {p : Product}, p.WellFormed functions →
    ∃ t : TermPhrase, t.product = p ∧ Written p.text (IsTerm · t ·)
  | .mk [] _, .mk hne _ _ => absurd rfl hne
  | .mk (x :: xs) ds, .mk _ hnumerator hdenominator => by
      obtain ⟨hx, hxs⟩ := List.forall_mem_cons.mp hnumerator
      obtain ⟨y, rfl, hy⟩ := hx.written
      obtain ⟨times, rfl, htimes⟩ := written_termSteps .times fun x hx => (hxs x hx).written
      obtain ⟨dividedBy, rfl, hdividedBy⟩ :=
        written_termSteps .dividedBy fun x hx => (hdenominator x hx).written
      refine ⟨.mk y (times.map (.mk .times) ++ dividedBy.map (.mk .dividedBy)), ?_, ?_⟩
      · rw [TermPhrase.product, TermPhrase.multiplied_sorted, TermPhrase.divided_sorted]
      · intro rest us h
        obtain ⟨vs, hfollows, hdivided⟩ := hdividedBy rest us h
        obtain ⟨ws, hfollows', hmultiplied⟩ := htimes _ vs hfollows
        obtain ⟨ts, hcut, hfactor⟩ := hy _ ws hfollows'
        refine ⟨ts, ?_, .mk hfactor (hmultiplied.trans hdivided)⟩
        rw [Product.text, Factor.texts_eq_map, Factor.texts_eq_map, List.map_cons, twoSided_cons,
          List.append_assoc, List.append_assoc]
        exact hcut

theorem Factor.WellFormed.written : ∀ {x : Factor}, x.WellFormed functions →
    ∃ y : FactorPhrase, y.factor = x ∧ Written x.text (IsFactor · y ·)
  | .variable name, .variable hname => by
      refine ⟨.reference name.toList, by rw [FactorPhrase.factor, String.ofList_toList], ?_⟩
      intro rest us h
      exact ⟨.name name.toList :: us, .token (munches_name hname h.not_isNameChar) h.cut,
        .reference h.closed⟩
  | .constant _, .constant magnitude => by
      obtain ⟨n, hn, htext, hvalue⟩ := Decimal.exists_text magnitude
      refine ⟨.constant n.text, ?_, ?_⟩
      · rw [FactorPhrase.factor, literalNumber_text hn, hvalue]
      · intro rest us h
        change ∃ ts, Cut (Decimal.text magnitude ++ rest) ts ∧ _
        rw [← htext]
        exact ⟨.literal n.text :: us, .token (munches_literal hn h.not_continuesNumeral) h.cut,
          .constant⟩
  | .group inner, .group hinner => by
      obtain ⟨e, rfl, he⟩ := hinner.written
      refine ⟨.group e, rfl, ?_⟩
      intro rest us h
      obtain ⟨ts, hcut, hexpression⟩ := he _ _ (.close h.cut)
      refine ⟨.symbol '(' :: ts, ?_, .group hexpression⟩
      rw [Factor.text, List.append_assoc]
      exact .token (munches_symbol (by decide) _) hcut
  | .call function [], .call _ _ hne _ => absurd rfl hne
  | .call function (s :: ss), .call hname hmem _ harguments => by
      obtain ⟨hs, hss⟩ := List.forall_mem_cons.mp harguments
      obtain ⟨e, rfl, he⟩ := hs.written
      obtain ⟨es, rfl, hes⟩ := written_arguments fun s hs => (hss s hs).written
      refine ⟨.call function.toList e es, ?_, ?_⟩
      · rw [FactorPhrase.factor, String.ofList_toList, ExpressionPhrase.sums_eq_map]
      · intro rest us h
        obtain ⟨vs, hfollows, hothers⟩ := hes _ _ (.close h.cut)
        obtain ⟨ts, hcut, hfirst⟩ := he _ vs hfollows
        refine ⟨.name function.toList :: .symbol '(' :: ts, ?_, .call hfirst hothers⟩
        have htext : Factor.text (.call function (e.sum :: es.map ExpressionPhrase.sum)) ++ rest =
            function.toList ++ ('(' :: (e.sum.text ++
              (led [',', ' '] ((es.map ExpressionPhrase.sum).map Sum.text) ++ (')' :: rest)))) := by
          rw [Factor.text, Sum.texts_eq_map, List.map_cons, joined_cons]
          simp only [List.append_assoc, List.cons_append, List.nil_append]
        rw [htext]
        refine .token (munches_name hname ?_) (.token (munches_symbol (by decide) _) hcut)
        intro c hc
        rw [← Option.some.inj hc]
        decide

end

end Formulas

/-- The text of a well-formed sum whose groups and calls nest few enough levels is
accepted, and the formula that it gives is that sum. -/
theorem validate_display {p : Policy} {s : Sum} (hs : s.WellFormed p.functions)
    (hdepth : s.depth = 0 ∨ s.depth < p.maxDepth) :
    ∃ f, p.validate s.display = .ok f ∧ f.ast = s := by
  obtain ⟨e, rfl, he⟩ := hs.written
  obtain ⟨ts, hcut, hsentence⟩ := he [] [] .nil
  obtain ⟨hliterals, hcalls⟩ := hs.admits
  rw [e.depth_sum] at hdepth
  refine Derives.validate ⟨?_, hsentence⟩ ⟨hdepth, hliterals, hcalls⟩
  rw [List.append_nil] at hcut
  rwa [Sum.display, String.toList_ofList]

/-! ## A nested formula -/

/-- One tenth, rounded. -/
def tenth : Binary64.Magnitude := ⟨0x1999999999999A * Nat.pow 2 1018, by decide +kernel⟩

/-- A call of a quotient whose numerator is a difference in parentheses. -/
def nestedSum : Sum :=
  .mk [.mk [.call "norm" [.mk [.mk [.group (.mk [.mk [.variable "x"] []]
    [.mk [.constant (.finite false tenth)] []])] [.variable "y"]] []]] []] []

theorem nestedSum_wellFormed : nestedSum.WellFormed Policy.standard.functions := by
  have hx : Factor.WellFormed Policy.standard.functions (.variable "x") :=
    .variable ⟨'x', [], rfl, rfl, by simp⟩
  have hy : Factor.WellFormed Policy.standard.functions (.variable "y") :=
    .variable ⟨'y', [], rfl, rfl, by simp⟩
  have hdifference := Sum.WellFormed.mk (by simp) (List.forall_mem_singleton.mpr hx.product)
    (List.forall_mem_singleton.mpr (Factor.WellFormed.constant tenth).product)
  have hquotient := Product.WellFormed.mk (by simp)
    (List.forall_mem_singleton.mpr (.group hdifference)) (List.forall_mem_singleton.mpr hy)
  have hcall : Factor.WellFormed Policy.standard.functions (.call "norm" _) :=
    .call ⟨'n', ['o', 'r', 'm'], rfl, rfl, List.all_eq_true.mp rfl⟩ (by decide) (by simp)
      (List.forall_mem_singleton.mpr hquotient.sum)
  exact hcall.product.sum

theorem validate_display_nestedSum :
    nestedSum.display = "norm((x - 0.1) / y)" ∧
      ∃ f, Policy.standard.validate nestedSum.display = .ok f ∧ f.ast = nestedSum :=
  ⟨by decide +kernel, validate_display nestedSum_wellFormed (Or.inr (by decide))⟩

end MetricFormula
