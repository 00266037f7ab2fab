/-
  Proofs/Grammar/Substitution: putting a text in parentheses in place of a variable.

  `substitute x g f` writes the text `g` in parentheses wherever the text `f` refers to the
  variable `x`, and leaves everything else as it stands.  It reads words as the grammar
  does, so that a longer name, the name of a function and the letters of a numeral are
  no references to `x`.

  In a formula, operators and parentheses keep words apart (`Accepts.wordsApart`).  So if
  both texts are formulas, the words that are left are still cut as before
  (`Cut.substitute`), and the new text has the derivation of `f` with the group `g` put in for
  `x` (`exists_tree_substitute`), whatever blanks and neighbours the references have.
-/
import MetricFormula.Proofs.Grammar.Passage
import Mathlib.Data.List.Chain

set_option autoImplicit false

namespace MetricFormula.Grammar

/-! ## Texts -/

/-- The word before some text is no function: no opening parenthesis is next, blanks aside. -/
def Refers (rest : List Char) : Prop := (rest.dropWhile Scan.isGap).head? ≠ some '('

instance (rest : List Char) : Decidable (Refers rest) :=
  inferInstanceAs (Decidable (¬ _ = _))

/-- The text with `inner` in parentheses for every reference to a variable, after the rest of a
word has been passed. -/
def substituteFrom (name inner : List Char) : (passed : Nat) → List Char → List Char
  | _, [] => []
  | passed + 1, _ :: cs => substituteFrom name inner passed cs
  | 0, c :: cs =>
      match Scan.identifier (c :: cs) with
      | some (read, rest) =>
          (if read = name ∧ Refers rest then '(' :: inner ++ [')'] else read)
            ++ substituteFrom name inner (read.length - 1) cs
      | none =>
          match Scan.constant (c :: cs) with
          | some (read, _) => read ++ substituteFrom name inner (read.length - 1) cs
          | none => c :: substituteFrom name inner 0 cs

/-- The text `source` with `inner` in parentheses for every reference to the variable `name`. -/
def substitute (name inner source : String) : String :=
  .ofList (substituteFrom name.toList inner.toList 0 source.toList)

section Texts

variable {name inner cs rest read : List Char} {d : Char} {t : Token}

theorem substituteFrom_passed (name inner : List Char) (n : Nat) (cs : List Char) :
    substituteFrom name inner n cs = substituteFrom name inner 0 (cs.drop n) := by
  induction cs generalizing n with
  | nil => cases n <;> rfl
  | cons c cs ih =>
      cases n with
      | zero => rfl
      | succ n => exact ih n

/-- What follows a word after its first character has been passed. -/
theorem substituteFrom_rest (name inner : List Char) (h : read ++ rest = d :: cs)
    (hne : read ≠ []) :
    substituteFrom name inner (read.length - 1) cs = substituteFrom name inner 0 rest := by
  obtain ⟨e, es, rfl⟩ := List.exists_cons_of_ne_nil hne
  obtain ⟨-, hcs⟩ := List.cons.inj h
  have hcs : cs = es ++ rest := hcs.symm
  rw [substituteFrom_passed, List.length_cons, Nat.add_sub_cancel, hcs, List.drop_left]

theorem Token.Valid.text_ne_nil (h : t.Valid) : t.text ≠ [] := by
  obtain ⟨c, cs, htext, -⟩ := h.starts
  rw [htext]
  exact List.cons_ne_nil c cs

theorem substituteFrom_name (hm : Munches cs (.name read) rest) :
    substituteFrom name inner 0 cs =
      (if read = name ∧ Refers rest then '(' :: inner ++ [')'] else read)
        ++ substituteFrom name inner 0 rest := by
  obtain ⟨d, tail, rfl, -⟩ := hm.starts
  have hrest := substituteFrom_rest name inner hm.append hm.valid.text_ne_nil
  rw [← hrest, substituteFrom, identifier_iff_munches.mpr hm]
  rfl

theorem substituteFrom_literal (hm : Munches cs (.literal read) rest) :
    substituteFrom name inner 0 cs = read ++ substituteFrom name inner 0 rest := by
  obtain ⟨d, tail, rfl, -⟩ := hm.starts
  have hnone : Scan.identifier (d :: tail) = none := by
    rw [Option.eq_none_iff_forall_ne_some]
    rintro ⟨word, rest'⟩ hword
    simpa using ((identifier_iff_munches.mp hword).unique hm).1
  have hrest := substituteFrom_rest name inner hm.append hm.valid.text_ne_nil
  rw [← hrest, substituteFrom, hnone, constant_iff_munches.mpr hm]
  rfl

/-- A character that no word starts with stays. -/
theorem substituteFrom_cons (hname : ∀ word rest, ¬Munches (d :: cs) (.name word) rest)
    (hliteral : ∀ word rest, ¬Munches (d :: cs) (.literal word) rest) :
    substituteFrom name inner 0 (d :: cs) = d :: substituteFrom name inner 0 cs := by
  have hnone : Scan.identifier (d :: cs) = none := by
    rw [Option.eq_none_iff_forall_ne_some]
    exact fun ⟨word, rest⟩ hword => hname word rest (identifier_iff_munches.mp hword)
  have hnone' : Scan.constant (d :: cs) = none := by
    rw [Option.eq_none_iff_forall_ne_some]
    exact fun ⟨word, rest⟩ hword => hliteral word rest (constant_iff_munches.mp hword)
  rw [substituteFrom, hnone, hnone']

theorem substituteFrom_symbol (hd : d ∈ symbols) :
    substituteFrom name inner 0 (d :: cs) = d :: substituteFrom name inner 0 cs := by
  have hm := munches_symbol hd cs
  exact substituteFrom_cons (fun _ _ h => by simpa using (h.unique hm).1)
    fun _ _ h => by simpa using (h.unique hm).1

theorem substituteFrom_gap (hd : Scan.isGap d = true) :
    substituteFrom name inner 0 (d :: cs) = d :: substituteFrom name inner 0 cs :=
  substituteFrom_cons (fun _ _ h => by simp [h.not_isGap] at hd)
    fun _ _ h => by simp [h.not_isGap] at hd

end Texts

/-! ## Tokens -/

/-- A token that is one character. -/
def Token.IsSymbol : Token → Prop
  | .symbol _ => True
  | _ => False

/-- No two names or literals stand next to each other. -/
def WordsApart (ts : List Token) : Prop := ts.IsChain fun t u => t.IsSymbol ∨ u.IsSymbol

section Apart

variable {s : Progress} {t : Token} {ts us : List Token}

theorem WordsApart.of_append (h : WordsApart (ts ++ us)) : WordsApart us :=
  List.IsChain.right_of_append h

theorem WordsApart.tail (h : WordsApart (t :: ts)) : WordsApart ts :=
  List.IsChain.tail h

/-- A symbol follows a word. -/
theorem WordsApart.isSymbol_head (h : WordsApart (t :: ts)) (ht : ¬t.IsSymbol) {u : Token}
    (hu : ts.head? = some u) : u.IsSymbol := by
  obtain ⟨tail, rfl⟩ := List.head?_eq_some_iff.mp hu
  exact (List.rel_of_isChain_cons_cons h).resolve_left ht

/-- Words stand where operands do, and symbols come in between. -/
theorem Accepts.wordsApart (h : Accepts s ts) : WordsApart ts := by
  induction h with
  | nil => exact .nil
  | @cons s s' t us hadvance hrest ih =>
      cases hrest with
      | nil => exact .singleton t
      | cons hnext _ =>
          refine .cons_cons ?_ ih
          cases hadvance with
          | name => cases hnext <;> exact Or.inr trivial
          | literal => cases hnext <;> exact Or.inr trivial
          | _ => exact Or.inl trivial

end Apart

/-- The tokens with those of a group for every reference to a variable. -/
def substituteTokens (name : List Char) (inner : List Token) : List Token → List Token
  | [] => []
  | .name word :: ts =>
      (if word = name ∧ ts.head? ≠ some (.symbol '(') then
        .symbol '(' :: inner ++ [.symbol ')'] else [.name word]) ++ substituteTokens name inner ts
  | .literal word :: ts => .literal word :: substituteTokens name inner ts
  | .symbol c :: ts => .symbol c :: substituteTokens name inner ts

section Cuts

variable {name inner cs rest : List Char} {d : Char} {t : Token} {ts us vs : List Token}

/-- The next character, blanks aside, tells whether a parenthesis is the next token. -/
theorem refers_iff (h : Cut rest ts) : Refers rest ↔ ts.head? ≠ some (.symbol '(') := by
  refine not_congr ⟨fun hhead => ?_, fun hhead => ?_⟩
  · obtain ⟨t, ht, hstarts⟩ := h.front.starts_of_head hhead
    rw [ht, hstarts.eq_symbol (by decide)]
  · obtain ⟨tail, rfl⟩ := List.head?_eq_some_iff.mp hhead
    obtain ⟨rest', hm, -⟩ := h.front.of_cons
    rw [← hm.append]
    rfl

/-- A token is still the longest one before another text, if it is a symbol or that text ends
it. -/
theorem Munches.before {x : List Char} (hm : Munches cs t rest)
    (hx : ∀ d, x.head? = some d → t.IsSymbol ∨ EndsWord d) : Munches (t.text ++ x) t x := by
  cases t with
  | symbol c => exact munches_symbol hm.valid x
  | _ => exact hm.transfer fun d hd => Or.inl ((hx d hd).resolve_left id)

/-- What follows a word that is apart from the next one ends it. -/
theorem Cut.endsWord_head (h : Cut rest us) (hapart : WordsApart (t :: us))
    (hd : rest.head? = some d) : t.IsSymbol ∨ EndsWord d := by
  cases h with
  | nil => simp at hd
  | gap hgap _ =>
      obtain rfl := Option.some.inj hd
      exact Or.inr (endsWord_of_isGap hgap)
  | @token _ _ u _ hm _ =>
      refine (List.rel_of_isChain_cons_cons hapart).imp_right fun hu => ?_
      cases u with
      | symbol c =>
          rw [← hm.append] at hd
          obtain rfl := Option.some.inj hd
          exact endsWord_of_mem_symbols hm.valid
      | _ => exact hu.elim

/-- A text and then another one, which ends its last word. -/
theorem Cut.append (h : Cut cs ts) (hapart : WordsApart ts) (hd : EndsWord d)
    (hrest : Cut (d :: rest) us) : Cut (cs ++ d :: rest) (ts ++ us) := by
  induction h with
  | nil => exact hrest
  | gap hgap _ ih => exact .gap hgap (ih hapart)
  | @token cs tail t ts hm htail ih =>
      have hends : ∀ e, (tail ++ d :: rest).head? = some e → t.IsSymbol ∨ EndsWord e := by
        intro e he
        cases tail with
        | nil => exact Or.inr (Option.some.inj he ▸ hd)
        | cons _ _ => exact htail.endsWord_head hapart he
      rw [← hm.append, List.append_assoc]
      exact .token (hm.before hends) (ih hapart.tail)

/-- Before a symbol, a blank or the end, nothing is put in. -/
theorem Cut.head?_substituteFrom (h : Cut rest us) (hus : ∀ u, us.head? = some u → u.IsSymbol) :
    (substituteFrom name inner 0 rest).head? = rest.head? := by
  cases h with
  | nil => rfl
  | gap hgap _ => rw [substituteFrom_gap hgap, List.head?_cons, List.head?_cons]
  | @token _ _ u _ hm _ =>
      have hu := hus u rfl
      cases u with
      | symbol c =>
          rw [← hm.append]
          change (substituteFrom name inner 0 (c :: _)).head? = _
          rw [substituteFrom_symbol hm.valid, List.head?_cons]
          rfl
      | _ => exact hu.elim

/-- A text with words apart is cut, after the substitution, into the tokens that were put in and
those that were left. -/
theorem Cut.substitute (name : List Char) (h : Cut cs ts) (hapart : WordsApart ts)
    (hinner : Cut inner us) (hinnerApart : WordsApart us) :
    Cut (substituteFrom name inner 0 cs) (substituteTokens name us ts) := by
  have hgroup : ∀ {rest vs}, Cut rest vs → Cut ('(' :: inner ++ ([')'] ++ rest))
      (.symbol '(' :: us ++ ([.symbol ')'] ++ vs)) := by
    intro rest vs hrest
    refine .token (munches_symbol (by decide) _) ?_
    exact hinner.append hinnerApart (endsWord_of_mem_symbols (by decide))
      (.token (munches_symbol (by decide) _) hrest)
  induction h with
  | nil => exact .nil
  | gap hgap _ ih =>
      rw [substituteFrom_gap hgap]
      exact .gap hgap (ih hapart)
  | @token cs rest t ts hm hrest ih =>
      -- A word that is left still ends before what follows it.
      have hends : ∀ d, (substituteFrom name inner 0 rest).head? = some d →
          t.IsSymbol ∨ EndsWord d := by
        intro d hd
        by_cases ht : t.IsSymbol
        · exact Or.inl ht
        · rw [hrest.head?_substituteFrom fun u hu => hapart.isSymbol_head ht hu] at hd
          exact hrest.endsWord_head hapart hd
      have hkept := Cut.token (hm.before hends) (ih hapart.tail)
      cases t with
      | symbol c =>
          rw [← hm.append]
          change Cut (substituteFrom name inner 0 (c :: rest)) _
          rw [substituteFrom_symbol hm.valid]
          exact hkept
      | literal word =>
          rw [substituteFrom_literal hm]
          exact hkept
      | name word =>
          rw [substituteFrom_name hm, substituteTokens]
          by_cases hname : word = name ∧ Refers rest
          · rw [if_pos hname, if_pos ⟨hname.1, (refers_iff hrest).mp hname.2⟩, List.append_assoc,
              List.append_assoc]
            exact hgroup (ih hapart.tail)
          · rw [if_neg hname, if_neg fun h => hname ⟨h.1, (refers_iff hrest).mpr h.2⟩]
            exact hkept

end Cuts

/-! ## Phrases -/

section Phrases

variable (put : List Char → FactorPhrase)

mutual

/-- The expression with another factor for every reference to a variable. -/
def ExpressionPhrase.substitute : ExpressionPhrase → ExpressionPhrase
  | .mk first steps => .mk first.substitute (ExpressionPhrase.substituteSteps steps)

def ExpressionPhrase.substituteSteps : List ExpressionPhraseStep → List ExpressionPhraseStep
  | [] => []
  | .mk operator term :: steps =>
      .mk operator term.substitute :: ExpressionPhrase.substituteSteps steps

def TermPhrase.substitute : TermPhrase → TermPhrase
  | .mk first steps => .mk first.substitute (TermPhrase.substituteSteps steps)

def TermPhrase.substituteSteps : List TermPhraseStep → List TermPhraseStep
  | [] => []
  | .mk operator factor :: steps =>
      .mk operator factor.substitute :: TermPhrase.substituteSteps steps

/-- The name of a function is no reference. -/
def FactorPhrase.substitute : FactorPhrase → FactorPhrase
  | .call function first others =>
      .call function first.substitute (ExpressionPhrase.substituteArguments others)
  | .reference word => put word
  | .constant literal => .constant literal
  | .group inner => .group inner.substitute

def ExpressionPhrase.substituteArguments : List ExpressionPhrase → List ExpressionPhrase
  | [] => []
  | e :: es => e.substitute :: ExpressionPhrase.substituteArguments es

end

/-- The group `g` for one variable, and every other variable itself. -/
def putGroup (name : List Char) (g : ExpressionPhrase) (word : List Char) : FactorPhrase :=
  if word = name then .group g else .reference word

end Phrases

section Sentences

variable {name : List Char} {g : ExpressionPhrase} {inner : List Token}

/-- The name of a function is left. -/
theorem substituteTokens_call (function : List Char) (ts : List Token) :
    substituteTokens name inner (.name function :: .symbol '(' :: ts) =
      .name function :: .symbol '(' :: substituteTokens name inner ts := by
  rw [substituteTokens, if_neg (by simp)]
  rfl

/-- What follows a word is no parenthesis after the substitution either. -/
theorem head?_substituteTokens {word : List Char} {us : List Token}
    (hapart : WordsApart (.name word :: us)) (hus : us.head? ≠ some (.symbol '(')) :
    (substituteTokens name inner us).head? ≠ some (.symbol '(') := by
  cases us with
  | nil => simp [substituteTokens]
  | cons u us =>
      have hu := hapart.isSymbol_head id rfl
      cases u with
      | symbol c => exact hus
      | _ => exact hu.elim

mutual

/-- Putting the tokens of a group in for a variable puts the group in. -/
theorem IsExpression.substitute
    (hg : ∀ vs, IsExpression (inner ++ .symbol ')' :: vs) g (.symbol ')' :: vs)) :
    ∀ {e : ExpressionPhrase} {ts us : List Token}, IsExpression ts e us → WordsApart ts →
    IsExpression (substituteTokens name inner ts) (e.substitute (putGroup name g))
      (substituteTokens name inner us)
  | .mk _ _, _, _, .mk hfirst hsteps, h => by
      have hfirst' := hfirst.substitute hg h
      obtain ⟨read, rfl, -⟩ := hfirst.append
      exact .mk hfirst' (hsteps.substitute hg h.of_append)

theorem AreExpressionSteps.substitute
    (hg : ∀ vs, IsExpression (inner ++ .symbol ')' :: vs) g (.symbol ')' :: vs)) :
    ∀ {steps : List ExpressionPhraseStep} {ts us : List Token},
    AreExpressionSteps ts steps us → WordsApart ts →
    AreExpressionSteps (substituteTokens name inner ts)
      (ExpressionPhrase.substituteSteps (putGroup name g) steps) (substituteTokens name inner us)
  | [], _, _, .nil, _ => .nil
  | .mk _ _ :: _, _, _, .cons hterm hsteps, h => by
      have hterm' := hterm.substitute hg h.tail
      obtain ⟨read, rfl, -⟩ := hterm.append
      exact .cons hterm' (hsteps.substitute hg h.tail.of_append)

theorem IsTerm.substitute
    (hg : ∀ vs, IsExpression (inner ++ .symbol ')' :: vs) g (.symbol ')' :: vs)) :
    ∀ {t : TermPhrase} {ts us : List Token}, IsTerm ts t us → WordsApart ts →
    IsTerm (substituteTokens name inner ts) (t.substitute (putGroup name g))
      (substituteTokens name inner us)
  | .mk _ _, _, _, .mk hfirst hsteps, h => by
      have hfirst' := hfirst.substitute hg h
      obtain ⟨read, rfl, -⟩ := hfirst.append
      exact .mk hfirst' (hsteps.substitute hg h.of_append)

theorem AreTermSteps.substitute
    (hg : ∀ vs, IsExpression (inner ++ .symbol ')' :: vs) g (.symbol ')' :: vs)) :
    ∀ {steps : List TermPhraseStep} {ts us : List Token},
    AreTermSteps ts steps us → WordsApart ts →
    AreTermSteps (substituteTokens name inner ts)
      (TermPhrase.substituteSteps (putGroup name g) steps) (substituteTokens name inner us)
  | [], _, _, .nil, _ => .nil
  | .mk _ _ :: _, _, _, .cons hfactor hsteps, h => by
      have hfactor' := hfactor.substitute hg h.tail
      obtain ⟨read, rfl, -⟩ := hfactor.append
      exact .cons hfactor' (hsteps.substitute hg h.tail.of_append)

theorem IsFactor.substitute
    (hg : ∀ vs, IsExpression (inner ++ .symbol ')' :: vs) g (.symbol ')' :: vs)) :
    ∀ {x : FactorPhrase} {ts us : List Token}, IsFactor ts x us → WordsApart ts →
    IsFactor (substituteTokens name inner ts) (x.substitute (putGroup name g))
      (substituteTokens name inner us)
  | .call _ _ _, _, _, .call hfirst hothers, h => by
      rw [substituteTokens_call]
      have hfirst' := hfirst.substitute hg h.tail.tail
      obtain ⟨read, rfl, -⟩ := hfirst.append
      exact .call hfirst' (hothers.substitute hg h.tail.tail.of_append)
  | .reference word, _, us, .reference hus, h => by
      rw [substituteTokens, FactorPhrase.substitute, putGroup]
      by_cases hword : word = name
      · rw [if_pos ⟨hword, hus⟩, if_pos hword, List.append_assoc]
        exact .group (hg _)
      · rw [if_neg fun hand => hword hand.1, if_neg hword]
        exact .reference (head?_substituteTokens h hus)
  | .constant _, _, _, .constant, _ => .constant
  | .group _, _, _, .group hinner, h => .group (hinner.substitute hg h.tail)

theorem AreArguments.substitute
    (hg : ∀ vs, IsExpression (inner ++ .symbol ')' :: vs) g (.symbol ')' :: vs)) :
    ∀ {es : List ExpressionPhrase} {ts us : List Token},
    AreArguments ts es us → WordsApart ts →
    AreArguments (substituteTokens name inner ts)
      (ExpressionPhrase.substituteArguments (putGroup name g) es) (substituteTokens name inner us)
  | [], _, _, .nil, _ => .nil
  | _ :: _, _, _, .cons he hes, h => by
      have he' := he.substitute hg h.tail
      obtain ⟨read, rfl, -⟩ := he.append
      exact .cons he' (hes.substitute hg h.tail.of_append)

end

end Sentences

/-! ## Parse trees -/

/-- The tokens of a text that is read as a whole are its phrase also before other tokens, unless
these open a parenthesis. -/
theorem exists_tokens_of_tree {source : String} {t : ExpressionTree} (h : tree source = .ok t) :
    ∃ ts, Cut source.toList ts ∧ WordsApart ts ∧
      ∀ us, us.head? ≠ some (.symbol '(') → IsExpression (ts ++ us) t.phrase us := by
  obtain ⟨d, hread, hend⟩ := tree_at h
  obtain ⟨ps, hps, hstands⟩ := hread.stands
  have hcut := ((CutTo.afterGap (Cursor.ofString source)).trans hps).cutAt
    ((CutTo.afterGap d).cutAt (.nil hend))
  rw [List.nil_append, List.nil_append, List.append_nil] at hcut
  have hphrase : ∀ us, us.head? ≠ some (.symbol '(') →
      IsExpression (ps.map PlacedToken.token ++ us) t.phrase us := by
    intro us hus
    -- Where the tokens that follow stand makes no difference.
    have hplaced : (us.map fun u => (⟨u, .point 0⟩ : PlacedToken)).map PlacedToken.token = us := by
      simp [Function.comp_def]
    have hstand := (hstands (us.map fun u => ⟨u, .point 0⟩) (by rwa [NotOpening, hplaced])).phrase
    rwa [List.map_append, hplaced] at hstand
  have hsentence := hphrase [] (by simp)
  rw [List.append_nil] at hsentence
  exact ⟨_, hcut.cut, (accepts_iff_sentence.mpr ⟨_, hsentence⟩).wordsApart, hphrase⟩

/-- If two texts are read as a whole, then so is the one with the other put in for a variable,
and its derivation has the group put in. -/
theorem exists_tree_substitute {x f g : String} {t u : ExpressionTree} (hf : tree f = .ok t)
    (hg : tree g = .ok u) :
    ∃ t', tree (substitute x g f) = .ok t' ∧
      t'.phrase = t.phrase.substitute (putGroup x.toList u.phrase) := by
  obtain ⟨ts, hcut, hapart, hsentence⟩ := exists_tokens_of_tree hf
  obtain ⟨us, hcut', hapart', hsentence'⟩ := exists_tokens_of_tree hg
  have hsubstituted : Cut (substitute x g f).toList (substituteTokens x.toList us ts) := by
    rw [substitute, String.toList_ofList]
    exact hcut.substitute x.toList hapart hcut' hapart'
  have hphrase := hsentence [] (by simp)
  rw [List.append_nil] at hphrase
  exact tree_complete hsubstituted (hphrase.substitute (fun vs => hsentence' _ (by simp)) hapart)

end MetricFormula.Grammar
