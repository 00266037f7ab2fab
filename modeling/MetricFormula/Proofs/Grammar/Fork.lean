/-
  Proofs/Grammar/Fork: two texts that are the same up to a call.

  Two texts that are the same up to an opening parenthesis are cut into the same tokens up to
  it (`CutAt.exists_common`).  If a call starts before that parenthesis, the tokens are the
  same up to the opening parenthesis of a call (`Forked`).

  Read from such places (`Cursor.Twin`), the parts come out the same for as long as that call
  is not reached, and end at such places again.  The part that reaches it is the same up to
  the call in both trees, which starts at one place (`ExpressionTree.Forked`).  So much holds
  of any two readings that nothing else can follow (`ExpressionAt.forked`).
-/
import MetricFormula.Proofs.Nesting
import MetricFormula.Proofs.Grammar.Sound
import MetricFormula.Proofs.Grammar.Construct

set_option autoImplicit false

namespace MetricFormula.Grammar

open Text

/-! ## Texts that are the same up to an opening parenthesis -/

section Text

variable {front tail x : List Char} {t : Token}

/-- A token at the front of a text does not reach past an opening parenthesis. -/
theorem Token.Valid.exists_front (ht : t.Valid) (hfront : front ≠ [])
    (h : t.text ++ tail = front ++ '(' :: x) :
    ∃ middle, front = t.text ++ middle ∧ tail = middle ++ '(' :: x := by
  rcases List.append_eq_append_iff.mp h with ⟨middle, hmiddle, htail⟩ | ⟨excess, htext, hexcess⟩
  · exact ⟨middle, hmiddle, htail⟩
  cases excess with
  | nil => exact ⟨[], by simp [htext], by simpa using hexcess.symm⟩
  | cons d excess =>
      obtain ⟨rfl, -⟩ := List.cons.inj hexcess
      by_cases hsymbol : ∃ d, t = .symbol d
      · obtain ⟨d, rfl⟩ := hsymbol
        have hlength := congrArg List.length htext
        have hpos := List.length_pos_iff.mpr hfront
        simp only [Token.text, List.length_append, List.length_cons, List.length_nil] at hlength
        omega
      · have hmem : '(' ∈ t.text := by simp [htext]
        have hplain : ∀ d, t ≠ .symbol d := fun d hd => hsymbol ⟨d, hd⟩
        exact absurd rfl (Nesting.not_parenthesis_of_mem ht hplain _ hmem).1

/-- The longest token is the same whatever comes after an opening parenthesis. -/
theorem Munches.exists_front (hm : Munches (front ++ '(' :: x) t tail) (hfront : front ≠ [])
    (x' : List Char) :
    ∃ middle, front = t.text ++ middle ∧ tail = middle ++ '(' :: x ∧
      Munches (front ++ '(' :: x') t (middle ++ '(' :: x') := by
  obtain ⟨middle, hmiddle, htail⟩ := hm.valid.exists_front hfront hm.append
  refine ⟨middle, hmiddle, htail, hm.valid, by simp [hmiddle], ?_⟩
  intro u more hu happ
  obtain ⟨middle', hmiddle', -⟩ := hu.exists_front hfront happ
  exact hm.longest u (middle' ++ '(' :: x) hu (by simp [hmiddle'])

end Text

namespace CutAt

variable {c c' d : Cursor} {ps ps' qs : List PlacedToken} {t : Token}

theorem of_gap {e : Char} {cs : List Char} (h : CutAt c ps) (hrest : c.rest = e :: cs)
    (he : Scan.isGap e = true) : CutAt (c.past [e] cs) ps := by
  cases h with
  | nil hnil => simp [hrest] at hnil
  | gap hcons _ hps =>
      rw [hrest] at hcons
      obtain ⟨rfl, rfl⟩ := List.cons.inj hcons
      exact hps
  | token hm _ =>
      rw [hrest] at hm
      simp [hm.not_isGap] at he

theorem of_munches {rest : List Char} (h : CutAt c ps) (hm : Munches c.rest t rest) :
    ∃ qs, ps = ⟨t, ⟨c.offset, c.offset + byteLength t.text⟩⟩ :: qs ∧
      CutAt (c.past t.text rest) qs := by
  cases h with
  | nil hnil => exact absurd hnil hm.ne_nil
  | gap hcons hd _ =>
      rw [hcons] at hm
      simp [hm.not_isGap] at hd
  | token hm' hps =>
      obtain ⟨rfl, rfl⟩ := hm.unique hm'
      exact ⟨_, rfl, hps⟩

/-- Texts that are the same up to an opening parenthesis are cut into the same tokens up to
it. -/
theorem exists_common {front x x' : List Char} (h : CutAt c ps)
    (hrest : c.rest = front ++ '(' :: x) (hrest' : c'.rest = front ++ '(' :: x')
    (hoffset : c'.offset = c.offset) (h' : CutAt c' ps') :
    ∃ common qs qs' d n, ps = common ++ .symbol '(' n :: qs ∧
      ps' = common ++ .symbol '(' n :: qs' ∧ CutAt d qs ∧
        c.offset + byteLength front < d.offset := by
  induction h generalizing front c' ps' with
  | nil hnil => simp [hnil] at hrest
  | @gap c e cs ps hcons he _ ih =>
      rw [hcons] at hrest
      cases front with
      | nil =>
          obtain ⟨rfl, -⟩ := List.cons.inj hrest
          exact absurd he (by decide)
      | cons e' front =>
          obtain ⟨rfl, hcs⟩ := List.cons.inj hrest
          obtain ⟨common, qs, qs', d, n, hps, hps', hd, hlt⟩ :=
            ih hcs rfl (by simp [Cursor.past, hoffset]) (h'.of_gap hrest' he)
          refine ⟨common, qs, qs', d, n, hps, hps', hd, ?_⟩
          simpa [Cursor.past, Nat.add_assoc] using hlt
  | @token c rest t ps hm hps ih =>
      rw [hrest] at hm
      cases front with
      | nil =>
          obtain ⟨rfl, rfl⟩ := hm.unique (munches_symbol (by decide) x)
          have hopening : Munches c'.rest (.symbol '(') x' := by
            rw [hrest']
            exact munches_symbol (by decide) x'
          obtain ⟨qs', rfl, -⟩ := h'.of_munches hopening
          refine ⟨[], ps, qs', _, c.offset, rfl, ?_, hps, Nat.lt_succ_self _⟩
          rw [List.nil_append, hoffset]
          rfl
      | cons e front =>
          obtain ⟨middle, hmiddle, rfl, hm'⟩ := hm.exists_front (List.cons_ne_nil e front) x'
          obtain ⟨ps', rfl, hps'⟩ := h'.of_munches (hrest' ▸ hm')
          obtain ⟨common, qs, qs', d, n, rfl, rfl, hd, hlt⟩ :=
            ih rfl rfl (by simp [Cursor.past, hoffset]) hps'
          refine ⟨_ :: common, qs, qs', d, n, rfl, by rw [hoffset]; rfl, hd, ?_⟩
          rw [hmiddle, byteLength_append, ← Nat.add_assoc]
          exact hlt

end CutAt

/-! ## Tokens that are the same up to a call -/

/-- Two rows of tokens that are the same up to the opening parenthesis of a call. -/
inductive Forked : List PlacedToken → List PlacedToken → Prop
  | call {p opening : PlacedToken} {name : List Char} {ps ps' : List PlacedToken} :
      p.token = .name name → opening.token = .symbol '(' →
      Forked (p :: opening :: ps) (p :: opening :: ps')
  | token {p : PlacedToken} {ps ps' : List PlacedToken} : Forked ps ps' →
      Forked (p :: ps) (p :: ps')

theorem Forked.symm {ps ps' : List PlacedToken} (h : Forked ps ps') : Forked ps' ps := by
  induction h with
  | call hname hopening => exact .call hname hopening
  | token _ ih => exact .token ih

theorem Forked.exists_head {ps ps' : List PlacedToken} (h : Forked ps ps') :
    ∃ p qs qs', ps = p :: qs ∧ ps' = p :: qs' := by
  cases h with
  | call _ _ => exact ⟨_, _, _, rfl, rfl⟩
  | token _ => exact ⟨_, _, _, rfl, rfl⟩

/-- A construct starts where its first token does. -/
theorem start_of_constructAt? {p : PlacedToken} {ps : List PlacedToken} {k : Construct}
    (h : constructAt? p ps = some k) : k.span.start = p.span.start := by
  unfold constructAt? at h
  split at h
  · obtain rfl := Option.some.inj h
    rfl
  · split at h
    · obtain ⟨stop, -, rfl⟩ := Option.map_eq_some_iff.mp h
      rfl
    · simp at h
  · simp at h

/-- The constructs after a place start after it. -/
theorem CutAt.le_of_mem_constructs {c : Cursor} {ps : List PlacedToken} (h : CutAt c ps) :
    ∀ k ∈ constructs ps, c.offset ≤ k.span.start := by
  induction h with
  | nil _ => simp [constructs]
  | gap _ _ _ ih => exact fun k hk => Nat.le_trans (Nat.le_add_right _ _) (ih k hk)
  | token _ _ ih =>
      intro k hk
      rw [constructs] at hk
      rcases List.mem_append.mp hk with hk | hk
      · exact Nat.le_of_eq (start_of_constructAt? (Option.mem_toList.mp hk)).symm
      · exact Nat.le_trans (Nat.le_add_right _ _) (ih k hk)

/-- A call is a name, an opening parenthesis, and what stands up to the one that closes it. -/
theorem exists_of_constructAt?_call {p : PlacedToken} {ps : List PlacedToken} {name : String}
    {span : Span} (h : constructAt? p ps = some (.call name span)) :
    ∃ opening qs stop, p.token = .name name.toList ∧ ps = opening :: qs ∧
      opening.token = .symbol '(' ∧ closing? 0 qs = some stop ∧ span = ⟨p.span.start, stop⟩ := by
  unfold constructAt? at h
  split at h
  · simp at h
  · rename_i cs hname
    split at h
    · rename_i hhead
      obtain ⟨opening, hps, hopening⟩ := Option.map_eq_some_iff.mp (List.head?_map ▸ hhead)
      obtain ⟨qs, rfl⟩ := List.head?_eq_some_iff.mp hps
      obtain ⟨stop, hstop, hcall⟩ := Option.map_eq_some_iff.mp h
      obtain ⟨rfl, rfl⟩ := Construct.call.inj hcall
      exact ⟨opening, qs, stop, by rw [hname, String.toList_ofList], rfl, hopening, hstop, rfl⟩
    · simp at h
  · simp at h

/-- Tokens that are the same up to an opening parenthesis are so up to that of a call, if a
call among them does not come after it. -/
theorem forked_of_mem_constructs {common qs : List PlacedToken} {n : Nat} {name : String}
    {span : Span} (h : .call name span ∈ constructs (common ++ .symbol '(' n :: qs))
    (hafter : .call name span ∉ constructs qs) (qs' : List PlacedToken) :
    Forked (common ++ .symbol '(' n :: qs) (common ++ .symbol '(' n :: qs') := by
  induction common with
  | nil => exact absurd h hafter
  | cons p common ih =>
      rw [List.cons_append, constructs] at h
      rcases List.mem_append.mp h with h | h
      · obtain ⟨opening, rest, -, hname, hrest, hopening, -, -⟩ :=
          exists_of_constructAt?_call (Option.mem_toList.mp h)
        cases common with
        | nil => exact .call hname rfl
        | cons q common =>
            obtain ⟨rfl, -⟩ := List.cons.inj hrest
            exact .call hname hopening
      · exact .token (ih h)

/-- Texts that are the same up to an opening parenthesis are cut into tokens that are the same
up to that of a call, if a call starts before it. -/
theorem CutAt.forked {c c' : Cursor} {ps ps' : List PlacedToken} {front x x' : List Char}
    {name : String} {span : Span} (h : CutAt c ps) (h' : CutAt c' ps')
    (hrest : c.rest = front ++ '(' :: x) (hrest' : c'.rest = front ++ '(' :: x')
    (hoffset : c'.offset = c.offset) (hcall : .call name span ∈ constructs ps)
    (hbefore : span.start ≤ c.offset + byteLength front) : Forked ps ps' := by
  obtain ⟨common, qs, qs', d, n, rfl, rfl, hd, hlt⟩ := h.exists_common hrest hrest' hoffset h'
  refine forked_of_mem_constructs hcall (fun hafter => ?_) qs'
  have hle := hd.le_of_mem_constructs _ hafter
  exact absurd (Nat.lt_of_lt_of_le hlt hle) (Nat.not_lt.mpr hbefore)

/-! ## Places before a call -/

section Places

variable {c c' d d' e : Cursor} {ps qs : List PlacedToken} {p : PlacedToken} {t u : Token}

theorem TokenAt.unique (h : TokenAt c t d) (h' : TokenAt c u e) : t = u ∧ d = e := by
  obtain ⟨rest, hm, rfl⟩ := h
  obtain ⟨rest', hm', rfl⟩ := h'
  obtain ⟨rfl, rfl⟩ := hm.unique hm'
  exact ⟨rfl, rfl⟩

/-- The cut of a text goes through every place that its tokens lead to. -/
theorem CutAt.of_cutTo (hto : CutTo c qs d) (h : CutAt c ps) :
    ∃ rs, ps = qs ++ rs ∧ CutAt d rs := by
  induction hto generalizing ps with
  | nil => exact ⟨ps, rfl, h⟩
  | gap hrest he _ ih => exact ih (h.of_gap hrest he)
  | token hm _ ih =>
      obtain ⟨ps, rfl, hps⟩ := h.of_munches hm
      obtain ⟨rs, rfl, hrs⟩ := ih hps
      exact ⟨rs, rfl, hrs⟩

theorem CutAt.of_tokenAt (h : CutAt c ps) (ht : TokenAt c t d) :
    ∃ qs, ps = ⟨t, ⟨c.offset, d.offset⟩⟩ :: qs ∧ CutAt d qs :=
  h.of_cutTo ht.cutTo

theorem CutAt.afterGap (h : CutAt c ps) : CutAt c.afterGap ps := by
  obtain ⟨_, rfl, hps⟩ := h.of_cutTo (.afterGap c)
  exact hps

/-- The first token stands where the blanks end. -/
theorem CutAt.exists_tokenAt (h : CutAt c (p :: ps)) :
    ∃ d, TokenAt c.afterGap p.token d ∧ p.span.start = c.afterGap.offset ∧ CutAt d ps := by
  have hgap := h.afterGap
  have hat := c.atToken_afterGap
  generalize c.afterGap = e at hgap hat
  cases hgap with
  | gap hrest hd _ =>
      have hnot := hat _ (by rw [hrest, List.head?_cons])
      simp [hnot] at hd
  | token hm hps => exact ⟨_, ⟨_, hm, rfl⟩, rfl, hps⟩

/-- Two places, at one offset, from which on the tokens are the same up to a call. -/
structure Cursor.Twin (c c' : Cursor) : Prop where
  offset : c.offset = c'.offset
  tokens : ∃ ps ps', CutAt c ps ∧ CutAt c' ps' ∧ Forked ps ps'

namespace Cursor.Twin

theorem symm (h : c.Twin c') : c'.Twin c := by
  obtain ⟨hoffset, ps, ps', hps, hps', hforked⟩ := h
  exact ⟨hoffset.symm, ps', ps, hps', hps, hforked.symm⟩

/-- The next token is the same, at the same place. -/
theorem exists_tokenAt (h : c.Twin c') : ∃ t d d', TokenAt c.afterGap t d ∧
    TokenAt c'.afterGap t d' ∧ c.afterGap.offset = c'.afterGap.offset := by
  obtain ⟨-, _, _, hps, hps', hforked⟩ := h
  obtain ⟨p, rest, rest', rfl, rfl⟩ := hforked.exists_head
  obtain ⟨d, hd, hoffset, -⟩ := hps.exists_tokenAt
  obtain ⟨d', hd', hoffset', -⟩ := hps'.exists_tokenAt
  exact ⟨p.token, d, d', hd, hd', hoffset.symm.trans hoffset'⟩

theorem afterGap (h : c.Twin c') : c.afterGap.Twin c'.afterGap := by
  obtain ⟨-, -, -, -, -, hoffset⟩ := h.exists_tokenAt
  obtain ⟨-, ps, ps', hps, hps', hforked⟩ := h
  exact ⟨hoffset, ps, ps', hps.afterGap, hps'.afterGap, hforked⟩

/-- After the next token the places are such again, unless it is the name of the call. -/
theorem of_tokenAt (h : c.Twin c') (ht : TokenAt c t d) (hu : TokenAt c' u d') :
    t = u ∧ d.offset = d'.offset ∧ (d.Twin d' ∨ (∃ name, t = .name name) ∧
      ∃ e e', TokenAt d.afterGap (.symbol '(') e ∧ TokenAt d'.afterGap (.symbol '(') e') := by
  obtain ⟨-, _, _, hps, hps', hforked⟩ := h
  obtain ⟨qs, rfl, hqs⟩ := hps.of_tokenAt ht
  obtain ⟨qs', rfl, hqs'⟩ := hps'.of_tokenAt hu
  generalize hp : (⟨t, ⟨c.offset, d.offset⟩⟩ : PlacedToken) = p at hforked
  generalize hp' : (⟨u, ⟨c'.offset, d'.offset⟩⟩ : PlacedToken) = p' at hforked
  have hsame : p = p' → t = u ∧ d.offset = d'.offset := by
    rintro rfl
    rw [← hp', PlacedToken.mk.injEq, Span.mk.injEq] at hp
    exact ⟨hp.1, hp.2.2⟩
  cases hforked with
  | call hname hopening =>
      obtain ⟨e, he, -, -⟩ := hqs.exists_tokenAt
      obtain ⟨e', he', -, -⟩ := hqs'.exists_tokenAt
      rw [hopening] at he he'
      rw [← hp] at hname
      obtain ⟨htoken, hoffset⟩ := hsame rfl
      exact ⟨htoken, hoffset, Or.inr ⟨⟨_, hname⟩, e, e', he, he'⟩⟩
  | token hrest =>
      obtain ⟨htoken, hoffset⟩ := hsame rfl
      exact ⟨htoken, hoffset, Or.inl ⟨hoffset, qs, qs', hqs, hqs', hrest⟩⟩

/-- After a symbol the places are such again. -/
theorem of_symbolAt {x y : Char} (h : c.Twin c') (ht : TokenAt c (.symbol x) d)
    (hu : TokenAt c' (.symbol y) d') : x = y ∧ d.Twin d' := by
  obtain ⟨heq, -, htwin | ⟨⟨name, hname⟩, -⟩⟩ := h.of_tokenAt ht hu
  · exact ⟨Token.symbol.inj heq, htwin⟩
  · cases hname

end Cursor.Twin

/-- If another token comes, it is one of some symbols. -/
def Cursor.FollowedBy (c : Cursor) (ds : List Char) : Prop :=
  ∀ t d, TokenAt c.afterGap t d → ∃ x ∈ ds, t = .symbol x

namespace Cursor.FollowedBy

variable {ds es : List Char}

theorem of_tokenAt {x : Char} (h : TokenAt c.afterGap (.symbol x) d) (hx : x ∈ ds) :
    c.FollowedBy ds := by
  intro t e ht
  obtain ⟨rfl, -⟩ := h.unique ht
  exact ⟨x, hx, rfl⟩

theorem mono (h : c.FollowedBy ds) (hsub : ds ⊆ es) : c.FollowedBy es := by
  intro t d ht
  obtain ⟨x, hx, rfl⟩ := h t d ht
  exact ⟨x, hsub hx, rfl⟩

theorem not_tokenAt {x : Char} (h : c.FollowedBy ds) (hx : x ∉ ds) :
    ¬TokenAt c.afterGap (.symbol x) d := by
  intro ht
  obtain ⟨y, hy, heq⟩ := h _ _ ht
  exact hx (Token.symbol.inj heq ▸ hy)

@[simp] theorem afterGap_iff : c.afterGap.FollowedBy ds ↔ c.FollowedBy ds := by
  unfold FollowedBy
  rw [c.afterGap_afterGap]

@[simp] theorem beyond_iff {α : Type} {parts : List α} :
    (c.beyond parts).FollowedBy ds ↔ c.FollowedBy ds := by
  cases parts with
  | nil => exact afterGap_iff
  | cons _ _ => exact Iff.rfl

end Cursor.FollowedBy

/-- What does not follow one of two such places does not follow the other one. -/
theorem Cursor.Twin.not_tokenAt {ds : List Char} {x : Char} (h : c.Twin c')
    (hfollowed : c.FollowedBy ds) (hx : x ∉ ds) : ¬TokenAt c'.afterGap (.symbol x) e := by
  intro hu
  obtain ⟨t, d, d', ht, ht', -⟩ := h.exists_tokenAt
  obtain ⟨rfl, -⟩ := ht'.unique hu
  exact hfollowed.not_tokenAt hx ht

end Places

/-! ## Trees that are the same up to a call -/

mutual

/-- The first terms are the same up to a call, or the steps are after the same first terms. -/
inductive ExpressionTree.Forked : ExpressionTree → ExpressionTree → Prop
  | first {span span' : Span} {first first' : TermTree} {steps steps' : List ExpressionStep} :
      TermTree.Forked first first' →
      ExpressionTree.Forked (.mk span first steps) (.mk span' first' steps')
  | steps {span span' : Span} {first : TermTree} {steps steps' : List ExpressionStep} :
      ExpressionTree.StepsForked steps steps' →
      ExpressionTree.Forked (.mk span first steps) (.mk span' first steps')

inductive ExpressionTree.StepsForked : List ExpressionStep → List ExpressionStep → Prop
  | head {operator : AdditiveOperator} {place : Nat} {term term' : TermTree}
      {steps steps' : List ExpressionStep} : TermTree.Forked term term' →
      ExpressionTree.StepsForked (.mk operator place term :: steps)
        (.mk operator place term' :: steps')
  | tail {step : ExpressionStep} {steps steps' : List ExpressionStep} :
      ExpressionTree.StepsForked steps steps' →
      ExpressionTree.StepsForked (step :: steps) (step :: steps')

inductive TermTree.Forked : TermTree → TermTree → Prop
  | first {span span' : Span} {first first' : FactorTree} {steps steps' : List TermStep} :
      FactorTree.Forked first first' →
      TermTree.Forked (.mk span first steps) (.mk span' first' steps')
  | steps {span span' : Span} {first : FactorTree} {steps steps' : List TermStep} :
      TermTree.StepsForked steps steps' →
      TermTree.Forked (.mk span first steps) (.mk span' first steps')

inductive TermTree.StepsForked : List TermStep → List TermStep → Prop
  | head {operator : MultiplicativeOperator} {place : Nat} {factor factor' : FactorTree}
      {steps steps' : List TermStep} : FactorTree.Forked factor factor' →
      TermTree.StepsForked (.mk operator place factor :: steps)
        (.mk operator place factor' :: steps')
  | tail {step : TermStep} {steps steps' : List TermStep} :
      TermTree.StepsForked steps steps' → TermTree.StepsForked (step :: steps) (step :: steps')

/-- Calls of one function that start at one place, with any arguments; or groups of
expressions that are the same up to a call. -/
inductive FactorTree.Forked : FactorTree → FactorTree → Prop
  | call {start stop stop' : Nat} {name : Lexeme} {first first' : ExpressionTree}
      {others others' : List ExpressionTree} :
      FactorTree.Forked (.call ⟨start, stop⟩ name first others)
        (.call ⟨start, stop'⟩ name first' others')
  | group {inner inner' : ExpressionTree} : ExpressionTree.Forked inner inner' →
      FactorTree.Forked (.group inner) (.group inner')

end

/-! ## Readings -/

/-- What follows an expression in parentheses. -/
def closers : List Char := [')']

/-- What follows a term. -/
def termClosers : List Char := ['+', '-', ')']

/-- What follows a factor. -/
def factorClosers : List Char := ['*', '/', '+', '-', ')']

/-- What follows the first of several terms. -/
theorem ExpressionStepsAt.followedBy {c e : Cursor} {steps : List ExpressionStep}
    (h : ExpressionStepsAt c steps e) (he : e.FollowedBy closers) : c.FollowedBy termClosers := by
  cases h with
  | nil => exact he.mono (by decide)
  | @cons _ _ _ _ operator _ _ htoken _ _ =>
      exact .of_tokenAt htoken (by cases operator <;> decide)

/-- What follows the first of several factors. -/
theorem TermStepsAt.followedBy {c e : Cursor} {steps : List TermStep}
    (h : TermStepsAt c steps e) (he : e.FollowedBy termClosers) : c.FollowedBy factorClosers := by
  cases h with
  | nil => exact he.mono (by decide)
  | @cons _ _ _ _ operator _ _ htoken _ _ =>
      exact .of_tokenAt htoken (by cases operator <;> decide)

theorem Cursor.Twin.beyond {c c' : Cursor} (h : c.Twin c') {α : Type} (parts : List α) :
    (c.beyond parts).Twin (c'.beyond parts) := by
  cases parts with
  | nil => exact h.afterGap
  | cons _ _ => exact h

theorem opening_not_closer : '(' ∉ factorClosers := by decide

theorem additive_not_closer (operator : AdditiveOperator) : operator.symbol ∉ closers := by
  cases operator <;> decide

theorem multiplicative_not_closer (operator : MultiplicativeOperator) :
    operator.symbol ∉ termClosers := by
  cases operator <;> decide

section Words

variable {c c' d d' e : Cursor} {t u : Token} {l l' : Lexeme}

/-- A word that is read from such places is the same. -/
theorem Cursor.Twin.lexeme_eq {kind : List Char → Token}
    (hkind : ∀ {cs cs' : List Char}, kind cs = kind cs' → cs = cs')
    (h : c.Twin c') (ht : TokenAt c (kind l.text.toList) d) (hspan : l.span = ⟨c.offset, d.offset⟩)
    (hu : TokenAt c' (kind l'.text.toList) d') (hspan' : l'.span = ⟨c'.offset, d'.offset⟩) :
    l = l' := by
  obtain ⟨htoken, hoffset, -⟩ := h.of_tokenAt ht hu
  obtain ⟨text, span⟩ := l
  obtain ⟨text', span'⟩ := l'
  obtain rfl : text = text' := String.toList_inj.mp (hkind htoken)
  rw [show span = span' from hspan.trans (by rw [h.offset, hoffset, ← hspan'])]

/-- A word that no opening parenthesis follows in one text is not followed by one in the other
text. -/
theorem Cursor.Twin.not_opening (h : c.Twin c') (ht : TokenAt c t d) (hu : TokenAt c' u d')
    (hd' : d'.FollowedBy factorClosers) : ¬TokenAt d.afterGap (.symbol '(') e := by
  intro he
  obtain ⟨-, -, htwin | ⟨-, k, k', -, hk'⟩⟩ := h.of_tokenAt ht hu
  · exact htwin.symm.not_tokenAt hd' opening_not_closer he
  · exact hd'.not_tokenAt opening_not_closer hk'

end Words

mutual

/-- Readings from places before a call reach it, or are the same and end at such places. -/
theorem ExpressionAt.forked : ∀ {t t' : ExpressionTree} {c c' e e' : Cursor},
    ExpressionAt c t e → ExpressionAt c' t' e' → c.Twin c' → e.FollowedBy closers →
    e'.FollowedBy closers → t.Forked t' ∨ t = t' ∧ e.Twin e'
  | .mk _ _ steps, .mk _ _ _, _, _, _, _, .mk hfirst hsteps, .mk hfirst' hsteps', htwin, he,
      he' => by
      rw [Cursor.FollowedBy.beyond_iff] at he he'
      rcases hfirst.forked hfirst' htwin (hsteps.followedBy he) (hsteps'.followedBy he') with
        hforked | ⟨rfl, hd⟩
      · exact Or.inl (.first hforked)
      rcases hsteps.forked hsteps' hd he he' with hforked | ⟨rfl, hend⟩
      · exact Or.inl (.steps hforked)
      · have hbeyond := hend.beyond steps
        exact Or.inr ⟨by rw [htwin.offset, hbeyond.offset], hbeyond⟩

theorem ExpressionStepsAt.forked : ∀ {steps steps' : List ExpressionStep} {c c' e e' : Cursor},
    ExpressionStepsAt c steps e → ExpressionStepsAt c' steps' e' → c.Twin c' →
    e.FollowedBy closers → e'.FollowedBy closers →
    ExpressionTree.StepsForked steps steps' ∨ steps = steps' ∧ e.Twin e'
  | [], [], _, _, _, _, .nil, .nil, htwin, _, _ => Or.inr ⟨rfl, htwin⟩
  | [], .mk operator _ _ :: _, _, _, _, _, .nil, .cons htoken _ _, htwin, he, _ =>
      absurd htoken (htwin.not_tokenAt he (additive_not_closer operator))
  | .mk operator _ _ :: _, [], _, _, _, _, .cons htoken _ _, .nil, htwin, _, he' =>
      absurd htoken (htwin.symm.not_tokenAt he' (additive_not_closer operator))
  | .mk operator _ _ :: _, .mk operator' _ _ :: _, _, _, _, _, .cons htoken hterm hsteps,
      .cons htoken' hterm' hsteps', htwin, he, he' => by
      have hgap := htwin.afterGap
      obtain ⟨hsymbol, hd⟩ := hgap.of_symbolAt htoken htoken'
      obtain rfl : operator = operator' := by
        cases operator <;> cases operator' <;> first | rfl | exact absurd hsymbol (by decide)
      rw [hgap.offset]
      rcases hterm.forked hterm' hd.afterGap (hsteps.followedBy he) (hsteps'.followedBy he') with
        hforked | ⟨rfl, hk⟩
      · exact Or.inl (.head hforked)
      rcases hsteps.forked hsteps' hk he he' with hforked | ⟨rfl, hend⟩
      · exact Or.inl (.tail hforked)
      · exact Or.inr ⟨rfl, hend⟩

theorem TermAt.forked : ∀ {t t' : TermTree} {c c' e e' : Cursor},
    TermAt c t e → TermAt c' t' e' → c.Twin c' → e.FollowedBy termClosers →
    e'.FollowedBy termClosers → t.Forked t' ∨ t = t' ∧ e.Twin e'
  | .mk _ _ steps, .mk _ _ _, _, _, _, _, .mk hfirst hsteps, .mk hfirst' hsteps', htwin, he,
      he' => by
      rw [Cursor.FollowedBy.beyond_iff] at he he'
      rcases hfirst.forked hfirst' htwin (hsteps.followedBy he) (hsteps'.followedBy he') with
        hforked | ⟨rfl, hd⟩
      · exact Or.inl (.first hforked)
      rcases hsteps.forked hsteps' hd he he' with hforked | ⟨rfl, hend⟩
      · exact Or.inl (.steps hforked)
      · have hbeyond := hend.beyond steps
        exact Or.inr ⟨by rw [htwin.offset, hbeyond.offset], hbeyond⟩

theorem TermStepsAt.forked : ∀ {steps steps' : List TermStep} {c c' e e' : Cursor},
    TermStepsAt c steps e → TermStepsAt c' steps' e' → c.Twin c' →
    e.FollowedBy termClosers → e'.FollowedBy termClosers →
    TermTree.StepsForked steps steps' ∨ steps = steps' ∧ e.Twin e'
  | [], [], _, _, _, _, .nil, .nil, htwin, _, _ => Or.inr ⟨rfl, htwin⟩
  | [], .mk operator _ _ :: _, _, _, _, _, .nil, .cons htoken _ _, htwin, he, _ =>
      absurd htoken (htwin.not_tokenAt he (multiplicative_not_closer operator))
  | .mk operator _ _ :: _, [], _, _, _, _, .cons htoken _ _, .nil, htwin, _, he' =>
      absurd htoken (htwin.symm.not_tokenAt he' (multiplicative_not_closer operator))
  | .mk operator _ _ :: _, .mk operator' _ _ :: _, _, _, _, _, .cons htoken hfactor hsteps,
      .cons htoken' hfactor' hsteps', htwin, he, he' => by
      have hgap := htwin.afterGap
      obtain ⟨hsymbol, hd⟩ := hgap.of_symbolAt htoken htoken'
      obtain rfl : operator = operator' := by
        cases operator <;> cases operator' <;> first | rfl | exact absurd hsymbol (by decide)
      rw [hgap.offset]
      rcases hfactor.forked hfactor' hd.afterGap (hsteps.followedBy he)
        (hsteps'.followedBy he') with hforked | ⟨rfl, hk⟩
      · exact Or.inl (.head hforked)
      rcases hsteps.forked hsteps' hk he he' with hforked | ⟨rfl, hend⟩
      · exact Or.inl (.tail hforked)
      · exact Or.inr ⟨rfl, hend⟩

/-- A name starts a call in both texts or a variable in both, since what follows it is the
same. -/
theorem FactorAt.forked : ∀ {x x' : FactorTree} {c c' e e' : Cursor},
    FactorAt c x e → FactorAt c' x' e' → c.Twin c' → e.FollowedBy factorClosers →
    e'.FollowedBy factorClosers → x.Forked x' ∨ x = x' ∧ e.Twin e'
  | .call _ _ _ _, _, _, _, _, _, .call htoken hspan hopening _ _ _, h', htwin, _, he' => by
      cases h' with
      | call htoken' hspan' _ _ _ _ =>
          obtain rfl := htwin.lexeme_eq Token.name.inj htoken hspan htoken' hspan'
          rw [htwin.offset]
          exact Or.inl .call
      | reference htoken' _ =>
          rw [Cursor.FollowedBy.afterGap_iff] at he'
          exact absurd hopening (htwin.not_opening htoken htoken' he')
      | constant htoken' _ => exact nomatch (htwin.of_tokenAt htoken htoken').1
      | group htoken' _ _ => exact nomatch (htwin.of_tokenAt htoken htoken').1
  | .reference _ _, _, _, _, _, _, .reference htoken hspan, h', htwin, he, he' => by
      rw [Cursor.FollowedBy.afterGap_iff] at he
      cases h' with
      | call htoken' _ hopening' _ _ _ =>
          exact absurd hopening' (htwin.symm.not_opening htoken' htoken he)
      | reference htoken' hspan' =>
          obtain rfl := htwin.lexeme_eq Token.name.inj htoken hspan htoken' hspan'
          obtain ⟨-, -, hd | ⟨-, k, k', hopening, -⟩⟩ := htwin.of_tokenAt htoken htoken'
          · exact Or.inr ⟨by rw [htwin.offset, hd.afterGap.offset], hd.afterGap⟩
          · exact absurd hopening (he.not_tokenAt opening_not_closer)
      | constant htoken' _ => exact nomatch (htwin.of_tokenAt htoken htoken').1
      | group htoken' _ _ => exact nomatch (htwin.of_tokenAt htoken htoken').1
  | .constant _, _, _, _, _, _, .constant htoken hspan, h', htwin, _, _ => by
      cases h' with
      | call htoken' _ _ _ _ _ => exact nomatch (htwin.of_tokenAt htoken htoken').1
      | reference htoken' _ => exact nomatch (htwin.of_tokenAt htoken htoken').1
      | constant htoken' hspan' =>
          obtain rfl := htwin.lexeme_eq Token.literal.inj htoken hspan htoken' hspan'
          obtain ⟨-, -, hend | ⟨⟨name, hname⟩, -⟩⟩ := htwin.of_tokenAt htoken htoken'
          · exact Or.inr ⟨rfl, hend⟩
          · cases hname
      | group htoken' _ _ => exact nomatch (htwin.of_tokenAt htoken htoken').1
  | .group _, _, _, _, _, _, .group htoken hinner hclosing, h', htwin, _, _ => by
      cases h' with
      | call htoken' _ _ _ _ _ => exact nomatch (htwin.of_tokenAt htoken htoken').1
      | reference htoken' _ => exact nomatch (htwin.of_tokenAt htoken htoken').1
      | constant htoken' _ => exact nomatch (htwin.of_tokenAt htoken htoken').1
      | group htoken' hinner' hclosing' =>
          obtain ⟨-, hd⟩ := htwin.of_symbolAt htoken htoken'
          rcases hinner.forked hinner' hd.afterGap (.of_tokenAt hclosing (by decide))
            (.of_tokenAt hclosing' (by decide)) with hforked | ⟨rfl, hk⟩
          · exact Or.inl (.group hforked)
          · obtain ⟨-, hend⟩ := hk.afterGap.of_symbolAt hclosing hclosing'
            exact Or.inr ⟨rfl, hend⟩

end

/-- Parse trees of texts whose tokens are the same up to a call are the same up to it. -/
theorem forked_of_tree {source source' : String} {t t' : ExpressionTree}
    {ps ps' : List PlacedToken} (h : tree source = .ok t) (h' : tree source' = .ok t')
    (hps : CutAt (Cursor.ofString source) ps) (hps' : CutAt (Cursor.ofString source') ps')
    (hforked : Forked ps ps') : t.Forked t' := by
  obtain ⟨d, hread, hend⟩ := tree_at h
  obtain ⟨d', hread', hend'⟩ := tree_at h'
  have htwin : (Cursor.ofString source).Twin (Cursor.ofString source') :=
    ⟨rfl, ps, ps', hps, hps', hforked⟩
  have hnothing : ∀ {e k : Cursor} {u : Token}, e.afterGap.rest = [] →
      ¬TokenAt e.afterGap u k := by
    rintro e k u he ⟨rest, hm, -⟩
    exact hm.ne_nil he
  rcases hread.forked hread' htwin.afterGap (fun _ _ ht => absurd ht (hnothing hend))
    (fun _ _ ht => absurd ht (hnothing hend')) with hsame | ⟨-, hd⟩
  · exact hsame
  · obtain ⟨u, k, -, hu, -⟩ := hd.exists_tokenAt
    exact absurd hu (hnothing hend)

end MetricFormula.Grammar
