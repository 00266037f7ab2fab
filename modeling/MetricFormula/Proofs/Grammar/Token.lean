/-
  Proofs/Grammar/Token: cutting a text into words without a parser.

  A token is a name, a literal or one of seven symbols.  `Munches` says that a token
  is the longest one at the front of a text, and `Cut` that a text is a row of such
  tokens with blanks between them.  A text can be cut in one way only (`Cut.unique`).

  The scanners of the grammar split off exactly these tokens (`identifier_iff_munches`,
  `constant_iff_munches`).  A word that cannot go on with what follows is the longest
  token (`munches_name`, `munches_literal`).
-/
import MetricFormula.Grammar.Lexeme
import MetricFormula.Proofs.Decimal.Numeral

set_option autoImplicit false

namespace MetricFormula.Grammar

/-! ## Tokens -/

/-- An ASCII letter, then ASCII letters, digits and underscores. -/
def IsName (cs : List Char) : Prop :=
  ∃ c ds, cs = c :: ds ∧ c.isAlpha = true ∧ ∀ d ∈ ds, Scan.isNameChar d = true

/-- A decimal numeral as it is written. -/
def IsNumeral (cs : List Char) : Prop :=
  ∃ n : Decimal.Numeral, n.WellFormed ∧ n.text = cs

/-- The tokens that are one character. -/
def symbols : List Char := ['+', '-', '*', '/', '(', ')', ',']

/-- A word of a formula, by its kind. -/
inductive Token where
  | name (text : List Char)
  | literal (text : List Char)
  | symbol (c : Char)
  deriving DecidableEq

namespace Token

/-- A token as it is written. -/
def text : Token → List Char
  | name cs => cs
  | literal cs => cs
  | symbol c => [c]

/-- A token that is written as its kind asks. -/
def Valid : Token → Prop
  | name cs => IsName cs
  | literal cs => IsNumeral cs
  | symbol c => c ∈ symbols

/-- Whether a token of this kind can start with a character. -/
def Starts : Token → Char → Prop
  | name _, c => c.isAlpha = true
  | literal _, c => c.isDigit = true ∨ c = '.'
  | symbol d, c => c = d ∧ d ∈ symbols

end Token

/-- `t` is the longest token at the front of a text, and `rest` is what follows it. -/
structure Munches (cs : List Char) (t : Token) (rest : List Char) : Prop where
  valid : t.Valid
  append : t.text ++ rest = cs
  longest : ∀ (u : Token) (tail : List Char), u.Valid → u.text ++ tail = cs →
    u.text.length ≤ t.text.length

/-- A text cut by maximal munch, with blanks only between the tokens. -/
inductive Cut : List Char → List Token → Prop
  | nil : Cut [] []
  | gap {c : Char} {cs : List Char} {ts : List Token} :
      Scan.isGap c = true → Cut cs ts → Cut (c :: cs) ts
  | token {cs rest : List Char} {t : Token} {ts : List Token} :
      Munches cs t rest → Cut rest ts → Cut cs (t :: ts)

/-! ## Characters at the front -/

theorem not_isAlpha_of_isDigit {c : Char} (h : c.isDigit = true) : c.isAlpha = false := by
  change (decide (c.val ≥ 48) && decide (c.val ≤ 57)) = true at h
  change (decide (c.val ≥ 65 ∧ c.val ≤ 90) || (decide (c.val ≥ 97) && decide (c.val ≤ 122))) = false
  grind

theorem symbols_classes : ∀ c ∈ symbols,
    c.isAlpha = false ∧ c.isDigit = false ∧ c ≠ '.' ∧ Scan.isGap c = false := by
  intro c hc
  simp only [symbols, List.mem_cons, List.not_mem_nil, or_false] at hc
  rcases hc with rfl | rfl | rfl | rfl | rfl | rfl | rfl <;> decide

theorem not_isGap_of_isAlpha {c : Char} (h : c.isAlpha = true) : Scan.isGap c = false := by
  rw [← Bool.not_eq_true]
  intro hgap
  simp only [Scan.isGap, Bool.or_eq_true, beq_iff_eq] at hgap
  rcases hgap with ((rfl | rfl) | rfl) | rfl <;> simp at h

theorem not_isGap_of_isDigit {c : Char} (h : c.isDigit = true) : Scan.isGap c = false := by
  rw [← Bool.not_eq_true]
  intro hgap
  simp only [Scan.isGap, Bool.or_eq_true, beq_iff_eq] at hgap
  rcases hgap with ((rfl | rfl) | rfl) | rfl <;> simp at h

namespace Token

variable {t u : Token} {c : Char}

theorem Starts.not_isGap (h : t.Starts c) : Scan.isGap c = false := by
  cases t with
  | name cs => exact not_isGap_of_isAlpha h
  | literal cs =>
      rcases h with h | rfl
      · exact not_isGap_of_isDigit h
      · decide
  | symbol d =>
      obtain ⟨rfl, hd⟩ := h
      exact (symbols_classes c hd).2.2.2

theorem starts_of_isNumeral {cs : List Char} (h : IsNumeral cs) :
    ∃ c ds, cs = c :: ds ∧ (c.isDigit = true ∨ c = '.') := by
  obtain ⟨⟨whole, fraction, exponent⟩, hn, rfl⟩ := h
  cases whole with
  | cons c whole => exact ⟨c, _, rfl, Or.inl (hn.whole c List.mem_cons_self)⟩
  | nil =>
      cases fraction with
      | some ds => exact ⟨'.', _, rfl, Or.inr rfl⟩
      | none =>
          rcases hn.nonempty with h | ⟨ds, hds, _⟩
          · exact absurd rfl h
          · simp at hds

/-- A valid token starts with a character of its kind. -/
theorem Valid.starts (h : t.Valid) : ∃ c cs, t.text = c :: cs ∧ t.Starts c := by
  cases t with
  | name cs =>
      obtain ⟨c, ds, rfl, hc, _⟩ := h
      exact ⟨c, ds, rfl, hc⟩
  | literal cs => exact starts_of_isNumeral h
  | symbol c => exact ⟨c, [], rfl, rfl, h⟩

/-- A token that starts as a name does is one. -/
theorem Starts.eq_name (h : u.Starts c) (hc : c.isAlpha = true) :
    ∃ cs, u = .name cs := by
  cases u with
  | name cs => exact ⟨cs, rfl⟩
  | literal cs =>
      rcases h with hd | rfl
      · rw [not_isAlpha_of_isDigit hd] at hc
        simp at hc
      · simp at hc
  | symbol d =>
      obtain ⟨rfl, hd⟩ := h
      rw [(symbols_classes c hd).1] at hc
      simp at hc

/-- A token that starts as a literal does is one. -/
theorem Starts.eq_literal (h : u.Starts c)
    (hc : c.isDigit = true ∨ c = '.') : ∃ cs, u = .literal cs := by
  cases u with
  | literal cs => exact ⟨cs, rfl⟩
  | name cs =>
      rcases hc with hd | rfl
      · rw [Starts, not_isAlpha_of_isDigit hd] at h
        simp at h
      · simp [Starts] at h
  | symbol d =>
      obtain ⟨rfl, hd⟩ := h
      obtain ⟨_, hdigit, hpoint, _⟩ := symbols_classes c hd
      rcases hc with h | h
      · rw [hdigit] at h
        simp at h
      · exact absurd h hpoint

/-- A token that starts with a symbol is that symbol. -/
theorem Starts.eq_symbol (h : u.Starts c) (hc : c ∈ symbols) :
    u = .symbol c := by
  obtain ⟨halpha, hdigit, hpoint, _⟩ := symbols_classes c hc
  cases u with
  | name cs =>
      rw [Starts, halpha] at h
      simp at h
  | literal cs =>
      rcases h with h | h
      · rw [hdigit] at h
        simp at h
      · exact absurd h hpoint
  | symbol d => rw [h.1]

/-- A valid token at the front of a text starts with its first character. -/
theorem Valid.starts_of_append (h : u.Valid) {tail cs : List Char}
    (happ : u.text ++ tail = c :: cs) : u.Starts c := by
  obtain ⟨d, ds, htext, hd⟩ := h.starts
  rw [htext, List.cons_append] at happ
  rwa [← (List.cons.inj happ).1]

/-- Valid tokens with the same text are the same. -/
theorem Valid.eq_of_text (ht : t.Valid) (hu : u.Valid) (h : t.text = u.text) : t = u := by
  obtain ⟨c, cs, htext, htc⟩ := ht.starts
  obtain ⟨d, ds, hutext, huc⟩ := hu.starts
  rw [htext, hutext] at h
  obtain ⟨rfl, rfl⟩ := List.cons.inj h
  cases t with
  | name x =>
      obtain ⟨y, rfl⟩ := huc.eq_name htc
      rw [show x = y from htext.trans hutext.symm]
  | literal x =>
      obtain ⟨y, rfl⟩ := huc.eq_literal htc
      rw [show x = y from htext.trans hutext.symm]
  | symbol e =>
      obtain ⟨rfl, he⟩ := htc
      exact (huc.eq_symbol he).symm

end Token

/-! ## The cut of a text -/

namespace Munches

variable {cs rest : List Char} {t : Token}

theorem starts (h : Munches cs t rest) : ∃ c tail, cs = c :: tail ∧ t.Starts c := by
  obtain ⟨c, ds, htext, hc⟩ := h.valid.starts
  exact ⟨c, ds ++ rest, by rw [← h.append, htext, List.cons_append], hc⟩

theorem ne_nil (h : Munches cs t rest) : cs ≠ [] := by
  obtain ⟨c, tail, rfl, _⟩ := h.starts
  exact List.cons_ne_nil c tail

/-- No token starts with a blank. -/
theorem not_isGap {c : Char} (h : Munches (c :: cs) t rest) : Scan.isGap c = false := by
  obtain ⟨d, tail, hcs, hd⟩ := h.starts
  rw [(List.cons.inj hcs).1, hd.not_isGap]

/-- There is one longest token. -/
theorem unique {u : Token} {tail : List Char} (ht : Munches cs t rest) (hu : Munches cs u tail) :
    t = u ∧ rest = tail := by
  have hlen := Nat.le_antisymm (hu.longest t rest ht.valid ht.append)
    (ht.longest u tail hu.valid hu.append)
  obtain ⟨htext, hrest⟩ := List.append_inj (ht.append.trans hu.append.symm) hlen
  exact ⟨ht.valid.eq_of_text hu.valid htext, hrest⟩

/-- A token is the longest one also in a text that ends earlier. -/
theorem truncate {x : List Char} (h : Munches (cs ++ x) t (rest ++ x)) : Munches cs t rest where
  valid := h.valid
  append := by
    have happ := h.append
    rw [← List.append_assoc] at happ
    exact List.append_cancel_right happ
  longest := by
    intro u tail hu happ
    exact h.longest u (tail ++ x) hu (by rw [← List.append_assoc, happ])

end Munches

namespace Cut

variable {cs : List Char} {ts : List Token}

/-- A text can be cut in one way only. -/
theorem unique {us : List Token} (h : Cut cs ts) (h' : Cut cs us) : ts = us := by
  induction h generalizing us with
  | nil =>
      cases h' with
      | nil => rfl
      | token hm _ => exact absurd rfl hm.ne_nil
  | gap hgap _ ih =>
      cases h' with
      | gap _ hrest => exact ih hrest
      | token hm _ => simp [hm.not_isGap] at hgap
  | token hm _ ih =>
      cases h' with
      | nil => exact absurd rfl hm.ne_nil
      | gap hgap _ => simp [hm.not_isGap] at hgap
      | token hm' hrest =>
          obtain ⟨rfl, rfl⟩ := hm.unique hm'
          rw [ih hrest]

/-- Blanks in front make no difference. -/
theorem dropWhile (h : Cut cs ts) : Cut (cs.dropWhile Scan.isGap) ts := by
  induction h with
  | nil => exact nil
  | gap hgap _ ih => rwa [List.dropWhile_cons, if_pos hgap]
  | token hm hrest _ =>
      obtain ⟨c, tail, rfl, hc⟩ := hm.starts
      rw [List.dropWhile_cons, hc.not_isGap]
      exact token hm hrest

/-- Every token is at least one character. -/
theorem length_le (h : Cut cs ts) : ts.length ≤ cs.length := by
  induction h with
  | nil => exact Nat.le_refl _
  | gap _ _ ih => exact Nat.le_succ_of_le ih
  | @token cs rest t ts hm _ ih =>
      obtain ⟨c, ds, htext, _⟩ := hm.valid.starts
      rw [← hm.append, htext, List.length_append, List.length_cons, List.length_cons]
      omega

/-- Every opening parenthesis among the tokens is one of the text. -/
theorem count_le (h : Cut cs ts) : ts.count (.symbol '(') ≤ cs.count '(' := by
  induction h with
  | nil => exact Nat.le_refl _
  | gap _ _ ih => exact Nat.le_trans ih (List.count_le_count_cons ..)
  | @token cs rest t ts hm _ ih =>
      rw [← hm.append, List.count_append, List.count_cons]
      by_cases ht : t = .symbol '('
      · subst ht
        simp only [Token.text, beq_self_eq_true, if_true, List.count_singleton_self]
        omega
      · rw [if_neg (by simpa using ht)]
        omega

end Cut

/-! ## A cut that starts with a token -/

/-- A text cut into tokens, the first of which, if there is one, stands at its
front. -/
structure Front (cs : List Char) (ts : List Token) : Prop where
  cut : Cut cs ts
  head : ∀ c, cs.head? = some c → Scan.isGap c = false

theorem Cut.front {cs : List Char} {ts : List Token} (h : Cut cs ts) :
    Front (cs.dropWhile Scan.isGap) ts := by
  refine ⟨h.dropWhile, ?_⟩
  intro c hc
  have := List.head?_dropWhile_not Scan.isGap cs
  rw [hc] at this
  simpa using this

namespace Front

variable {cs : List Char} {ts : List Token}

theorem of_nil (h : Front cs []) : cs = [] := by
  obtain ⟨hcut, hhead⟩ := h
  cases hcut with
  | nil => rfl
  | gap hgap _ =>
      rw [hhead _ rfl] at hgap
      simp at hgap

theorem of_cons {t : Token} (h : Front cs (t :: ts)) : ∃ rest, Munches cs t rest ∧ Cut rest ts := by
  obtain ⟨hcut, hhead⟩ := h
  cases hcut with
  | gap hgap _ =>
      rw [hhead _ rfl] at hgap
      simp at hgap
  | token hm hrest => exact ⟨_, hm, hrest⟩

/-- The first character belongs to the first token. -/
theorem starts_of_head {c : Char} (h : Front cs ts) (hc : cs.head? = some c) :
    ∃ t, ts.head? = some t ∧ t.Starts c := by
  cases ts with
  | nil =>
      rw [h.of_nil] at hc
      simp at hc
  | cons t ts =>
      obtain ⟨rest, hm, _⟩ := h.of_cons
      obtain ⟨d, tail, rfl, hd⟩ := hm.starts
      rw [List.head?_cons, Option.some.injEq] at hc
      exact ⟨t, rfl, hc ▸ hd⟩

end Front

/-! ## The scanners -/

theorem isNameChar_takeWhile (cs : List Char) :
    ∀ d ∈ cs.takeWhile Scan.isNameChar, Scan.isNameChar d = true := by
  intro d hd
  exact List.all_eq_true.mp List.all_takeWhile d hd

/-- Name characters at the front of a text are all taken. -/
theorem length_le_takeWhile {ds : List Char} (hds : ∀ d ∈ ds, Scan.isNameChar d = true)
    (tail : List Char) : ds.length ≤ ((ds ++ tail).takeWhile Scan.isNameChar).length := by
  induction ds with
  | nil => exact Nat.zero_le _
  | cons d ds ih =>
      have hrest := ih fun c hc => hds c (List.mem_cons_of_mem d hc)
      rw [List.cons_append, List.takeWhile_cons, if_pos (hds d List.mem_cons_self),
        List.length_cons, List.length_cons]
      omega

theorem munches_symbol {c : Char} (hc : c ∈ symbols) (cs : List Char) :
    Munches (c :: cs) (.symbol c) cs := by
  refine ⟨hc, rfl, ?_⟩
  intro u tail hu happ
  exact Nat.le_of_eq (congrArg (·.text.length) ((hu.starts_of_append happ).eq_symbol hc))

/-- The scanner of names splits off the longest token, if that is a name. -/
theorem identifier_iff_munches {cs read rest : List Char} :
    Scan.identifier cs = some (read, rest) ↔ Munches cs (.name read) rest := by
  constructor
  · intro h
    cases cs with
    | nil => simp [Scan.identifier] at h
    | cons c cs =>
        simp only [Scan.identifier] at h
        split at h
        · rename_i hc
          simp only [Option.some.injEq, Prod.mk.injEq] at h
          obtain ⟨rfl, rfl⟩ := h
          refine ⟨⟨c, _, rfl, hc, isNameChar_takeWhile cs⟩, ?_, ?_⟩
          · rw [Token.text, List.cons_append, List.takeWhile_append_dropWhile]
          · intro u tail hu happ
            obtain ⟨x, rfl⟩ := (hu.starts_of_append happ).eq_name hc
            obtain ⟨d, ds, rfl, _, hds⟩ := hu
            rw [Token.text, List.cons_append] at happ
            obtain ⟨rfl, rfl⟩ := List.cons.inj happ
            have hlen := length_le_takeWhile hds tail
            simpa [Token.text] using hlen
        · simp at h
  · intro h
    obtain ⟨c, ds, rfl, hc, hds⟩ := h.valid
    have happ := h.append
    rw [Token.text, List.cons_append] at happ
    subst happ
    -- What the scanner takes is a name, so it is no longer than the longest one.
    have hall : (Token.name (c :: (ds ++ rest).takeWhile Scan.isNameChar)).Valid :=
      ⟨c, _, rfl, hc, isNameChar_takeWhile _⟩
    have hle := h.longest _ ((ds ++ rest).dropWhile Scan.isNameChar) hall (by
      rw [Token.text, List.cons_append, List.takeWhile_append_dropWhile])
    have hge := length_le_takeWhile hds rest
    have hlen : ((ds ++ rest).takeWhile Scan.isNameChar).length = ds.length := by
      simp only [Token.text, List.length_cons] at hle
      omega
    obtain ⟨htake, hdrop⟩ := List.append_inj
      (List.takeWhile_append_dropWhile (p := Scan.isNameChar) (l := ds ++ rest)) hlen
    simp only [Scan.identifier, hc, if_true, htake, hdrop]

/-- The scanner of literals splits off the longest token, if that is a literal. -/
theorem constant_iff_munches {cs read rest : List Char} :
    Scan.constant cs = some (read, rest) ↔ Munches cs (.literal read) rest := by
  constructor
  · intro h
    have happ := Scan.constant_append h
    unfold Scan.constant at h
    split at h
    · rename_i n tail hn
      simp only [Option.some.injEq, Prod.mk.injEq] at h
      obtain ⟨rfl, rfl⟩ := h
      have hvalid : IsNumeral n.text := ⟨n, Decimal.Numeral.wellFormed_of_scan? hn, rfl⟩
      refine ⟨hvalid, happ, ?_⟩
      intro u rest hu huapp
      obtain ⟨c, ds, hc, hstart⟩ := Token.starts_of_isNumeral hvalid
      have hcs : cs = c :: (ds ++ tail) := by rw [← happ, hc, List.cons_append]
      obtain ⟨x, rfl⟩ := (hu.starts_of_append (huapp.trans hcs)).eq_literal hstart
      obtain ⟨m, hm, rfl⟩ := hu
      exact Decimal.Numeral.le_of_scan? hn hm huapp
    · simp at h
  · intro h
    obtain ⟨n, hn, htext⟩ := h.valid
    have happ := h.append
    rw [Token.text, ← htext] at happ
    obtain ⟨m, tail, hscan, hle⟩ := Decimal.Numeral.exists_scan? hn rest
    rw [happ] at hscan
    have happ' := Decimal.Numeral.text_append_of_scan? hscan
    have hle' := h.longest (.literal m.text) tail
      ⟨m, Decimal.Numeral.wellFormed_of_scan? hscan, rfl⟩ happ'
    rw [Token.text, Token.text, ← htext] at hle'
    obtain ⟨hm, hrest⟩ := List.append_inj (happ'.trans happ.symm) (Nat.le_antisymm hle' hle)
    unfold Scan.constant
    rw [hscan]
    simp only [hm, htext, hrest]

/-! ## Tokens that end where their characters do -/

/-- A name that no character of names follows is the longest token. -/
theorem munches_name {name rest : List Char} (h : IsName name)
    (hrest : ∀ c, rest.head? = some c → Scan.isNameChar c = false) :
    Munches (name ++ rest) (.name name) rest := by
  obtain ⟨c, ds, rfl, hc, hds⟩ := h
  have hstop : rest.takeWhile Scan.isNameChar = [] ∧ rest.dropWhile Scan.isNameChar = rest := by
    cases rest with
    | nil => exact ⟨rfl, rfl⟩
    | cons d rest => simp [hrest d rfl]
  rw [← identifier_iff_munches, List.cons_append]
  simp only [Scan.identifier, hc, if_true]
  rw [List.takeWhile_append_of_pos hds, List.dropWhile_append_of_pos hds, hstop.1, hstop.2,
    List.append_nil]

/-- A numeral that cannot go on with what follows is the longest token. -/
theorem munches_literal {n : Decimal.Numeral} {rest : List Char} (hn : n.WellFormed)
    (hrest : ∀ c, rest.head? = some c → Decimal.continuesNumeral c = false) :
    Munches (n.text ++ rest) (.literal n.text) rest := by
  rw [← constant_iff_munches]
  unfold Scan.constant
  rw [Decimal.Numeral.scan?_text_append hn hrest]

end MetricFormula.Grammar
