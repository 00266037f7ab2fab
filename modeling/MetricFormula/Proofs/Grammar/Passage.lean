/-
  Proofs/Grammar/Passage: the beginnings of formulas.

  `Passage s c s' c'` says that the text from `c` up to `c'` is read by maximal munch and
  that its tokens lead from the progress `s` to `s'`.  `Finishes s cs` says that the text
  `cs` is cut into tokens that finish a formula from `s` on.

  What was read up to a place decides nothing about what may follow there but the progress
  (`Passage.finishes_iff`), unless a word would go on.  A text is viable if some text that
  begins with it has a parse tree; what a passage from the start has read is viable
  (`Passage.viable`).
-/
import MetricFormula.Proofs.Grammar.Progress
import MetricFormula.Proofs.Grammar.Complete
import MetricFormula.Proofs.Grammar.Sound

set_option autoImplicit false

namespace MetricFormula.Grammar

open MetricFormula.Text

variable {s s' : Progress} {c c' : Cursor} {cs rest x read : List Char} {t : Token}
  {ts us : List Token} {opened : List Opening}

/-! ## Cuts of a text with a known front -/

theorem cut_gap_iff {d : Char} (hd : Scan.isGap d = true) : Cut (d :: cs) ts ↔ Cut cs ts := by
  constructor
  · intro h
    cases h with
    | gap _ h => exact h
    | token hm _ => simp [hm.not_isGap] at hd
  · exact .gap hd

theorem Munches.cut_iff (hm : Munches cs t rest) :
    Cut cs ts ↔ ∃ us, ts = t :: us ∧ Cut rest us := by
  constructor
  · intro h
    cases h with
    | nil => exact absurd rfl hm.ne_nil
    | gap hd _ => simp [hm.not_isGap] at hd
    | token hm' hrest =>
        obtain ⟨rfl, rfl⟩ := hm.unique hm'
        exact ⟨_, rfl, hrest⟩
  · rintro ⟨us, rfl, hrest⟩
    exact .token hm hrest

/-! ## Words that end -/

/-- Every word ends before a character that neither names nor numerals are written with. -/
def EndsWord (d : Char) : Prop := Scan.isNameChar d = false ∧ d ≠ '.'

theorem endsWord_of_isGap {d : Char} (h : Scan.isGap d = true) : EndsWord d := by
  simp only [Scan.isGap, Bool.or_eq_true, beq_iff_eq] at h
  rcases h with ((rfl | rfl) | rfl) | rfl <;> exact ⟨by decide, by decide⟩

theorem endsWord_of_mem_symbols {d : Char} (h : d ∈ symbols) : EndsWord d := by
  simp only [symbols, List.mem_cons, List.not_mem_nil, or_false] at h
  rcases h with rfl | rfl | rfl | rfl | rfl | rfl | rfl <;> exact ⟨by decide, by decide⟩

theorem EndsWord.continuesNumeral {d : Char} (h : EndsWord d) :
    Decimal.continuesNumeral d = false := by
  obtain ⟨hname, hpoint⟩ := h
  simp only [Decimal.continuesNumeral, Bool.or_eq_false_iff, beq_eq_false_iff_ne]
  refine ⟨⟨⟨?_, hpoint⟩, ?_⟩, ?_⟩
  · simp only [Scan.isNameChar, Char.isAlphanum, Bool.or_eq_false_iff] at hname
    exact hname.1.2
  · rintro rfl
    simp [Scan.isNameChar] at hname
  · rintro rfl
    simp [Scan.isNameChar] at hname

/-- A word before `rest` ends before `x` as well: `x` starts with a character that ends every
word, or as `rest` does, but not with a point or the letter of an exponent. -/
def Joins (rest x : List Char) : Prop :=
  ∀ d, x.head? = some d →
    EndsWord d ∨ (rest.head? = some d ∧ d ≠ '.' ∧ d ≠ 'e' ∧ d ≠ 'E')

theorem joins_nil : Joins rest [] := by
  intro d hd
  simp at hd

theorem joins_of_endsWord {d : Char} (h : EndsWord d) : Joins rest (d :: x) := by
  intro e he
  rw [List.head?_cons, Option.some.injEq] at he
  exact Or.inl (he ▸ h)

/-- A digit is a numeral. -/
theorem digit_wellFormed {d : Char} (hd : d.isDigit = true) :
    Decimal.Numeral.WellFormed ⟨[d], none, none⟩ :=
  ⟨by simpa [Decimal.AreDigits] using hd, by simp, Or.inl (by simp), by simp⟩

/-- A numeral goes on with a digit. -/
theorem isNumeral_append_digit (h : IsNumeral cs) {d : Char} (hd : d.isDigit = true) :
    IsNumeral (cs ++ [d]) := by
  obtain ⟨⟨whole, fraction, exponent⟩, ⟨hwhole, hfraction, hnonempty, hexponent⟩, rfl⟩ := h
  have hsnoc : ∀ {ds : List Char}, Decimal.AreDigits ds → Decimal.AreDigits (ds ++ [d]) := by
    intro ds hds c hc
    rcases List.mem_append.mp hc with hc | hc
    · exact hds c hc
    · rwa [List.mem_singleton.mp hc]
  cases exponent with
  | some x =>
      obtain ⟨hletter, hsign, hdigits, _⟩ := hexponent x rfl
      refine ⟨⟨whole, fraction, some ⟨x.letter, x.sign, x.digits ++ [d]⟩⟩,
        ⟨hwhole, hfraction, hnonempty, ?_⟩, by simp [Decimal.Numeral.text, Decimal.Exponent.text]⟩
      intro y hy
      obtain rfl := Option.some.inj hy
      exact ⟨hletter, hsign, hsnoc hdigits, by simp⟩
  | none =>
      cases fraction with
      | some ds =>
          refine ⟨⟨whole, some (ds ++ [d]), none⟩, ⟨hwhole, ?_, ?_, by simp⟩,
            by simp [Decimal.Numeral.text]⟩
          · intro es hes
            obtain rfl := Option.some.inj hes
            exact hsnoc (hfraction ds rfl)
          · exact Or.inr ⟨_, rfl, by simp⟩
      | none =>
          exact ⟨⟨whole ++ [d], none, none⟩, ⟨hsnoc hwhole, by simp, Or.inl (by simp), by simp⟩,
            by simp [Decimal.Numeral.text]⟩

/-- What follows the longest name is no character of names. -/
theorem Munches.not_isNameChar {name : List Char} (hm : Munches cs (.name name) rest) {d : Char}
    (hd : rest.head? = some d) : Scan.isNameChar d = false := by
  rw [← Bool.not_eq_true]
  intro hname
  obtain ⟨tail, rfl⟩ := List.head?_eq_some_iff.mp hd
  obtain ⟨e, es, rfl, he, hes⟩ := hm.valid
  have hlonger : (Token.name (e :: es ++ [d])).Valid := by
    refine ⟨e, es ++ [d], rfl, he, ?_⟩
    intro c hc
    rcases List.mem_append.mp hc with hc | hc
    · exact hes c hc
    · rwa [List.mem_singleton.mp hc]
  have hle := hm.longest _ tail hlonger (by rw [← hm.append]; simp [Token.text])
  simp only [Token.text, List.length_append, List.length_singleton] at hle
  omega

/-- What follows the longest literal is no digit. -/
theorem Munches.not_isDigit {literal : List Char} (hm : Munches cs (.literal literal) rest)
    {d : Char} (hd : rest.head? = some d) : d.isDigit = false := by
  rw [← Bool.not_eq_true]
  intro hdigit
  obtain ⟨tail, rfl⟩ := List.head?_eq_some_iff.mp hd
  have hlonger : (Token.literal (literal ++ [d])).Valid := isNumeral_append_digit hm.valid hdigit
  have hle := hm.longest _ tail hlonger (by rw [← hm.append]; simp [Token.text])
  simp only [Token.text, List.length_append, List.length_singleton] at hle
  omega

/-- The longest token stays the longest before another text that it ends before. -/
theorem Munches.transfer (hm : Munches cs t rest) (hx : Joins rest x) :
    Munches (t.text ++ x) t x := by
  cases t with
  | symbol d => exact munches_symbol hm.valid x
  | name name =>
      apply munches_name hm.valid
      intro d hd
      rcases hx d hd with hends | ⟨hrest, _⟩
      · exact hends.1
      · exact hm.not_isNameChar hrest
  | literal literal =>
      obtain ⟨n, hn, rfl⟩ := hm.valid
      apply munches_literal hn
      intro d hd
      rcases hx d hd with hends | ⟨hrest, hpoint, he, hE⟩
      · exact hends.continuesNumeral
      · simp [Decimal.continuesNumeral, hm.not_isDigit hrest, hpoint, he, hE]

/-! ## Passages -/

/-- The text between two places is read by maximal munch, and its tokens lead from one
progress to the other. -/
inductive Passage : Progress → Cursor → Progress → Cursor → Prop
  | refl {s : Progress} {c : Cursor} : Passage s c s c
  | gap {s s' : Progress} {c c' : Cursor} {d : Char} {cs : List Char} :
      c.rest = d :: cs → Scan.isGap d = true → Passage s (c.past [d] cs) s' c' → Passage s c s' c'
  | token {s s₁ s' : Progress} {c c' : Cursor} {t : Token} {rest : List Char} :
      Munches c.rest t rest → Advances s t s₁ → Passage s₁ (c.past t.text rest) s' c' →
      Passage s c s' c'

namespace Passage

theorem trans {s₁ : Progress} {c₁ : Cursor} (h : Passage s c s₁ c₁) (h' : Passage s₁ c₁ s' c') :
    Passage s c s' c' := by
  induction h with
  | refl => exact h'
  | gap hrest hd _ ih => exact .gap hrest hd (ih h')
  | token hm hadvance _ ih => exact .token hm hadvance (ih h')

/-- One token. -/
theorem of_munches (hm : Munches c.rest t rest) (h : Advances s t s') :
    Passage s c s' (c.past t.text rest) := .token hm h .refl

/-- One symbol. -/
theorem of_symbol {d : Char} (hrest : c.rest = d :: rest) (hd : d ∈ symbols)
    (h : Advances s (.symbol d) s') : Passage s c s' (c.past [d] rest) :=
  of_munches (hrest ▸ munches_symbol hd rest) h

/-- Blanks lead nowhere. -/
theorem of_cutTo (h : CutTo c [] c') : Passage s c s c' := by
  generalize hps : ([] : List PlacedToken) = ps at h
  induction h with
  | nil => exact .refl
  | gap hrest hd _ ih => exact .gap hrest hd (ih hps)
  | token _ _ _ => simp at hps

theorem afterGap (s : Progress) (c : Cursor) : Passage s c s c.afterGap := of_cutTo (.afterGap c)

theorem exists_cutTo (h : Passage s c s' c') : ∃ ps, CutTo c ps c' := by
  induction h with
  | refl => exact ⟨[], .nil⟩
  | gap hrest hd _ ih =>
      obtain ⟨ps, hps⟩ := ih
      exact ⟨ps, .gap hrest hd hps⟩
  | token hm _ _ ih =>
      obtain ⟨ps, hps⟩ := ih
      exact ⟨_, .token hm hps⟩

theorem exists_between (h : Passage s c s' c') : ∃ read, c.Between read c' := by
  obtain ⟨ps, hps⟩ := h.exists_cutTo
  obtain ⟨read, hread, _⟩ := hps.exists_cut
  exact ⟨read, hread⟩

theorem offset_le (h : Passage s c s' c') : c.offset ≤ c'.offset := by
  obtain ⟨read, hread⟩ := h.exists_between
  rw [hread.offset]
  exact Nat.le_add_right _ _

theorem openings_le (h : Passage s c s' c') : c'.openings ≤ c.openings := by
  obtain ⟨read, hread⟩ := h.exists_between
  rw [Cursor.openings, Cursor.openings, hread.rest, List.count_append]
  exact Nat.le_add_left _ _

theorem length_le (h : Passage s c s' c') : c'.rest.length ≤ c.rest.length := by
  obtain ⟨read, hread⟩ := h.exists_between
  rw [hread.rest, List.length_append]
  exact Nat.le_add_left _ _

/-- A passage that stays at its place makes no progress. -/
theorem eq_of_offset_eq (h : Passage s c s' c') (hoffset : c'.offset = c.offset) :
    s' = s ∧ c' = c := by
  cases h with
  | refl => exact ⟨rfl, rfl⟩
  | @gap _ _ _ _ d cs _ _ hpassage =>
      have hle := hpassage.offset_le
      have hpos := d.utf8Size_pos
      simp only [Cursor.past, byteLength_cons, byteLength_nil] at hle
      omega
  | token hm _ hpassage =>
      have hle := hpassage.offset_le
      have hpos := hm.byteLength_pos
      simp only [Cursor.past] at hle
      omega

/-- A passage to the end of the text cuts it into tokens. -/
theorem exists_cutAt (h : Passage s c s' c') (hend : c'.rest = []) : ∃ ps, CutAt c ps := by
  obtain ⟨ps, hps⟩ := h.exists_cutTo
  exact ⟨_, hps.cutAt (.nil hend)⟩

end Passage

/-! ## What may follow -/

/-- A text that is cut into tokens that finish a formula. -/
def Finishes (s : Progress) (cs : List Char) : Prop := ∃ ts, Cut cs ts ∧ Accepts s ts

theorem finishes_gap_iff {d : Char} (hd : Scan.isGap d = true) :
    Finishes s (d :: cs) ↔ Finishes s cs := by
  unfold Finishes
  simp only [cut_gap_iff hd]

theorem Munches.finishes_iff (hm : Munches cs t rest) (h : Advances s t s') :
    Finishes s cs ↔ Finishes s' rest := by
  unfold Finishes
  simp only [hm.cut_iff]
  constructor
  · rintro ⟨_, ⟨us, rfl, hus⟩, haccepts⟩
    exact ⟨us, hus, h.accepts_iff.mp haccepts⟩
  · rintro ⟨us, hus, haccepts⟩
    exact ⟨_, ⟨us, rfl, hus⟩, h.accepts_iff.mpr haccepts⟩

/-- What has been read decides through its progress alone whether another text finishes the
formula.  After an operand, no word can be meant to go on. -/
theorem Passage.finishes_iff (h : Passage s c s' c') :
    ∃ read, c.Between read c' ∧ ∀ x, Joins c'.rest x →
      (Finishes s (read ++ x) ↔ Finishes s' x) ∧
      ∀ b opened, s = .complete b opened → Joins c.rest (read ++ x) := by
  induction h with
  | refl => exact ⟨[], .refl, fun x hx => ⟨Iff.rfl, fun _ _ _ => hx⟩⟩
  | @gap _ _ _ _ d _ hrest hd _ ih =>
      obtain ⟨read, hread, hfinishes⟩ := ih
      refine ⟨[d] ++ read, (Cursor.Between.past hrest).trans hread, fun x hx => ⟨?_, ?_⟩⟩
      · exact (finishes_gap_iff hd).trans (hfinishes x hx).1
      · exact fun _ _ _ => joins_of_endsWord (endsWord_of_isGap hd)
  | @token s s₁ s' c c' t rest hm hadvance _ ih =>
      obtain ⟨read, hread, hfinishes⟩ := ih
      refine ⟨t.text ++ read, (Cursor.Between.past hm.append.symm).trans hread,
        fun x hx => ⟨?_, ?_⟩⟩
      · have hmunches : Munches (t.text ++ (read ++ x)) t (read ++ x) := by
          cases hadvance with
          | name => exact hm.transfer ((hfinishes x hx).2 _ _ rfl)
          | literal => exact hm.transfer ((hfinishes x hx).2 _ _ rfl)
          | _ => exact munches_symbol hm.valid _
        rw [List.append_assoc]
        exact (hmunches.finishes_iff hadvance).trans (hfinishes x hx).1
      · rintro b opened rfl
        cases hadvance <;> exact joins_of_endsWord (endsWord_of_mem_symbols hm.valid)

/-- A character that no token can start with at a progress does not go on. -/
theorem not_finishes {d : Char} (hgap : Scan.isGap d = false)
    (h : ∀ t s', t.Starts d → ¬Advances s t s') : ¬Finishes s (d :: cs) := by
  rintro ⟨ts, hcut, haccepts⟩
  cases hcut with
  | gap hd _ => simp [hgap] at hd
  | token hm _ =>
      obtain ⟨e, tail, hcs, hstart⟩ := hm.starts
      rw [← (List.cons.inj hcs).1] at hstart
      cases haccepts with
      | cons hadvance _ => exact h _ _ hstart hadvance

/-! ## Endings -/

/-- The parentheses that close those that are open. -/
def closingText (opened : List Opening) : List Char := opened.map fun _ => ')'

theorem cut_closingText (opened : List Opening) : Cut (closingText opened) (closings opened) := by
  induction opened with
  | nil => exact .nil
  | cons o opened ih => exact .token (munches_symbol (c := ')') (by decide) _) ih

theorem finishes_closingText (b : Bool) (opened : List Opening) :
    Finishes (.complete b opened) (closingText opened) :=
  ⟨_, cut_closingText opened, accepts_closings b opened⟩

/-- The digit one is the longest token before what ends every word. -/
theorem munches_one (hx : ∀ d, x.head? = some d → EndsWord d) :
    Munches ('1' :: x) (.literal ['1']) x :=
  munches_literal (digit_wellFormed (by decide)) fun d hd => (hx d hd).continuesNumeral

theorem closingText_endsWord {d : Char} (hd : (closingText opened).head? = some d) :
    EndsWord d := by
  have hmem := List.mem_of_head? hd
  simp only [closingText, List.mem_map] at hmem
  obtain ⟨_, _, rfl⟩ := hmem
  exact ⟨rfl, by simp⟩

theorem finishes_one (opened : List Opening) :
    Finishes (.operand opened) (' ' :: '1' :: closingText opened) := by
  rw [finishes_gap_iff rfl, (munches_one fun d => closingText_endsWord).finishes_iff .literal]
  exact finishes_closingText false opened

/-- A number can come next exactly where an operand is due. -/
theorem finishes_one_iff : (∃ x, Finishes s (' ' :: '1' :: x)) ↔ ∃ opened, s = .operand opened := by
  constructor
  · rintro ⟨x, ts, hcut, haccepts⟩
    obtain hcut := (cut_gap_iff rfl).mp hcut
    cases hcut with
    | gap hd _ => simp [Scan.isGap] at hd
    | token hm _ =>
        obtain ⟨d, tail, hcs, hstart⟩ := hm.starts
        rw [← (List.cons.inj hcs).1] at hstart
        obtain ⟨literal, rfl⟩ := hstart.eq_literal (Or.inl rfl)
        cases haccepts with
        | cons hadvance _ =>
            cases hadvance
            exact ⟨_, rfl⟩
  · rintro ⟨opened, rfl⟩
    exact ⟨_, finishes_one opened⟩

theorem operators_subset_symbols : ∀ d ∈ operators, d ∈ symbols := by
  simp [operators, symbols]

/-- An operator can come next exactly where an operand has been read. -/
theorem finishes_operator_iff {d : Char} (hd : d ∈ operators) :
    (∃ x, Finishes s (d :: x)) ↔ ∃ b opened, s = .complete b opened := by
  have hsymbol := operators_subset_symbols d hd
  constructor
  · rintro ⟨x, ts, hcut, haccepts⟩
    obtain ⟨us, rfl, _⟩ := (munches_symbol hsymbol x).cut_iff.mp hcut
    cases haccepts with
    | cons hadvance _ =>
        cases hadvance with
        | group => simp [operators] at hd
        | _ => exact ⟨_, _, rfl⟩
  · rintro ⟨b, opened, rfl⟩
    exact ⟨_, ((munches_symbol hsymbol _).finishes_iff (.operator hd)).mpr (finishes_one opened)⟩

/-- Nothing has to come where an operand has been read outside all parentheses. -/
theorem finishes_nil_iff : Finishes s [] ↔ ∃ b, s = .complete b [] := by
  constructor
  · rintro ⟨ts, hcut, haccepts⟩
    cases hcut with
    | nil =>
        cases haccepts
        exact ⟨_, rfl⟩
    | token hm _ => exact absurd rfl hm.ne_nil
  · rintro ⟨b, rfl⟩
    exact ⟨[], .nil, .nil⟩

/-- Every progress can be finished without a word that goes on. -/
theorem exists_finishes (s : Progress) (rest : List Char) :
    ∃ x, Joins rest x ∧ Finishes s x := by
  cases s with
  | operand opened => exact ⟨_, joins_of_endsWord (endsWord_of_isGap rfl), finishes_one opened⟩
  | complete b opened =>
      exact ⟨_, fun d hd => Or.inl (closingText_endsWord hd), finishes_closingText b opened⟩

/-! ## Viable texts -/

/-- A text has a parse tree exactly if it finishes a formula from the start. -/
theorem exists_tree_iff {source : String} :
    (∃ t, tree source = .ok t) ↔ Finishes (.operand []) source.toList := by
  constructor
  · rintro ⟨t, ht⟩
    obtain ⟨ts, hcut, he⟩ := tree_sound ht
    exact ⟨ts, hcut, accepts_iff_sentence.mpr ⟨_, he⟩⟩
  · rintro ⟨ts, hcut, haccepts⟩
    obtain ⟨e, he⟩ := accepts_iff_sentence.mp haccepts
    obtain ⟨t, ht, _⟩ := tree_complete hcut he
    exact ⟨t, ht⟩

/-- Some text that begins with this one has a parse tree. -/
def Viable (text : String) : Prop := ∃ rest t, tree (text ++ rest) = .ok t

theorem viable_iff {text : String} :
    Viable text ↔ ∃ x, Finishes (.operand []) (text.toList ++ x) := by
  constructor
  · rintro ⟨rest, ht⟩
    have hfinishes := exists_tree_iff.mp ht
    rw [String.toList_append] at hfinishes
    exact ⟨_, hfinishes⟩
  · rintro ⟨x, hx⟩
    refine ⟨String.ofList x, exists_tree_iff.mpr ?_⟩
    rwa [String.toList_append, String.toList_ofList]

end MetricFormula.Grammar
