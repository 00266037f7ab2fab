/-
  Proofs/Grammar/Visible: the characters of tokens and of the blanks between them.

  Tokens are written with visible ASCII characters, and the blanks between them are ASCII
  characters too.  So offsets into a text that is cut into tokens count its characters
  (`Cut.utf8Size`, `byteLength_eq_length`), and such a text ends with its last token once its
  blanks are cut off (`CutAt.exists_words`, `trimEnd_append`).
-/
import MetricFormula.Proofs.Grammar.Place
import MetricFormula.Text.Blank

set_option autoImplicit false

namespace MetricFormula.Grammar

open MetricFormula.Text

variable {c : Cursor} {cs : List Char} {d : Char} {t : Token} {ts : List Token}
  {ps : List PlacedToken}

/-! ## Visible characters -/

/-- An ASCII character that leaves a mark. -/
def IsVisible (d : Char) : Prop := 0x21 ≤ d.toNat ∧ d.toNat ≤ 0x7E

instance : DecidablePred IsVisible := fun _ => inferInstanceAs (Decidable (_ ∧ _))

theorem IsVisible.utf8Size (h : IsVisible d) : d.utf8Size = 1 := by
  obtain ⟨_, h⟩ := h
  rw [Char.utf8Size_eq_one_iff, UInt32.le_iff_toNat_le]
  exact Nat.le_succ_of_le h

theorem IsVisible.not_isBlank (h : IsVisible d) : isBlank d = false := by
  obtain ⟨hlow, hhigh⟩ := h
  simp only [isBlank, Bool.or_eq_false_iff, Bool.and_eq_false_iff, decide_eq_false_iff_not,
    beq_eq_false_iff_ne]
  omega

theorem isVisible_of_isAlpha (h : d.isAlpha = true) : IsVisible d := by
  delta Char.isAlpha Char.isUpper Char.isLower at h
  simp only [Bool.or_eq_true, Bool.and_eq_true, decide_eq_true_eq, ge_iff_le,
    UInt32.le_iff_toNat_le] at h
  change (65 ≤ d.toNat ∧ d.toNat ≤ 90) ∨ (97 ≤ d.toNat ∧ d.toNat ≤ 122) at h
  unfold IsVisible
  omega

theorem isVisible_of_isDigit (h : d.isDigit = true) : IsVisible d := by
  simp only [Char.isDigit, Bool.and_eq_true, decide_eq_true_eq, ge_iff_le,
    UInt32.le_iff_toNat_le] at h
  change 48 ≤ d.toNat ∧ d.toNat ≤ 57 at h
  unfold IsVisible
  omega

theorem isVisible_of_isNameChar (h : Scan.isNameChar d = true) : IsVisible d := by
  simp only [Scan.isNameChar, Char.isAlphanum, Bool.or_eq_true, beq_iff_eq] at h
  rcases h with (h | h) | rfl
  · exact isVisible_of_isAlpha h
  · exact isVisible_of_isDigit h
  · decide

theorem isVisible_of_isNumeralChar (h : Decimal.isNumeralChar d = true) : IsVisible d := by
  simp only [Decimal.isNumeralChar, Bool.or_eq_true, beq_iff_eq] at h
  rcases h with ((((h | rfl) | rfl) | rfl) | rfl) | rfl
  · exact isVisible_of_isDigit h
  all_goals decide

theorem isVisible_of_mem_symbols : ∀ d ∈ symbols, IsVisible d := by
  simp [symbols, IsVisible]

/-- Tokens are written with visible characters. -/
theorem Token.Valid.isVisible (h : t.Valid) : ∀ d ∈ t.text, IsVisible d := by
  intro d hd
  cases t with
  | name name =>
      obtain ⟨e, es, rfl, he, hes⟩ := h
      rcases List.mem_cons.mp hd with rfl | hd
      · exact isVisible_of_isAlpha he
      · exact isVisible_of_isNameChar (hes d hd)
  | literal literal =>
      obtain ⟨n, hn, rfl⟩ := h
      exact isVisible_of_isNumeralChar (Decimal.Numeral.isNumeralChar_of_mem hn hd)
  | symbol e =>
      rw [List.mem_singleton.mp hd]
      exact isVisible_of_mem_symbols e h

theorem utf8Size_of_isGap (h : Scan.isGap d = true) : d.utf8Size = 1 := by
  simp only [Scan.isGap, Bool.or_eq_true, beq_iff_eq] at h
  rcases h with ((rfl | rfl) | rfl) | rfl <;> rfl

theorem isBlank_of_isGap (h : Scan.isGap d = true) : isBlank d = true := by
  simp only [Scan.isGap, Bool.or_eq_true, beq_iff_eq] at h
  rcases h with ((rfl | rfl) | rfl) | rfl <;> decide

/-! ## Offsets -/

/-- Where every character is one byte, bytes count characters. -/
theorem byteLength_eq_length (h : ∀ d ∈ cs, d.utf8Size = 1) : byteLength cs = cs.length := by
  induction cs with
  | nil => rfl
  | cons d cs ih =>
      obtain ⟨hd, hcs⟩ := List.forall_mem_cons.mp h
      rw [byteLength_cons, List.length_cons, hd, ih hcs, Nat.add_comm]

/-- A text that is cut into tokens is ASCII. -/
theorem Cut.utf8Size (h : Cut cs ts) : ∀ d ∈ cs, d.utf8Size = 1 := by
  induction h with
  | nil => simp
  | gap hgap _ ih => exact List.forall_mem_cons.mpr ⟨utf8Size_of_isGap hgap, ih⟩
  | token hm _ ih =>
      rw [← hm.append]
      exact List.forall_mem_append.mpr ⟨fun d hd => (hm.valid.isVisible d hd).utf8Size, ih⟩

/-! ## The end of a text -/

/-- A text without its trailing blanks ends with the last character that is not blank. -/
theorem trimEnd_append {words blanks : List Char} (hblanks : ∀ d ∈ blanks, isBlank d = true)
    (hlast : ∀ d, words.getLast? = some d → isBlank d = false) :
    trimEnd (words ++ blanks) = words := by
  unfold trimEnd
  rw [List.reverse_append, List.dropWhile_append_of_pos (by simpa using hblanks)]
  cases hwords : words.reverse with
  | nil => simpa using hwords.symm
  | cons d ds =>
      have hd : words.getLast? = some d := by
        rw [← List.head?_reverse, hwords, List.head?_cons]
      rw [List.dropWhile_cons, if_neg (by simp [hlast d hd]), ← hwords, List.reverse_reverse]

/-- The offset at which the last of some tokens ends, or `n` if there is none. -/
def lastStop : Nat → List PlacedToken → Nat
  | n, [] => n
  | _, p :: ps => lastStop p.span.stop ps

theorem lastStop_of_ne_nil (h : ps ≠ []) (m n : Nat) : lastStop m ps = lastStop n ps := by
  cases ps with
  | nil => exact absurd rfl h
  | cons p ps => rfl

/-- A text that is cut into tokens ends with the last of them, but for blanks. -/
theorem CutAt.exists_words (h : CutAt c ps) :
    ∃ words blanks, c.rest = words ++ blanks ∧ (∀ d ∈ blanks, Scan.isGap d = true) ∧
      (∀ d, words.getLast? = some d → isBlank d = false) ∧
      c.offset + byteLength words = lastStop c.offset ps ∧ (words = [] ↔ ps = []) := by
  induction h with
  | nil hrest => exact ⟨[], [], hrest, by simp, by simp, rfl, by simp⟩
  | @gap c d cs ps hrest hgap _ ih =>
      obtain ⟨words, blanks, hcs, hblanks, hlast, hstop, hnil⟩ := ih
      have hcs : cs = words ++ blanks := hcs
      by_cases hps : ps = []
      · obtain rfl := hnil.mpr hps
        refine ⟨[], d :: blanks, by rw [hrest, hcs]; rfl, ?_, by simp, by rw [hps]; rfl,
          by simp [hps]⟩
        exact List.forall_mem_cons.mpr ⟨hgap, hblanks⟩
      · have hwords : words ≠ [] := fun h => hps (hnil.mp h)
        refine ⟨d :: words, blanks, by rw [hrest, hcs]; rfl, hblanks, ?_, ?_, by simp [hps]⟩
        · intro e he
          rw [List.getLast?_cons_of_ne_nil hwords] at he
          exact hlast e he
        · rw [lastStop_of_ne_nil hps _ (c.past [d] cs).offset, ← hstop]
          simp [Cursor.past, Nat.add_assoc]
  | @token c rest t ps hm _ ih =>
      obtain ⟨words, blanks, hrest, hblanks, hlast, hstop, _⟩ := ih
      have hrest : rest = words ++ blanks := hrest
      refine ⟨t.text ++ words, blanks, by rw [← hm.append, hrest, List.append_assoc], hblanks,
        ?_, ?_, ?_⟩
      · intro d hd
        rw [List.getLast?_append, Option.or_eq_some_iff] at hd
        rcases hd with hd | ⟨_, hd⟩
        · exact hlast d hd
        · exact (hm.valid.isVisible d (List.mem_of_getLast? hd)).not_isBlank
      · rw [byteLength_append, ← Nat.add_assoc]
        exact hstop
      · obtain ⟨d, ds, htext, _⟩ := hm.valid.starts
        simp [htext]

end MetricFormula.Grammar
